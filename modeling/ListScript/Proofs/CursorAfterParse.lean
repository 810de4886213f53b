import ListScript.Proofs.CursorProtocol
import ListScript.Proofs.ParserSoundness

/-!
# Where a parser leaves the stream

A parser shares its stream with whoever has called it, and goes on with what is at hand. It takes steps
and nothing else, so that what it leaves behind is a stream like any other, and the next parser goes on
from there.

* `Parser.Leaves s r` : what the result `r` of a parser of `s` says of the stream that is left;
* `TokenStream.Steps s s'` : from `s` to `s'` there are only steps;
* `TokenStream.Sound.leaves_parse`, `TokenStream.Sound.steps_parse` : so it is from every stream;
* `parse_leaves_cursor` : so it is after any calls.
-/

namespace ListScript

/-- A parser begins, or there is no first token for it. -/
theorem Parser.begins_or_error (s : TokenStream) : (∃ u, Begins s u) ∨
    s.current = none ∧ ∃ stop s', s.advance = .error stop s' := by
  cases hcurrent : s.current with
  | some t => exact .inl ⟨s, .inl ⟨⟨t, hcurrent⟩, rfl⟩⟩
  | none =>
    cases hadv : s.advance with
    | ok k u => exact .inl ⟨u, .inr ⟨hcurrent, k, hadv⟩⟩
    | error stop s' => exact .inr ⟨rfl, stop, s', rfl⟩

/-- What the result of a parser of `s` says of the stream that is left behind. -/
inductive Parser.Leaves (s : TokenStream) :
    EStateM.Result (Stop SyntaxError) TokenStream Block → Prop
  /-- A program has been read up to the end of the text, which is at hand. -/
  | program {u s' : TokenStream} {phrase : ProgramPhrase} (begins : Begins s u)
    (reads : Reads phrase.body.tokens u s') (token : s'.token = .ok phrase.stop.1)
    (last : s'.hasNext = false) : Leaves s (.ok phrase.tree s')
  /-- The token that does not fit is at hand. -/
  | unexpected {u s' : TokenStream} {ts : List Token} {t : Token} {expected : String}
    (begins : Begins s u) (reads : Reads ts u s') (token : s'.token = .ok t) :
    Leaves s (.error (.error (.unexpected (if t.kind = .endOfText then "EOF" else t.text) expected
      t.span.start)) s')
  /-- A step has failed, the first one or the one from the token `t`. Nothing is at hand, and there is
  something to read behind what has cost only the step. -/
  | token {v s' : TokenStream} {e : TokenError}
    (reaches : s.current = none ∧ v = s ∨
      ∃ u ts t, Begins s u ∧ Reads ts u v ∧ v.token = .ok t ∧ v.hasNext = true)
    (step : v.advance = .error (.error e) s') (none : s'.token = .error .noCurrentToken)
    (more : s'.hasNext = true ↔ e.Passing) : Leaves s (.error (.error (.token e)) s')

namespace TokenStream

variable {s s' u v : TokenStream} {ts : List Token}

/-! ## Nothing but steps -/

/-- From one stream to the other there are only steps. -/
def Steps (s s' : TokenStream) : Prop := ∃ n, s' = s.after (List.replicate n .advance)

namespace Steps

theorem refl (s : TokenStream) : s.Steps s := ⟨0, rfl⟩

theorem trans (h : s.Steps u) (h' : u.Steps v) : s.Steps v := by
  obtain ⟨m, rfl⟩ := h
  obtain ⟨n, rfl⟩ := h'
  exact ⟨m + n, by rw [List.replicate_add, after_append]⟩

theorem of_advance {k : Kind} (h : s.advance = .ok k s') : s.Steps s' := by
  refine ⟨1, ?_⟩
  show s' = (s.call .advance).2
  rw [call, h]

theorem of_advance_error {stop : Stop TokenError} (h : s.advance = .error stop s') : s.Steps s' := by
  refine ⟨1, ?_⟩
  show s' = (s.call .advance).2
  rw [call, h]

theorem of_reads (h : Reads ts s s') : s.Steps s' := by
  induction h with
  | nil => exact refl _
  | cons _ _ step _ ih => exact (of_advance step).trans ih

theorem of_begins (h : Parser.Begins s u) : s.Steps u := by
  obtain ⟨-, rfl⟩ | ⟨-, k, hadv⟩ := h
  · exact refl _
  · exact of_advance hadv

end Steps

/-! ## What is left -/

/-- A step over a token stays in the streams over sources without empty lines. -/
theorem Sound.of_advance {k : Kind} (hs : s.Sound) (h : s.advance = .ok k u) : u.Sound :=
  ((hs.ends_advance (advance_eq_ok.mp h).1).of_ok h).1

theorem Sound.of_reads (hs : s.Sound) (h : Reads ts s u) : u.Sound := by
  induction h with
  | nil => exact hs
  | cons _ _ step _ ih => exact ih (hs.of_advance step)

theorem Sound.of_begins (hs : s.Sound) (h : Parser.Begins s u) : u.Sound := by
  obtain ⟨-, rfl⟩ | ⟨-, k, hadv⟩ := h
  · exact hs
  · exact hs.of_advance hadv

theorem Sound.ready_of_begins (hs : s.Sound) (h : Parser.Begins s u) : u.Ready := by
  refine ⟨(hs.of_begins h).toStandard, ?_⟩
  obtain ⟨hcurrent, rfl⟩ | ⟨-, k, hadv⟩ := h
  · exact hcurrent
  · obtain ⟨t, ht, -⟩ := current_of_advance hadv
    exact ⟨t, ht⟩

/-- After a step without a token nothing is at hand, and something is left just if the error has cost
only the step. -/
theorem Sound.left_of_advance_error {stop : Stop TokenError} (hs : s.Sound)
    (hcurrent : s.ended = true → s.current = none) (h : s.advance = .error stop u) :
    ∃ e, stop = .error e ∧ u.token = .error .noCurrentToken ∧ (u.hasNext = true ↔ e.Passing) := by
  cases hended : s.ended with
  | true =>
    rw [advance_of_ended hended] at h
    cases h
    refine ⟨.pastEnd, rfl, token_of_none (hcurrent hended), ?_⟩
    rw [hasNext_eq_true, hended]
    exact ⟨nofun, by rintro (⟨_, _, h⟩ | ⟨_, _, h⟩) <;> cases h⟩
  | false =>
    obtain ⟨-, hnone, e, rfl, hcases⟩ := (hs.ends_advance hended).of_error h
    refine ⟨e, rfl, token_of_none hnone, ?_⟩
    rw [hasNext_eq_true]
    obtain ⟨⟨position, cause, rfl⟩, hended'⟩ | ⟨hpassing, hended'⟩ := hcases
    · rw [hended']
      exact ⟨nofun, by rintro (⟨_, _, h⟩ | ⟨_, _, h⟩) <;> cases h⟩
    · exact ⟨fun _ => hpassing, fun _ => hended'⟩

/-- What a parser says of the stream that it leaves behind. -/
theorem Sound.leaves_parse (hs : s.Sound) : Parser.Leaves s (parse s) := by
  obtain ⟨u, hbegins⟩ | ⟨hnone, stop, s', hadv⟩ := Parser.begins_or_error s
  · have hready := hs.ready_of_begins hbegins
    have hbody := Parser.ends_body hready
    cases hparse : parse s with
    | ok program s' =>
      obtain ⟨d, t, rfl, hreads, ht⟩ := Parser.program_sound hready.toStandard
        (Parser.start_eq_ok.mpr hbegins) hparse
      have hended := ((hreads.standard hready.toStandard).ended_iff t.1 ht).mpr t.2
      exact @Parser.Leaves.program s u s' ⟨d, t⟩ hbegins hreads (token_eq_ok ht)
        (hasNext_eq_false.mpr hended)
    | error stop s' =>
      rw [parse_of_begins hbegins] at hparse
      cases hbody.of_error hparse with
      | unexpected reads current => exact .unexpected hbegins reads (token_eq_ok current)
      | @token ts t v _ _ _ e reads current ended _ _ step =>
        have hv := (hs.of_begins hbegins).of_reads reads
        obtain ⟨_, heq, hnone, hmore⟩ := hv.left_of_advance_error
          (fun h => absurd (ended.symm.trans h) Bool.false_ne_true) step
        cases heq
        exact .token (.inr ⟨u, ts, t, hbegins, reads, token_eq_ok current,
          hasNext_eq_true.mpr ended⟩) step hnone hmore
  · obtain ⟨e, rfl, hnone', hmore⟩ := hs.left_of_advance_error (fun _ => hnone) hadv
    rw [parse_of_error hnone hadv]
    exact .token (.inl ⟨hnone, rfl⟩) hadv hnone' hmore

end TokenStream

/-- A parser takes steps and nothing else. -/
theorem Parser.Leaves.steps {s : TokenStream}
    {r : EStateM.Result (Stop SyntaxError) TokenStream Block}
    (h : Leaves s r) : Ends (fun _ s' => s.Steps s') (fun _ s' => s.Steps s') r := by
  cases h with
  | program begins reads => exact .ok ((TokenStream.Steps.of_begins begins).trans (.of_reads reads))
  | unexpected begins reads =>
    exact .error ((TokenStream.Steps.of_begins begins).trans (.of_reads reads))
  | token reaches step =>
    obtain ⟨-, rfl⟩ | ⟨u, ts, t, begins, reads, -⟩ := reaches
    · exact .error (.of_advance_error step)
    · exact .error (((TokenStream.Steps.of_begins begins).trans (.of_reads reads)).trans
        (.of_advance_error step))

/-- Whatever has been asked of a stream before, a parser goes on with the token at hand, or with the
next one if there is none, and leaves the stream where its result says: with the end of the text at
hand, with the token that does not fit, or with nothing. It takes only steps. So the stream that it
leaves behind is again one after some calls, and a parser of that one goes on behind a malformed
character or a numeral out of range. -/
theorem parse_leaves_cursor (bytes : List UInt8) (fault : Option String)
    (calls : List TokenStream.Call) :
    let s := (TokenStream.ofSource Lexicon.standard (Source.ofBytes bytes fault)).after calls
    Parser.Leaves s (parse s) ∧
      Ends (fun _ s' => s.Steps s') (fun _ s' => s.Steps s') (parse s) := by
  intro s
  have hleaves : Parser.Leaves s (parse s) :=
    ((TokenStream.sound_ofBytes bytes fault).after calls).leaves_parse
  exact ⟨hleaves, hleaves.steps⟩

/-- For example a parser that has stopped at a malformed character, and another one after it. -/
example :
    let s := TokenStream.ofSource Lexicon.standard (Source.ofText "print $ print 1")
    ∃ s₁ s₂, parse s = .error (.error (.token (.lexeme (.malformed "$" ⟨1, 7⟩)))) s₁ ∧
      s₁.hasNext = true ∧ parse s₁ = .ok (.one (.print (.int 1))) s₂ := by
  exact ⟨_, _, by cbv, by cbv, by cbv⟩

end ListScript
