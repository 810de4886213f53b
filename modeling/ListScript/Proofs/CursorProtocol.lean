import ListScript.Proofs.BrokenSource
import ListScript.Proofs.ParserTrace

/-!
# The protocol of a stream of tokens

A stream is used by steps (`advance` and `next`), by questions about the token at hand, and by
letting go of the source, in any order. Every step gives a token, an error that costs only the step,
or the last thing that the stream gives at all: the end of the text or a failure to read.

* `Source.Delivers` : no line that a source hands over is empty, as with every source of bytes
  (`Source.delivers_ofBytes`);
* `TokenStream.Sound`, `TokenStream.Sound.ends_advance` : the streams of the language over such a
  source, and all that one step of theirs can do;
* `TokenStream.Call`, `TokenStream.call` : what can be asked of a stream, and the answer;
* `TokenStream.log`, `TokenStream.after` : the answers of a run of calls, and the stream after them;
* `TokenStream.Course` : how many calls of a run ended the text and how many failed to read, with
  what that means for the stream; one call keeps it (`Course.call`), and so does a run
  (`Course.run`);
* `TokenStream.Protocol`, `cursor_protocol` : what holds of every run.
-/

namespace ListScript

/-! ## Lines that are not empty -/

namespace Source

/-- No line that the source will hand over is empty. -/
def Delivers (source : Source) : Prop := ∀ text, .line text ∈ source.pending → text ≠ []

/-- An empty line encodes as no bytes, and no part of some bytes is empty. -/
theorem delivers_ofBytes (bytes : List UInt8) (fault : Option String) :
    (ofBytes bytes fault).Delivers := by
  intro text hmem
  obtain ⟨part, hpart, hreading⟩ := List.mem_map.mp hmem
  have hline : readingOfLine part = .line text := by
    unfold readingOf at hreading
    split at hreading
    · exact hreading
    · split at hreading
      · exact hreading
      · cases hreading
  have hdecode : decode part = some text := by
    unfold readingOfLine at hline
    split at hline
    · next heq => cases hline; exact heq
    · cases hline
  intro hnil
  apply Text.ne_nil_of_mem_splitAfter isLineFeed bytes part hpart
  rw [← encode_of_decode hdecode, hnil]
  rfl

end Source

namespace Reader

variable {r : Reader}

/-- The source of the reader hands over no empty line. -/
def Supplied (r : Reader) : Prop := ∀ source, r.source = some source → source.Delivers

theorem supplied_close (r : Reader) : r.close.Supplied := nofun

/-- A line that has been read on to has a character. -/
theorem Supplied.ends_more (h : r.Supplied) : Ends
    (fun found s => s.Supplied ∧ (found = true → s.rest ≠ []))
    (fun e _ => ∃ position cause, e = .unreadable position cause) (more r) := by
  unfold more
  split
  · next hrest =>
    refine .ok ⟨h, fun _ hnil => ?_⟩
    simp [hnil] at hrest
  · split
    · exact .ok ⟨h, (absurd · Bool.false_ne_true)⟩
    · next source hsource =>
      have hdelivers := h source hsource
      rcases hpending : source.pending with _ | ⟨reading, rest⟩
      · cases hfault : source.fault with
        | none =>
          simp only [Source.read, hpending, hfault]
          refine .ok ⟨fun source' heq => ?_, (absurd · Bool.false_ne_true)⟩
          cases heq
          exact hdelivers
        | some cause =>
          simp only [Source.read, hpending, hfault]
          exact .error ⟨_, _, rfl⟩
      · cases reading with
        | line text =>
          simp only [Source.read, hpending]
          refine .ok ⟨fun source' heq => ?_, fun _ => hdelivers text (by simp [hpending])⟩
          cases heq
          intro text' hmem
          exact hdelivers text' (by rw [hpending]; exact List.mem_cons_of_mem _ hmem)
        | failed kept cause =>
          simp only [Source.read, hpending]
          exact .error ⟨_, _, rfl⟩

/-- With a character at hand there is a lexeme or a malformed character. -/
theorem Supplied.ends_take (h : r.Supplied) (hrest : r.rest ≠ []) : Ends (fun _ s => s.Supplied)
    (fun e s => s.Supplied ∧ ∃ text position, e = .malformed text position) (take r) := by
  unfold take
  split
  · exact .ok h
  · split
    · next hnil => exact absurd hnil hrest
    · exact .error ⟨h, _, _, rfl⟩

/-- A failure to read is the only failure after which the reader may be in disorder. -/
theorem Supplied.ends_significant (h : r.Supplied) : Ends (fun _ s => s.Supplied)
    (fun e s => (∃ position cause, e = .unreadable position cause) ∨
      s.Supplied ∧ ∃ text position, e = .malformed text position) (significant r) := by
  fun_induction significant r with
  | case1 r e s hm => exact .error (.inl (h.ends_more.of_error hm))
  | case2 r s hm => exact .ok (h.ends_more.of_ok hm).1
  | case3 r s hm e t ht =>
    obtain ⟨hs, hrest⟩ := h.ends_more.of_ok hm
    exact .error (.inr ((hs.ends_take (hrest rfl)).of_error ht))
  | case4 r s hm t ht hb hlt ih =>
    obtain ⟨hs, hrest⟩ := h.ends_more.of_ok hm
    exact ih ((hs.ends_take (hrest rfl)).of_ok ht)
  | case5 r s hm t ht hb =>
    obtain ⟨hs, hrest⟩ := h.ends_more.of_ok hm
    exact .ok ((hs.ends_take (hrest rfl)).of_ok ht)

/-- Nothing is left once the source has been let go. -/
theorem significant_close (r : Reader) : significant r.close = .ok false r.close :=
  significant_of_stop rfl

end Reader

/-! ## One step -/

/-- The error costs only the step: a malformed character or a numeral out of range. -/
def TokenError.Passing (e : TokenError) : Prop :=
  (∃ text position, e = .lexeme (.malformed text position)) ∨
    ∃ text position, e = .outOfRange text position

/-- The error says that the token at hand does not have what was asked for. -/
def TokenError.Asked (e : TokenError) : Prop :=
  e = .noCurrentToken ∨ ∃ expected found, e = .wrongKind expected found

/-- A lexeme that gives no token is a numeral out of range, or there is a defect. -/
theorem Lexicon.token_eq_error {lexicon : Lexicon} {r : Reader} {e : TokenError}
    (h : lexicon.token r = .error (.error e)) : e.Passing := by
  unfold token at h
  split at h
  · cases h
  · unfold numeralToken at h
    split at h
    · cases h
    · split at h
      · cases h
      · cases h
        exact .inr ⟨_, _, rfl⟩
  · unfold symbolToken at h
    split at h <;> cases h

namespace TokenStream

variable {s : TokenStream}

/-- The streams of the language over a source without empty lines. -/
structure Sound (s : TokenStream) : Prop extends s.Standard where
  supplied : s.reader.Supplied

theorem sound_ofBytes (bytes : List UInt8) (fault : Option String) :
    (ofSource Lexicon.standard (Source.ofBytes bytes fault)).Sound := by
  refine ⟨standard_ofSource _, fun source hsource => ?_⟩
  cases hsource
  exact Source.delivers_ofBytes bytes fault

theorem Sound.close (hs : s.Sound) : s.close.Sound :=
  ⟨⟨hs.lexicon, hs.pattern, hs.ended_iff, hs.content⟩, Reader.supplied_close s.reader⟩

/-- A step gives a token, which ends the stream if it ends the text. Otherwise nothing is at hand,
and the stream has ended just if reading has failed. -/
theorem Sound.ends_advance (hs : s.Sound) (hended : s.ended = false) : Ends
    (fun k u => u.Sound ∧ ∃ t, u.current = some t ∧ t.kind = k ∧ (u.ended = true ↔ k = .endOfText))
    (fun stop u => u.Sound ∧ u.current = none ∧ ∃ e, stop = .error e ∧
      ((∃ position cause, e = .lexeme (.unreadable position cause)) ∧ u.ended = true ∨
        e.Passing ∧ u.ended = false)) s.advance := by
  have hreader := hs.supplied.ends_significant
  cases hadv : s.advance with
  | ok k u =>
    have hstandard := hs.of_advance hadv
    obtain ⟨t, ht, hk⟩ := current_of_advance hadv
    refine .ok ⟨⟨hstandard, ?_⟩, t, ht, hk, hk ▸ hstandard.ended_iff t ht⟩
    obtain ⟨-, ⟨r, hr, -, rfl⟩ | ⟨r, -, hr, -, -, rfl⟩⟩ := advance_eq_ok.mp hadv
    · exact hreader.of_ok hr
    · exact hreader.of_ok hr
  | error stop u =>
    have hstandard := hs.of_advance_error hadv
    have hdefect : ∀ defect, stop ≠ .defect defect := by
      rintro defect rfl
      exact hs.advance_ne_defect defect hadv
    rw [advance_eq_stepOn hended] at hadv
    cases hr : s.reader.significant with
    | ok found r =>
      rw [hr] at hadv
      cases found with
      | false => cases hadv
      | true =>
        simp only [stepOn] at hadv
        split at hadv
        · cases hadv
        · next htoken =>
          cases hadv
          cases stop with
          | defect defect => exact absurd rfl (hdefect defect)
          | error e =>
            exact .error ⟨⟨hstandard, hreader.of_ok hr⟩, rfl, e, rfl,
              .inr ⟨Lexicon.token_eq_error htoken, hended⟩⟩
    | error e r =>
      rw [hr] at hadv
      obtain ⟨position, cause, rfl⟩ | ⟨hr', text, position, rfl⟩ := hreader.of_error hr
      · cases hadv
        exact .error ⟨⟨hstandard, Reader.supplied_close r⟩, rfl, _, rfl, .inl ⟨⟨_, _, rfl⟩, rfl⟩⟩
      · cases hadv
        exact .error ⟨⟨hstandard, hr'⟩, rfl, _, rfl, .inr ⟨.inl ⟨_, _, rfl⟩, hended⟩⟩

/-- Nothing is left to step to once the source has been let go. -/
theorem advance_of_closed (hended : s.ended = false) (hclosed : s.reader = s.reader.close) :
    s.advance = .ok .endOfText
      { s with ended := true, current := some (Token.endOfText s.reader.span.stop) } := by
  rw [advance_eq_stepOn hended, hclosed, Reader.significant_close]
  rfl

theorem advance_of_ended (h : s.ended = true) : s.advance = .error (.error .pastEnd) s := by
  unfold advance
  rw [if_pos h]

theorem next_of_ended (h : s.ended = true) : s.next = (none, s) := by
  unfold next
  rw [if_pos h]

/-! ## Calls and their answers -/

/-- What can be asked of a stream. -/
inductive Call where
  | advance | next | close | hasNext | token | kind | text | int | bool | option
  deriving DecidableEq, Repr

/-- What a call gives if it succeeds. -/
inductive Reply where
  | nothing
  | flag (value : Bool)
  | kind (kind : Kind)
  | token (token : Token)
  | text (text : String)
  | int (value : Int64)
  | content (literal : Option Literal)

/-- What comes back from a call. -/
abbrev Answer := Except (Stop TokenError) Reply

/-- What comes back from a question about the token at hand. -/
def answer {α : Type} (reply : α → Reply) (asked : Except TokenError α) : Answer :=
  (asked.mapError Stop.error).map reply

/-- What comes back from a call, and the stream after it. -/
def call (s : TokenStream) : Call → Answer × TokenStream
  | .advance =>
    match s.advance with
    | .ok kind s => (.ok (.kind kind), s)
    | .error stop s => (.error stop, s)
  | .next =>
    match s.next with
    | (none, s) => (.ok .nothing, s)
    | (some item, s) => (item.map .token, s)
  | .close => (.ok .nothing, s.close)
  | .hasNext => (.ok (.flag s.hasNext), s)
  | .token => (answer .token s.token, s)
  | .kind => (answer .kind s.kind, s)
  | .text => (answer .text s.text, s)
  | .int => (answer .int s.int, s)
  | .bool => (answer .flag s.bool, s)
  | .option => (answer .content s.option, s)

/-- The stream after some calls. -/
def after (s : TokenStream) : List Call → TokenStream
  | [] => s
  | c :: calls => (s.call c).2.after calls

/-- Some calls, one after the other, with what comes back from each. -/
def log (s : TokenStream) : List Call → List (Call × Answer)
  | [] => []
  | c :: calls => (c, (s.call c).1) :: (s.call c).2.log calls

theorem after_append (s : TokenStream) (calls more : List Call) :
    s.after (calls ++ more) = (s.after calls).after more := by
  induction calls generalizing s with
  | nil => rfl
  | cons c calls ih => exact ih _

/-- The call moves the stream on. -/
def Call.isStep : Call → Bool
  | .advance | .next => true
  | _ => false

/-- The call has moved the stream to the token that ends the text. -/
def endsText : Call × Answer → Bool
  | (.advance, .ok (.kind kind)) => kind == .endOfText
  | (.next, .ok (.token t)) => t.kind == .endOfText
  | _ => false

/-- Reading has failed during the call. -/
def failsToRead : Call × Answer → Bool
  | (_, .error (.error (.lexeme (.unreadable _ _)))) => true
  | _ => false

/-- An error is no token. -/
theorem endsText_error (c : Call) (stop : Stop TokenError) : endsText (c, .error stop) = false := by
  cases c <;> rfl

/-! ## What one call does -/

theorem token_eq_error {e : TokenError} (h : s.token = .error e) : e.Asked := by
  unfold token at h
  split at h <;> cases h
  exact .inl rfl

theorem map_token_eq_error {α : Type} {f : Token → α} {e : TokenError}
    (h : s.token.map f = .error e) : e.Asked := by
  cases ht : s.token with
  | error e' =>
    rw [ht] at h
    cases h
    exact token_eq_error ht
  | ok t =>
    rw [ht] at h
    cases h

/-- A question about the content of the token at hand. -/
theorem bind_token_eq_error {α : Type} {ask : Token → Except TokenError α} {e : TokenError}
    (hask : ∀ t e, ask t = .error e → e.Asked) (h : s.token.bind ask = .error e) : e.Asked := by
  cases ht : s.token with
  | error e' =>
    rw [ht] at h
    cases h
    exact token_eq_error ht
  | ok t =>
    rw [ht] at h
    exact hask t e h

theorem answer_eq_error {α : Type} {reply : α → Reply} {asked : Except TokenError α}
    {stop : Stop TokenError} (hasked : ∀ e, asked = .error e → e.Asked)
    (h : answer reply asked = .error stop) : ∃ e, stop = .error e ∧ e.Asked := by
  cases asked with
  | ok a => cases h
  | error e =>
    cases h
    exact ⟨e, rfl, hasked e rfl⟩

/-- Questions and letting go of the source have no errors but those about the token at hand. -/
theorem call_eq_error {c : Call} {stop : Stop TokenError} (hc : c.isStep = false)
    (h : (s.call c).1 = .error stop) : ∃ e, stop = .error e ∧ e.Asked := by
  cases c with
  | advance => cases hc
  | next => cases hc
  | close => cases h
  | hasNext => cases h
  | token => exact answer_eq_error (fun _ => token_eq_error) h
  | kind => exact answer_eq_error (fun _ => map_token_eq_error) h
  | text => exact answer_eq_error (fun _ => map_token_eq_error) h
  | int =>
    refine answer_eq_error (fun e he => bind_token_eq_error (fun t e he => ?_) he) h
    unfold Token.int at he
    split at he <;> cases he
    exact .inr ⟨_, _, rfl⟩
  | bool =>
    refine answer_eq_error (fun e he => bind_token_eq_error (fun t e he => ?_) he) h
    unfold Token.bool at he
    split at he <;> cases he
    exact .inr ⟨_, _, rfl⟩
  | option =>
    refine answer_eq_error (fun e he => bind_token_eq_error (fun t e he => ?_) he) h
    unfold Token.option at he
    split at he <;> cases he
    exact .inr ⟨_, _, rfl⟩

/-- The call has left the stream where it was. -/
structure Rests (s : TokenStream) (c : Call) : Prop where
  ended : (s.call c).2.ended = s.ended
  current : (s.call c).2.current = s.current
  quiet : endsText (c, (s.call c).1) = false ∧ failsToRead (c, (s.call c).1) = false

/-- So do questions and letting go of the source. -/
theorem rests_of_not_step {c : Call} (hc : c.isStep = false) : s.Rests c := by
  have hquiet : failsToRead (c, (s.call c).1) = false := by
    cases h : (s.call c).1 with
    | ok reply => rfl
    | error stop =>
      obtain ⟨e, rfl, rfl | ⟨expected, found, rfl⟩⟩ := call_eq_error hc h <;> rfl
  cases c with
  | advance => cases hc
  | next => cases hc
  | _ => exact ⟨rfl, rfl, rfl, hquiet⟩

/-- There are no steps at the end: one kind says so, the other gives nothing. -/
theorem call_of_ended {c : Call} (hc : c.isStep = true) (h : s.ended = true) :
    s.call c = (.error (.error .pastEnd), s) ∨ s.call c = (.ok .nothing, s) := by
  cases c with
  | advance => exact .inl (by rw [call, advance_of_ended h])
  | next => exact .inr (by rw [call, next_of_ended h])
  | _ => cases hc

/-- So does every call at the end. -/
theorem rests_of_ended (h : s.ended = true) (c : Call) : s.Rests c := by
  cases hc : c.isStep with
  | false => exact rests_of_not_step hc
  | true =>
    obtain hcall | hcall := call_of_ended hc h
    · refine ⟨?_, ?_, ?_⟩ <;> rw [hcall]
      exact ⟨endsText_error c _, rfl⟩
    · refine ⟨?_, ?_, ?_⟩ <;> rw [hcall]
      exact ⟨by cases c <;> rfl, rfl⟩

/-! ## What a run does -/

/-- How far a stream has come when `ends` calls have ended the text and `failures` have failed to
read. -/
inductive Course (s : TokenStream) : Nat → Nat → Prop
  | going (ended : s.ended = false) : Course s 0 0
  | finished {t : Token} (ended : s.ended = true) (current : s.current = some t)
    (kind : t.kind = .endOfText) : Course s 1 0
  | failed (ended : s.ended = true) (current : s.current = none) : Course s 0 1

/-- The number of calls of a log that ended the text. -/
def endings (log : List (Call × Answer)) : Nat := log.countP endsText

/-- The number of calls of a log that failed to read. -/
def failures (log : List (Call × Answer)) : Nat := log.countP failsToRead

namespace Course

variable {m n : Nat} {c : Call}

theorem of_rests (h : Course s m n) (hrests : s.Rests c) :
    Course (s.call c).2 (m + endings [(c, (s.call c).1)]) (n + failures [(c, (s.call c).1)]) := by
  have hendings : endings [(c, (s.call c).1)] = 0 := by
    rw [endings, List.countP_singleton, hrests.quiet.1]
    rfl
  have hfailures : failures [(c, (s.call c).1)] = 0 := by
    rw [failures, List.countP_singleton, hrests.quiet.2]
    rfl
  rw [hendings, hfailures]
  cases h with
  | going hended => exact .going (hrests.ended.trans hended)
  | finished hended hcurrent hkind =>
    exact .finished (hrests.ended.trans hended) (hrests.current.trans hcurrent) hkind
  | failed hended hcurrent =>
    exact .failed (hrests.ended.trans hended) (hrests.current.trans hcurrent)

end Course

/-- Both kinds of steps move on as `advance` does, and tell by the kind or by the token whether the
text has ended. -/
theorem call_of_advance {c : Call} {k : Kind} {t : Token} {u : TokenStream} (hc : c.isStep = true)
    (hended : s.ended = false) (h : s.advance = .ok k u) (ht : u.current = some t)
    (hk : t.kind = k) : ∃ reply, s.call c = (.ok reply, u) ∧
      endsText (c, .ok reply) = (k == .endOfText) := by
  subst hk
  cases c with
  | advance => exact ⟨.kind t.kind, by rw [call, h], rfl⟩
  | next => exact ⟨.token t, by rw [call, next_of_ok hended h ht]; rfl, rfl⟩
  | _ => cases hc

theorem call_of_advance_error {c : Call} {stop : Stop TokenError} {u : TokenStream}
    (hc : c.isStep = true) (hended : s.ended = false) (h : s.advance = .error stop u) :
    s.call c = (.error stop, u) := by
  cases c with
  | advance => rw [call, h]
  | next => rw [call, next_of_error hended h]; rfl
  | _ => cases hc

theorem Sound.course_of_step {c : Call} (hs : s.Sound) (hc : c.isStep = true)
    (hended : s.ended = false) : (s.call c).2.Sound ∧
      Course (s.call c).2 (endings [(c, (s.call c).1)]) (failures [(c, (s.call c).1)]) := by
  have hstep := hs.ends_advance hended
  cases hadv : s.advance with
  | ok k u =>
    obtain ⟨hu, t, ht, hk, hend⟩ := hstep.of_ok hadv
    obtain ⟨reply, hcall, hreply⟩ := call_of_advance hc hended hadv ht hk
    rw [hcall]
    refine ⟨hu, ?_⟩
    rw [endings, failures, List.countP_singleton, List.countP_singleton, hreply]
    by_cases hlast : k = .endOfText
    · subst hlast
      exact .finished (hend.mpr rfl) ht hk
    · rw [if_neg (by simpa using hlast)]
      exact .going (Bool.eq_false_iff.mpr fun h => hlast (hend.mp h))
  | error stop u =>
    obtain ⟨hu, hcurrent, e, rfl, hcases⟩ := hstep.of_error hadv
    rw [call_of_advance_error hc hended hadv]
    refine ⟨hu, ?_⟩
    rw [endings, failures, List.countP_singleton, List.countP_singleton, endsText_error]
    obtain ⟨⟨position, cause, rfl⟩, hu⟩ | ⟨⟨text, position, rfl⟩ | ⟨text, position, rfl⟩, hu⟩ := hcases
    · exact .failed hu hcurrent
    · exact .going hu
    · exact .going hu

/-- One call keeps a stream of the language one. -/
theorem Sound.call (hs : s.Sound) (c : Call) : (s.call c).2.Sound := by
  cases hc : c.isStep with
  | true =>
    cases hended : s.ended with
    | false => exact (hs.course_of_step hc hended).1
    | true =>
      obtain hcall | hcall := call_of_ended hc hended
      · rw [hcall]; exact hs
      · rw [hcall]; exact hs
  | false =>
    cases c with
    | advance => cases hc
    | next => cases hc
    | close => exact hs.close
    | _ => exact hs

/-- One call ends the text or fails to read only if none before it did. -/
theorem Course.call {m n : Nat} (hs : s.Sound) (h : Course s m n) (c : Call) :
    Course (s.call c).2 (m + endings [(c, (s.call c).1)]) (n + failures [(c, (s.call c).1)]) := by
  cases hc : c.isStep with
  | false => exact h.of_rests (rests_of_not_step hc)
  | true =>
    cases hended : s.ended with
    | true => exact h.of_rests (rests_of_ended hended c)
    | false =>
      cases h with
      | going =>
        rw [Nat.zero_add, Nat.zero_add]
        exact (hs.course_of_step hc hended).2
      | finished hended' => rw [hended] at hended'; cases hended'
      | failed hended' => rw [hended] at hended'; cases hended'

theorem Sound.after (hs : s.Sound) (calls : List Call) : (s.after calls).Sound := by
  induction calls generalizing s with
  | nil => exact hs
  | cons c calls ih => exact ih (hs.call c)

/-- So does every call of a run. -/
theorem Course.run {m n : Nat} (hs : s.Sound) (h : Course s m n) (calls : List Call) :
    Course (s.after calls) (m + endings (s.log calls)) (n + failures (s.log calls)) := by
  induction calls generalizing s m n with
  | nil => exact h
  | cons c calls ih =>
    have hrest := ih (hs.call c) (h.call hs c)
    rw [Nat.add_assoc, Nat.add_assoc, endings, endings, failures, failures,
      ← List.countP_append, ← List.countP_append] at hrest
    exact hrest

/-- Nothing changes after the end. -/
theorem after_of_ended (h : s.ended = true) (calls : List Call) :
    (s.after calls).ended = true ∧ (s.after calls).current = s.current := by
  induction calls generalizing s with
  | nil => exact ⟨h, rfl⟩
  | cons c calls ih =>
    have hrests := rests_of_ended h c
    obtain ⟨hended, hcurrent⟩ := ih (hrests.ended.trans h)
    exact ⟨hended, hcurrent.trans hrests.current⟩

/-- Questions and letting go once more leave a stream as it is that has let go of its source. -/
theorem after_of_closed (hclosed : s.reader = s.reader.close) {calls : List Call}
    (hcalls : ∀ c ∈ calls, c.isStep = false) : s.after calls = s := by
  induction calls with
  | nil => rfl
  | cons c calls ih =>
    have hcall : (s.call c).2 = s := by
      have hc := hcalls c List.mem_cons_self
      cases c with
      | advance => cases hc
      | next => cases hc
      | close => show { s with reader := s.reader.close } = s; rw [← hclosed]
      | _ => rfl
    rw [after, hcall]
    exact ih fun c hc => hcalls c (List.mem_cons_of_mem _ hc)

/-- Every event of a run is a call on the stream after some calls. -/
theorem exists_of_mem_log {calls : List Call} {event : Call × Answer} (h : event ∈ s.log calls) :
    ∃ before, event.2 = ((s.after before).call event.1).1 := by
  induction calls generalizing s with
  | nil => cases h
  | cons c calls ih =>
    obtain rfl | h := List.mem_cons.mp h
    · exact ⟨[], rfl⟩
    · obtain ⟨before, hbefore⟩ := ih h
      exact ⟨c :: before, hbefore⟩

/-- No call says that there is nothing left to read, and none meets a defect. -/
theorem Sound.call_eq_error (hs : s.Sound) {c : Call} {stop : Stop TokenError}
    (h : (s.call c).1 = .error stop) : ∃ e, stop = .error e ∧ e ≠ .lexeme .exhausted := by
  cases hc : c.isStep with
  | false =>
    obtain ⟨e, rfl, rfl | ⟨expected, found, rfl⟩⟩ := TokenStream.call_eq_error hc h
    · exact ⟨_, rfl, nofun⟩
    · exact ⟨_, rfl, nofun⟩
  | true =>
    cases hended : s.ended with
    | true =>
      obtain hcall | hcall := call_of_ended hc hended
      · rw [hcall] at h
        cases h
        exact ⟨_, rfl, nofun⟩
      · rw [hcall] at h
        cases h
    | false =>
      have hstep := hs.ends_advance hended
      cases hadv : s.advance with
      | ok k u =>
        obtain ⟨hu, t, ht, hk, hend⟩ := hstep.of_ok hadv
        obtain ⟨reply, hcall, hreply⟩ := call_of_advance hc hended hadv ht hk
        rw [hcall] at h
        cases h
      | error stop' u =>
        obtain ⟨-, -, e, rfl, hcases⟩ := hstep.of_error hadv
        rw [call_of_advance_error hc hended hadv] at h
        cases h
        refine ⟨e, rfl, ?_⟩
        obtain ⟨⟨position, cause, rfl⟩, -⟩ | ⟨⟨text, position, rfl⟩ | ⟨text, position, rfl⟩, -⟩ := hcases
          <;> exact nofun

/-! ## The protocol -/

/-- What holds of every run of calls on a stream. -/
structure Protocol (s : TokenStream) : Prop where
  /-- At most one call ends the text, and none does if one has failed to read. -/
  one_end : ∀ calls, endings (s.log calls) + failures (s.log calls) ≤ 1
  /-- More is announced until the text has ended or reading has failed. -/
  hasNext_iff : ∀ calls, (s.after calls).hasNext = true ↔
    endings (s.log calls) = 0 ∧ failures (s.log calls) = 0
  /-- While more is announced, a step gives a token, which is then at hand, or an error, and then
  none is at hand. Only a failure to read withdraws the announcement. -/
  step : ∀ calls, (s.after calls).hasNext = true →
    (∃ t u, (s.after calls).advance = .ok t.kind u ∧ (s.after calls).next = (some (.ok t), u) ∧
      u.token = .ok t) ∨
    ∃ e u, (s.after calls).advance = .error (.error e) u ∧
      (s.after calls).next = (some (.error (.error e)), u) ∧ u.token = .error .noCurrentToken ∧
      ((∃ position cause, e = .lexeme (.unreadable position cause)) ∧ u.hasNext = false ∨
        e.Passing ∧ u.hasNext = true)
  /-- Once no more is announced, nothing changes: there are no steps, and the token at hand stays. -/
  stays : ∀ calls more, (s.after calls).hasNext = false →
    (s.after (calls ++ more)).hasNext = false ∧
    (s.after (calls ++ more)).advance = .error (.error .pastEnd) (s.after (calls ++ more)) ∧
    (s.after (calls ++ more)).next = (none, s.after (calls ++ more)) ∧
    (s.after (calls ++ more)).token = (s.after calls).token
  /-- At the end of the text the token at hand is the one that ends it. -/
  token_of_end : ∀ calls, endings (s.log calls) = 1 →
    ∃ t, (s.after calls).token = .ok t ∧ t.kind = .endOfText
  /-- After a failure to read there is none. -/
  token_of_failure : ∀ calls, failures (s.log calls) = 1 →
    (s.after calls).token = .error .noCurrentToken
  /-- The first step after the source has been let go ends the text. -/
  after_close : ∀ calls quiet, (s.after calls).hasNext = true → (∀ c ∈ quiet, c.isStep = false) →
    ∃ u, (s.after (calls ++ .close :: quiet)).advance = .ok .endOfText u
  /-- No call says that there is nothing left to read, and none meets a defect. -/
  errors : ∀ calls, ∀ event ∈ s.log calls, ∀ stop, event.2 = .error stop →
    ∃ e, stop = .error e ∧ e ≠ .lexeme .exhausted

theorem hasNext_eq_true : s.hasNext = true ↔ s.ended = false := by
  rw [hasNext, Bool.not_eq_true']

theorem hasNext_eq_false : s.hasNext = false ↔ s.ended = true := by
  rw [hasNext, Bool.not_eq_false']

theorem token_eq_ok {t : Token} (h : s.current = some t) : s.token = .ok t := by
  rw [token, h]

theorem token_of_none (h : s.current = none) : s.token = .error .noCurrentToken := by
  rw [token, h]

theorem Sound.protocol (hs : s.Sound) (hended : s.ended = false) : s.Protocol := by
  have hcourse : ∀ calls, Course (s.after calls) (endings (s.log calls)) (failures (s.log calls)) := by
    intro calls
    have h := Course.run hs (.going hended) calls
    rwa [Nat.zero_add, Nat.zero_add] at h
  constructor
  case one_end =>
    intro calls
    have h := hcourse calls
    generalize endings (s.log calls) = m, failures (s.log calls) = n at h
    cases h <;> decide
  case hasNext_iff =>
    intro calls
    have h := hcourse calls
    rw [hasNext_eq_true]
    generalize endings (s.log calls) = m, failures (s.log calls) = n at h
    cases h with
    | going h => simp [h]
    | finished h => simp [h]
    | failed h => simp [h]
  case step =>
    intro calls hnext
    have hended := hasNext_eq_true.mp hnext
    have hstep := (hs.after calls).ends_advance hended
    cases hadv : (s.after calls).advance with
    | ok k u =>
      obtain ⟨-, t, ht, rfl, -⟩ := hstep.of_ok hadv
      exact .inl ⟨t, u, rfl, next_of_ok hended hadv ht, token_eq_ok ht⟩
    | error stop u =>
      obtain ⟨-, hcurrent, e, rfl, hcases⟩ := hstep.of_error hadv
      refine .inr ⟨e, u, rfl, next_of_error hended hadv, token_of_none hcurrent, ?_⟩
      rw [hasNext_eq_false, hasNext_eq_true]
      exact hcases
  case stays =>
    intro calls more hnext
    rw [after_append]
    obtain ⟨hended, hcurrent⟩ := after_of_ended (hasNext_eq_false.mp hnext) more
    refine ⟨hasNext_eq_false.mpr hended, advance_of_ended hended, next_of_ended hended, ?_⟩
    rw [token, token, hcurrent]
  case token_of_end =>
    intro calls hend
    have h := hcourse calls
    rw [hend] at h
    generalize failures (s.log calls) = n at h
    cases h with
    | finished _ hcurrent hkind => exact ⟨_, token_eq_ok hcurrent, hkind⟩
  case token_of_failure =>
    intro calls hfail
    have h := hcourse calls
    rw [hfail] at h
    generalize endings (s.log calls) = m at h
    cases h with
    | failed _ hcurrent => exact token_of_none hcurrent
  case after_close =>
    intro calls quiet hnext hquiet
    have hafter : s.after (calls ++ .close :: quiet) = (s.after calls).close := by
      rw [after_append]
      exact after_of_closed rfl hquiet
    rw [hafter]
    exact ⟨_, advance_of_closed (hasNext_eq_true.mp hnext) rfl⟩
  case errors =>
    intro calls event hevent stop hstop
    obtain ⟨before, hbefore⟩ := exists_of_mem_log hevent
    exact (hs.after before).call_eq_error (hbefore.symm.trans hstop)

end TokenStream

/-- The protocol holds of the tokens of every source, whatever its bytes are and whether reading
them fails. Nothing is read on after a failure, so that a source that could be read again afterwards
is no other case. -/
theorem cursor_protocol (bytes : List UInt8) (fault : Option String) :
    (TokenStream.ofSource Lexicon.standard (Source.ofBytes bytes fault)).Protocol :=
  (TokenStream.sound_ofBytes bytes fault).protocol rfl

end ListScript
