import ListScript.Proofs.Derivations
import ListScript.Proofs.ReaderSteps
import ListScript.Grammar.Parser
import Mathlib

/-!
# Steps over a stream of tokens

* `TokenStream.advance_eq_ok` : what a step does that gives a token;
* `TokenStream.Standard` : the streams of the language, which every step keeps
  (`Standard.of_advance`): their last token is the one that ends the text;
* `Reads tokens s s'` : the tokens from the one at hand in `s` up to the one at hand in `s'`
  (`Reads.append`, `Reads.of_append`, `Reads.comparable`, `Reads.length_le`);
* `reads_of_items` : the tokens that an iteration gives are read one after the other;
* `Parser.advance_eq_ok`, `Parser.expect_eq_ok` and so on : the steps of a parser.
-/

namespace ListScript

namespace TokenStream

variable {s s' : TokenStream} {k : Kind} {t : Token}

/-- A step gives the token of the next lexeme, or the end of the text. -/
theorem advance_eq_ok : s.advance = .ok k s' ↔ s.ended = false ∧
    ((∃ r, s.reader.significant = .ok false r ∧ k = .endOfText ∧ s' = { s with
        reader := r, ended := true, current := some (Token.endOfText r.span.stop) }) ∨
      ∃ r t, s.reader.significant = .ok true r ∧ s.lexicon.token r = .ok t ∧ k = t.kind ∧
        s' = { s with reader := r, current := some t }) := by
  unfold advance
  cases hended : s.ended with
  | true => simp
  | false =>
    cases hr : s.reader.significant with
    | error e r => by_cases he : e.isFatal <;> simp [he]
    | ok found r =>
      cases found with
      | false => simp [eq_comm]
      | true => cases ht : s.lexicon.token r <;> simp [ht, eq_comm]

end TokenStream

/-! ## The tokens of the language -/

/-- A numeral holds an integer, and a truth value a truth value. -/
structure Token.HasContent (t : Token) : Prop where
  int : t.kind = .numeral → ∃ value, t.literal = some (.int value)
  bool : t.kind = .boolean → ∃ value, t.literal = some (.bool value)

namespace Lexicon

/-- A reserved word is no name, no numeral and not the end of the text. -/
theorem standard_keyword? {text : String} {kind : Kind} (h : standard.keyword? text = some kind) :
    kind ≠ .endOfText ∧ kind ≠ .numeral ∧ kind ≠ .identifier := by
  obtain ⟨l, l', heq, -⟩ := List.lookup_eq_some_iff.mp h
  have hmem : (text, kind) ∈ standardKeywords := by
    rw [show standardKeywords = _ from heq]
    simp
  have hall : ∀ entry ∈ standardKeywords,
      entry.2 ≠ .endOfText ∧ entry.2 ≠ .numeral ∧ entry.2 ≠ .identifier := by decide
  exact hall _ hmem

/-- A symbol is no word, no numeral and not the end of the text. -/
theorem standard_symbol? {text : String} {kind : Kind} (h : standard.symbol? text = some kind) :
    kind ≠ .endOfText ∧ kind ≠ .numeral ∧ kind ≠ .boolean := by
  obtain ⟨l, l', heq, -⟩ := List.lookup_eq_some_iff.mp h
  have hmem : (text, kind) ∈ standardSymbols := by
    rw [show standardSymbols = _ from heq]
    simp
  have hall : ∀ entry ∈ standardSymbols,
      entry.2 ≠ .endOfText ∧ entry.2 ≠ .numeral ∧ entry.2 ≠ .boolean := by decide
  exact hall _ hmem

/-- The token of a lexeme does not end the text, and has the content of its kind. -/
theorem standard_token {r : Reader} {t : Token} (h : standard.token r = .ok t) :
    t.kind ≠ .endOfText ∧ t.HasContent := by
  unfold token at h
  split at h
  · unfold wordToken at h
    split at h
    · cases h
      exact ⟨nofun, nofun, fun _ => ⟨_, rfl⟩⟩
    · next kind hkind hk =>
      cases h
      obtain ⟨hend, hnumeral, -⟩ := standard_keyword? hk
      exact ⟨hend, fun h => absurd h hnumeral, fun h => absurd h hkind⟩
    · cases h
      exact ⟨nofun, nofun, nofun⟩
  · unfold numeralToken at h
    split at h
    · cases h
    · split at h
      · cases h
        exact ⟨nofun, fun _ => ⟨_, rfl⟩, nofun⟩
      · cases h
  · unfold symbolToken at h
    split at h
    · next kind hk =>
      cases h
      obtain ⟨hend, hnumeral, hboolean⟩ := standard_symbol? hk
      exact ⟨hend, fun h => absurd h hnumeral, fun h => absurd h hboolean⟩
    · cases h

end Lexicon

namespace TokenStream

variable {s s' : TokenStream} {k : Kind} {t : Token}

/-- The streams of the language: the last token is the one that ends the text, and every token has
the content of its kind. -/
structure Standard (s : TokenStream) : Prop where
  lexicon : s.lexicon = Lexicon.standard
  pattern : s.reader.pattern = Lexicon.standard.pattern
  ended_iff : ∀ t, s.current = some t → (s.ended = true ↔ t.kind = .endOfText)
  content : ∀ t, s.current = some t → t.HasContent

theorem standard_ofSource (source : Source) : (ofSource Lexicon.standard source).Standard :=
  ⟨rfl, rfl, nofun, nofun⟩

/-- A step leads to the token of which it gives the kind. -/
theorem current_of_advance (h : s.advance = .ok k s') : ∃ t, s'.current = some t ∧ t.kind = k := by
  obtain ⟨-, ⟨r, -, rfl, rfl⟩ | ⟨r, t, -, -, rfl, rfl⟩⟩ := advance_eq_ok.mp h
  · exact ⟨_, rfl, rfl⟩
  · exact ⟨t, rfl, rfl⟩

/-- A step stays in the streams of the language. -/
theorem Standard.of_advance (hs : s.Standard) (h : s.advance = .ok k s') : s'.Standard := by
  obtain ⟨hended, ⟨r, hr, rfl, rfl⟩ | ⟨r, t, hr, ht, rfl, rfl⟩⟩ := advance_eq_ok.mp h
  · have hpattern : r.pattern = s.reader.pattern := (Reader.pattern_significant s.reader).of_ok hr
    refine ⟨hs.lexicon, hpattern.trans hs.pattern, fun t ht => ?_, fun t ht => ?_⟩ <;> cases ht
    · exact ⟨fun _ => rfl, fun _ => rfl⟩
    · exact ⟨nofun, nofun⟩
  · have hpattern : r.pattern = s.reader.pattern := (Reader.pattern_significant s.reader).of_ok hr
    rw [hs.lexicon] at ht
    obtain ⟨hend, hcontent⟩ := Lexicon.standard_token ht
    refine ⟨hs.lexicon, hpattern.trans hs.pattern, fun t' ht' => ?_, fun t' ht' => ?_⟩ <;> cases ht'
    · exact ⟨fun h => absurd (hended.symm.trans h) nofun, fun h => absurd h hend⟩
    · exact hcontent

/-- So does a step that gives no token. -/
theorem Standard.of_advance_error {stop : Stop TokenError} (hs : s.Standard)
    (h : s.advance = .error stop s') : s'.Standard := by
  have hreader := Reader.pattern_significant s.reader
  unfold advance at h
  split at h
  · cases h; exact hs
  · split at h
    · cases h
    · next r hr =>
      split at h
      · cases h
      · cases h
        exact ⟨hs.lexicon, (hreader.of_ok hr).trans hs.pattern, nofun, nofun⟩
    · next e r hr =>
      have hpattern : r.pattern = Lexicon.standard.pattern := (hreader.of_error hr).trans hs.pattern
      split at h <;> cases h
      · exact ⟨hs.lexicon, hpattern, nofun, nofun⟩
      · exact ⟨hs.lexicon, hpattern, nofun, nofun⟩

/-- Every step but the one to the end of the text uses up a character. -/
theorem Standard.size_of_advance (hs : s.Standard) (h : s.advance = .ok k s') :
    s'.reader.size < s.reader.size ∨ s'.ended = true ∧ s'.reader.size ≤ s.reader.size := by
  have hp : s.reader.pattern.Proper := by rw [hs.pattern]; exact Lexicon.proper_standard
  obtain ⟨-, ⟨r, hr, rfl, rfl⟩ | ⟨r, t, hr, -, rfl, rfl⟩⟩ := advance_eq_ok.mp h
  · exact .inr ⟨rfl, (Reader.size_of_significant hp).of_ok hr⟩
  · exact .inl ((Reader.size_of_significant hp).of_ok hr)

end TokenStream

/-! ## Reading several tokens -/

/-- The tokens from the one at hand in `s` up to the one at hand in `s'`, that one not included. -/
inductive Reads : List Token → TokenStream → TokenStream → Prop
  | nil (s : TokenStream) : Reads [] s s
  | cons {t : Token} {ts : List Token} {s s' s'' : TokenStream} {k : Kind}
    (current : s.current = some t) (ended : s.ended = false) (step : s.advance = .ok k s')
    (rest : Reads ts s' s'') : Reads (t :: ts) s s''

namespace Reads

variable {ts ts' : List Token} {s s' s'' : TokenStream} {t : Token}

theorem append (h : Reads ts s s') (h' : Reads ts' s' s'') : Reads (ts ++ ts') s s'' := by
  induction h with
  | nil => exact h'
  | cons current ended step _ ih => exact .cons current ended step (ih h')

/-- Some tokens and others after them are read in turn. -/
theorem of_append (h : Reads (ts ++ ts') s s'') : ∃ s', Reads ts s s' ∧ Reads ts' s' s'' := by
  induction ts generalizing s with
  | nil => exact ⟨s, .nil s, h⟩
  | cons t ts ih =>
    cases h with
    | cons current ended step rest =>
      obtain ⟨s', hts, hts'⟩ := ih rest
      exact ⟨s', .cons current ended step hts, hts'⟩

/-- A token and others after it are read in turn. -/
theorem of_cons (h : Reads (t :: ts) s s'') : ∃ s', Reads [t] s s' ∧ Reads ts s' s'' :=
  of_append h

theorem current (h : Reads (t :: ts) s s') : s.current = some t := by
  cases h with
  | cons current => exact current

theorem standard (h : Reads ts s s') (hs : s.Standard) : s'.Standard := by
  induction h with
  | nil => exact hs
  | cons _ _ step _ ih => exact ih (hs.of_advance step)

/-- From one place on there is one way to go on: the shorter way is the beginning of the longer
one. -/
theorem comparable (h : Reads ts s s') (h' : Reads ts' s s'') :
    (∃ us, ts' = ts ++ us ∧ Reads us s' s'') ∨ ∃ us, ts = ts' ++ us ∧ Reads us s'' s' := by
  induction h generalizing ts' with
  | nil s => exact .inl ⟨ts', rfl, h'⟩
  | @cons t ts s s₁ s' k current ended step rest ih =>
    cases h' with
    | nil => exact .inr ⟨t :: ts, rfl, .cons current ended step rest⟩
    | cons current' _ step' rest' =>
      cases current.symm.trans current'
      cases step.symm.trans step'
      obtain ⟨us, rfl, hus⟩ | ⟨us, rfl, hus⟩ := ih rest'
      · exact .inl ⟨us, rfl, hus⟩
      · exact .inr ⟨us, rfl, hus⟩

/-- There is nothing to read at the end. -/
theorem eq_nil_of_ended (h : Reads ts s s') (hs : s.ended = true) : ts = [] ∧ s' = s := by
  cases h with
  | nil => exact ⟨rfl, rfl⟩
  | cons _ ended => rw [ended] at hs; cases hs

theorem content (h : Reads ts s s') (hs : s.Standard) : ∀ t ∈ ts, t.HasContent := by
  induction h with
  | nil => exact nofun
  | cons current _ step _ ih =>
    intro t ht
    obtain rfl | ht := List.mem_cons.mp ht
    · exact hs.content _ current
    · exact ih (hs.of_advance step) t ht

/-- Tokens that are read do not end the text. -/
theorem endOfText_not_mem (h : Reads ts s s') (hs : s.Standard) :
    .endOfText ∉ ts.map Token.kind := by
  induction h with
  | nil => exact List.not_mem_nil
  | cons current ended step _ ih =>
    refine List.not_mem_cons_of_ne_of_not_mem ?_ (ih (hs.of_advance step))
    intro hk
    rw [(hs.ended_iff _ current).mpr hk.symm] at ended
    cases ended

/-- There are no more tokens than characters besides the token at hand. -/
theorem length_le (h : Reads ts s s') (hs : s.Standard) :
    ts.length + s'.reader.size ≤ s.reader.size + 1 := by
  induction h with
  | nil => simp
  | cons _ _ step rest ih =>
    rw [List.length_cons]
    obtain hlt | ⟨hended, hle⟩ := hs.size_of_advance step
    · have := ih (hs.of_advance step)
      omega
    · obtain ⟨rfl, rfl⟩ := rest.eq_nil_of_ended hended
      simp only [List.length_nil]
      omega

end Reads

/-! ## Everything that an iteration gives -/

namespace TokenStream

variable {s : TokenStream}

/-- An iteration that gives tokens goes step by step. -/
theorem itemsWithin_succ_eq {n : Nat} {ts : List Token} (hended : s.ended = false)
    (h : s.itemsWithin (n + 1) = ts.map .ok) : ∃ k s' t ts', s.advance = .ok k s' ∧
      s'.current = some t ∧ ts = t :: ts' ∧ s'.itemsWithin n = ts'.map .ok := by
  cases hadv : s.advance with
  | ok k s' =>
    obtain ⟨t, ht, -⟩ := current_of_advance hadv
    have hnext : s.next = (some (.ok t), s') := by
      simp [next, hended, hadv, token, ht, Except.mapError]
    simp only [itemsWithin, hnext] at h
    cases ts with
    | nil => cases h
    | cons t' ts' =>
      simp only [List.map_cons, List.cons.injEq, Except.ok.injEq] at h
      obtain ⟨rfl, hrest⟩ := h
      exact ⟨k, s', t, ts', rfl, ht, rfl, hrest⟩
  | error stop s' =>
    have hnext : s.next = (some (.error stop), s') := by simp [next, hended, hadv]
    cases stop <;> simp only [itemsWithin, hnext] at h <;> cases ts <;> cases h

/-- The tokens that an iteration gives after the one at hand are read up to the last one. -/
theorem Standard.reads_of_itemsWithin {n : Nat} {t : Token} {ts : List Token} (hs : s.Standard)
    (ht : s.current = some t) (hn : s.ended = true ∨ s.reader.size < n)
    (h : s.itemsWithin n = ts.map .ok) : ∃ us last s', t :: ts = us ++ [last] ∧ Reads us s s' ∧
      s'.current = some last ∧ s'.ended = true := by
  induction n generalizing s t ts with
  | zero =>
    have hended : s.ended = true := hn.resolve_right (Nat.not_lt_zero _)
    cases ts with
    | nil => exact ⟨[], t, s, rfl, .nil s, ht, hended⟩
    | cons => cases h
  | succ n ih =>
    cases hended : s.ended with
    | true =>
      have hnext : s.next = (none, s) := by simp [next, hended]
      simp only [itemsWithin, hnext] at h
      cases ts with
      | nil => exact ⟨[], t, s, rfl, .nil s, ht, hended⟩
      | cons => cases h
    | false =>
      have hsize : s.reader.size < n + 1 := hn.resolve_left (by rw [hended]; exact nofun)
      obtain ⟨k, s', t', ts', hadv, ht', rfl, hrest⟩ := itemsWithin_succ_eq hended h
      have hn' : s'.ended = true ∨ s'.reader.size < n := by
        obtain hlt | ⟨hended', -⟩ := hs.size_of_advance hadv
        · exact .inr (by omega)
        · exact .inl hended'
      obtain ⟨us, last, s'', heq, hreads, hlast⟩ := ih (hs.of_advance hadv) ht' hn' hrest
      exact ⟨t :: us, last, s'', by rw [heq]; rfl, .cons ht hended hadv hreads, hlast⟩

/-- A source whose tokens can be read up to the end: the first step leads to the first token, and
from there all of them are read, the one that ends the text last. -/
theorem reads_of_items {source : Source} {tokens : List Token}
    (h : (ofSource Lexicon.standard source).items = tokens.map .ok) :
    ∃ k s us last s', (ofSource Lexicon.standard source).advance = .ok k s ∧ s.Standard ∧
      tokens = us ++ [last] ∧ Reads us s s' ∧ s'.current = some last ∧ s'.ended = true := by
  have hs := standard_ofSource source
  obtain ⟨k, s, t, ts, hadv, ht, rfl, hrest⟩ := itemsWithin_succ_eq rfl h
  have hn : s.ended = true ∨ s.reader.size < (ofSource Lexicon.standard source).reader.size :=
    (hs.size_of_advance hadv).symm.imp And.left id
  obtain ⟨us, last, s', heq, hreads, hlast, hended⟩ :=
    (hs.of_advance hadv).reads_of_itemsWithin ht hn hrest
  exact ⟨k, s, us, last, s', hadv, hs.of_advance hadv, heq, hreads, hlast, hended⟩

end TokenStream

/-! ## The steps of a parser -/

namespace Parser

variable {s s' : TokenStream} {t : Token} {kind k : Kind}

theorem ofExcept_eq_ok {α : Type} {x : Except TokenError α} {a : α} :
    ofExcept x s = .ok a s' ↔ x = .ok a ∧ s' = s := by
  cases x with
  | ok b =>
    change EStateM.Result.ok b s = _ ↔ _
    simp [eq_comm]
  | error e =>
    change EStateM.Result.error (Stop.error (SyntaxError.token e)) s = _ ↔ _
    simp

theorem current_eq_ok : current s = .ok t s' ↔ s' = s ∧ s.current = some t := by
  change ofExcept s.token s = _ ↔ _
  rw [ofExcept_eq_ok, and_comm]
  unfold TokenStream.token
  cases s.current <;> simp

theorem currentKind_eq_ok : currentKind s = .ok k s' ↔
    s' = s ∧ ∃ t, s.current = some t ∧ t.kind = k := by
  change ofExcept s.kind s = _ ↔ _
  rw [ofExcept_eq_ok, and_comm]
  unfold TokenStream.kind TokenStream.token
  cases s.current <;> simp [Except.map]

theorem isAt_eq_ok {b : Bool} : isAt kind s = .ok b s' ↔
    s' = s ∧ ∃ t, s.current = some t ∧ b = decide (t.kind = kind) := by
  unfold isAt
  rw [step_bind_eq_ok]
  constructor
  · rintro ⟨k, u, hk, hb⟩
    obtain ⟨rfl, t, ht, rfl⟩ := currentKind_eq_ok.mp hk
    cases hb
    exact ⟨rfl, t, ht, rfl⟩
  · rintro ⟨rfl, t, ht, rfl⟩
    exact ⟨t.kind, s', currentKind_eq_ok.mpr ⟨rfl, t, ht, rfl⟩, rfl⟩

theorem step_eq_ok : step s = .ok k s' ↔ s.advance = .ok k s' := by
  unfold step
  cases s.advance with
  | ok k' u => simp
  | error stop u => simp

/-- A parser steps over the token at hand, which stays at hand once the stream has ended. -/
theorem advance_eq_ok : advance s = .ok t s' ↔ s.current = some t ∧
    (s.ended = true ∧ s' = s ∨ s.ended = false ∧ ∃ k, s.advance = .ok k s') := by
  unfold advance
  simp only [step_bind_eq_ok, current_eq_ok]
  constructor
  · rintro ⟨t', u, ⟨rfl, ht⟩, v, w, hget, h⟩
    cases hget
    cases hended : u.ended with
    | true =>
      simp only [TokenStream.hasNext, hended] at h
      cases h
      exact ⟨ht, .inl ⟨rfl, rfl⟩⟩
    | false =>
      simp only [TokenStream.hasNext, hended] at h
      obtain ⟨_, v, hstep, hpure⟩ := step_bind_eq_ok.mp h
      obtain ⟨k, hstep⟩ := step_discard_eq_ok.mp hstep
      cases hpure
      exact ⟨ht, .inr ⟨rfl, k, step_eq_ok.mp hstep⟩⟩
  · rintro ⟨ht, ⟨hended, rfl⟩ | ⟨hended, k, hstep⟩⟩
    · refine ⟨t, s', ⟨rfl, ht⟩, s', s', rfl, ?_⟩
      simp only [TokenStream.hasNext, hended]
      rfl
    · refine ⟨t, s, ⟨rfl, ht⟩, s, s, rfl, ?_⟩
      simp only [TokenStream.hasNext, hended]
      exact step_bind_eq_ok.mpr
        ⟨⟨⟩, s', step_discard_eq_ok.mpr ⟨k, step_eq_ok.mpr hstep⟩, rfl⟩

theorem advance_of_reads (h : Reads [t] s s') : advance s = .ok t s' := by
  cases h with
  | cons current ended step rest =>
    cases rest
    exact advance_eq_ok.mpr ⟨current, .inr ⟨ended, _, step⟩⟩

theorem reads_of_advance (hs : s.Standard) (h : advance s = .ok t s')
    (ht : t.kind ≠ .endOfText) : Reads [t] s s' := by
  obtain ⟨hcurrent, ⟨hended, -⟩ | ⟨hended, k, hstep⟩⟩ := advance_eq_ok.mp h
  · exact absurd ((hs.ended_iff t hcurrent).mp hended) ht
  · exact .cons hcurrent hended hstep (.nil s')

/-- The end of the text stays at hand. -/
theorem eq_of_advance (hs : s.Standard) (h : advance s = .ok t s') (ht : t.kind = .endOfText) :
    s' = s := by
  obtain ⟨hcurrent, ⟨-, rfl⟩ | ⟨hended, -⟩⟩ := advance_eq_ok.mp h
  · rfl
  · rw [(hs.ended_iff t hcurrent).mpr ht] at hended
    cases hended

theorem expect_eq_ok : expect kind s = .ok t s' ↔ t.kind = kind ∧ advance s = .ok t s' := by
  unfold expect
  simp only [step_bind_eq_ok, currentKind_eq_ok]
  constructor
  · rintro ⟨k, u, ⟨rfl, t', ht', rfl⟩, h⟩
    split at h
    · next hk =>
      obtain ⟨ht, -⟩ := advance_eq_ok.mp h
      cases ht.symm.trans ht'
      exact ⟨hk, h⟩
    · cases h
  · rintro ⟨hk, h⟩
    obtain ⟨ht, -⟩ := advance_eq_ok.mp h
    exact ⟨t.kind, s, ⟨rfl, t, ht, rfl⟩, by rw [if_pos hk]; exact h⟩

theorem expect_of_reads {t : Terminal kind} (h : Reads [t.1] s s') :
    expect kind s = .ok t.1 s' :=
  expect_eq_ok.mpr ⟨t.2, advance_of_reads h⟩

/-- What a parser has stepped over that expects some kind is a token of that kind. -/
theorem reads_of_expect (hs : s.Standard) (hkind : kind ≠ .endOfText)
    (h : expect kind s = .ok t s') : ∃ t' : Terminal kind, t'.1 = t ∧ Reads [t'.1] s s' := by
  obtain ⟨ht, hadv⟩ := expect_eq_ok.mp h
  exact ⟨⟨t, ht⟩, rfl, reads_of_advance hs hadv (by rw [ht]; exact hkind)⟩

theorem ident_of_reads {t : Terminal .identifier} (h : Reads [t.1] s s') :
    ident s = .ok t.ident s' :=
  step_bind_eq_ok.mpr ⟨t.1, s', expect_of_reads h, rfl⟩

theorem reads_of_ident {x : Ident} (hs : s.Standard) (h : ident s = .ok x s') :
    ∃ t : Terminal .identifier, t.ident = x ∧ Reads [t.1] s s' := by
  obtain ⟨t, u, hexpect, hx⟩ := step_bind_eq_ok.mp h
  obtain ⟨t', rfl, hreads⟩ := reads_of_expect hs (by decide) hexpect
  cases hx
  exact ⟨t', rfl, hreads⟩

end Parser

end ListScript
