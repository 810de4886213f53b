import ListScript.Proofs.ParserSoundness
import ListScript.Proofs.ParserTrace
import ListScript.Proofs.Spelling

/-!
# Where a parser stops

A parser that fails stops at the first token with which no program goes on, or at the first token that
cannot be read if there is none such before it.

* `Viable kinds` : some program begins with tokens of these kinds;
* `TokenStream.items_of_reads` : what an iteration gives of tokens that are read one after the other;
* `Kind.exists_source` : tokens of any kinds can be written;
* `exists_derivation_of_parse`, `run_of_parse`, `parse_of_run` : a parser accepts what is derived, and
  what the agenda of a program takes;
* `viable_of_run`, `exists_run_of_viable` : viable is what the agenda of a program takes;
* `haltsAt_of_parse`, `parse_of_first_error` : where a parser stops, in terms of the agenda;
* `parse_stops_first` : what a parser reports.
-/

namespace ListScript

/-- Some source that holds a program begins with tokens of these kinds. -/
def Viable (kinds : List Kind) : Prop :=
  ∃ (source : Source) (tokens : List Token) (program : Block) (s : TokenStream),
    (TokenStream.ofSource Lexicon.standard source).items = tokens.map .ok ∧
    parse (TokenStream.ofSource Lexicon.standard source) = .ok program s ∧
    kinds <+: tokens.map Token.kind

/-! ## Tokens that are read one after the other -/

section Reading

variable {source : Source} {ts us : List Token} {s u v : TokenStream} {t last : Token} {k : Kind}

/-- The token at hand and what an iteration gives after it. -/
theorem TokenStream.itemsWithin_of_reads (h : Reads ts s u) {first : Token}
    (hs : s.current = some first) (hu : u.current = some t) {n : Nat} (hn : ts.length ≤ n) :
    .ok first :: s.itemsWithin n = ts.map .ok ++ .ok t :: u.itemsWithin (n - ts.length) := by
  induction h generalizing first n with
  | nil =>
    cases hs.symm.trans hu
    rfl
  | @cons t' ts s s' s'' k current ended step _ ih =>
    cases hs.symm.trans current
    obtain ⟨n, rfl⟩ : ∃ m, n = m + 1 := ⟨n - 1, by rw [List.length_cons] at hn; omega⟩
    obtain ⟨next, hnext, -⟩ := current_of_advance step
    rw [itemsWithin_of_ok ended step hnext, ih hnext hu (by simpa using hn), List.map_cons,
      List.cons_append, List.length_cons, Nat.add_sub_add_right]

/-- What an iteration gives of a source whose tokens are read one after the other. -/
theorem TokenStream.items_of_reads (hadv : (ofSource Lexicon.standard source).advance = .ok k s)
    (h : Reads ts s u) (hu : u.current = some t) : ∃ n, u.left ≤ n ∧
      (ofSource Lexicon.standard source).items = ts.map .ok ++ .ok t :: u.itemsWithin n := by
  have hs := (standard_ofSource source).of_advance hadv
  obtain ⟨first, hfirst, -⟩ := current_of_advance hadv
  have hle := h.left_le hs
  have hlt := (standard_ofSource source).left_lt_of_advance hadv
  rw [left_of_not_ended (s := ofSource _ source) rfl] at hlt
  refine ⟨(ofSource Lexicon.standard source).reader.size - ts.length, by omega, ?_⟩
  rw [items, itemsWithin_of_ok rfl hadv hfirst]
  exact itemsWithin_of_reads h hfirst hu (by omega)

/-- What is read up to some token is the beginning of what is read up to the last one. -/
theorem Reads.prefix_of_ended (h : Reads ts s u) (hu : u.current = some t) (h' : Reads us s v)
    (hv : v.current = some last) (hended : v.ended = true) : ts ++ [t] <+: us ++ [last] := by
  obtain ⟨vs, rfl, hvs⟩ | ⟨vs, rfl, hvs⟩ := h.comparable h'
  · cases hvs with
    | nil =>
      cases hu.symm.trans hv
      exact ⟨[], by simp⟩
    | @cons t' vs _ _ _ _ current =>
      cases hu.symm.trans current
      exact ⟨vs ++ [last], by simp⟩
  · obtain ⟨rfl, rfl⟩ := hvs.eq_nil_of_ended hended
    cases hu.symm.trans hv
    exact ⟨[], by simp⟩

/-- Every step is possible before the last token. -/
theorem Reads.exists_advance_of_ended (h : Reads ts s u) (hu : u.ended = false)
    (h' : Reads us s v) (hended : v.ended = true) : ∃ k w, u.advance = .ok k w := by
  have hne : u ≠ v := by
    rintro rfl
    rw [hu] at hended
    cases hended
  obtain ⟨vs, rfl, hvs⟩ | ⟨vs, rfl, hvs⟩ := h.comparable h'
  · cases hvs with
    | nil => exact absurd rfl hne
    | cons _ _ step => exact ⟨_, _, step⟩
  · obtain ⟨-, rfl⟩ := hvs.eq_nil_of_ended hended
    exact absurd rfl hne

end Reading

/-! ## Parsers and agendas -/

section Parsing

variable {source : Source} {tokens : List Token} {program : Block} {s : TokenStream} {k : Kind}

open TokenStream in
/-- A parser of a source begins with its first token. -/
theorem parse_of_advance (hadv : (ofSource Lexicon.standard source).advance = .ok k s) :
    parse (ofSource Lexicon.standard source) = Parser.body s :=
  parse_of_begins (.inr ⟨rfl, k, hadv⟩)

/-- What a parser accepts is the tree of a derivation of all tokens. -/
theorem exists_derivation_of_parse
    (hparse : parse (TokenStream.ofSource Lexicon.standard source) = .ok program s) :
    ∃ d : ProgramPhrase, (TokenStream.ofSource Lexicon.standard source).items = d.tokens.map .ok ∧
      d.tree = program := by
  obtain ⟨u, -, -, hstart, -, -⟩ := Parser.program_eq_ok.mp hparse
  obtain ⟨⟨t, ht⟩, -⟩ | ⟨-, k, hadv⟩ := Parser.start_eq_ok.mp hstart
  · cases ht
  · have hu := (TokenStream.standard_ofSource source).of_advance hadv
    obtain ⟨d, t, htree, hreads, ht⟩ := Parser.program_sound hu hstart hparse
    obtain ⟨n, -, hitems⟩ := TokenStream.items_of_reads hadv hreads ht
    have hended : s.ended = true := ((hreads.standard hu).ended_iff t.1 ht).mpr t.2
    rw [TokenStream.itemsWithin_of_ended hended] at hitems
    refine ⟨⟨d, t⟩, ?_, htree⟩
    rw [hitems, ProgramPhrase.tokens, List.map_append]
    rfl

/-- A parser without a first token reports why there is none. -/
theorem parse_of_advance_error {cause : Stop TokenError}
    (hadv : (TokenStream.ofSource Lexicon.standard source).advance = .error cause u) :
    parse (TokenStream.ofSource Lexicon.standard source) = .error (cause.map .token) u :=
  parse_of_error rfl hadv

/-- What a parser accepts takes the agenda of a program to its end. -/
theorem run_of_parse {s' : TokenStream}
    (hitems : (TokenStream.ofSource Lexicon.standard source).items = tokens.map .ok)
    (hparse : parse (TokenStream.ofSource Lexicon.standard source) = .ok program s') :
    Agenda.program.run (tokens.map Token.kind) = some [] := by
  obtain ⟨k, s, us, last, v, hadv, hs, rfl, hreads, hlast, hended⟩ :=
    TokenStream.reads_of_items hitems
  obtain ⟨first, hfirst, -⟩ := TokenStream.current_of_advance hadv
  rw [parse_of_advance hadv] at hparse
  obtain ⟨ts, t, hts, ht, hend, hrun⟩ := (Parser.ends_body ⟨hs, first, hfirst⟩).of_ok hparse
  have hended' : s'.ended = true := ((hts.standard hs).ended_iff t ht).mpr hend
  -- both readings go up to the end of the text
  have hle := hts.prefix_of_ended ht hreads hlast hended
  have hge := hreads.prefix_of_ended hlast hts ht hended'
  have heq : ts ++ [t] = us ++ [last] :=
    hle.eq_of_length (Nat.le_antisymm hle.length_le hge.length_le)
  rw [← heq, List.map_append, List.map_singleton, hend]
  exact hrun

/-- A source whose tokens the agenda of a program takes to its end holds a program. -/
theorem parse_of_run {σ : Agenda}
    (hitems : (TokenStream.ofSource Lexicon.standard source).items = tokens.map .ok)
    (hrun : Agenda.program.run (tokens.map Token.kind) = some σ) :
    ∃ program s', parse (TokenStream.ofSource Lexicon.standard source) = .ok program s' := by
  obtain ⟨k, s, us, last, v, hadv, hs, rfl, hreads, hlast, hended⟩ :=
    TokenStream.reads_of_items hitems
  obtain ⟨first, hfirst, -⟩ := TokenStream.current_of_advance hadv
  rw [parse_of_advance hadv]
  cases hbody : Parser.body s with
  | ok program s' => exact ⟨program, s', rfl⟩
  | error stop s' =>
    exfalso
    cases (Parser.ends_body ⟨hs, first, hfirst⟩).of_error hbody with
    | @unexpected ts t _ σ' _ reads current run feed =>
      have hprefix := (reads.prefix_of_ended current hreads hlast hended).map Token.kind
      obtain ⟨τ, hτ⟩ := Agenda.exists_run_of_prefix hprefix hrun
      rw [List.map_append, List.map_singleton, Agenda.run_concat, run] at hτ
      cases feed.symm.trans hτ
    | token reads current going run feed step =>
      obtain ⟨k, w, hstep⟩ := reads.exists_advance_of_ended going hreads hended
      cases step.symm.trans hstep

end Parsing

/-! ## Tokens of any kinds can be written -/

/-- The rows of tokens of the given kinds. -/
def Kind.rows (kinds : List Kind) : Language Token := {tokens | tokens.map Token.kind = kinds}

theorem Kind.row_mul_rows_le (k : Kind) (ks : List Kind) :
    k.row * Kind.rows ks ≤ Kind.rows (k :: ks) := by
  rintro _ ⟨_, ⟨t, ht, rfl⟩, ts, hts, rfl⟩
  show Token.kind t :: ts.map Token.kind = k :: ks
  rw [ht, hts]

theorem Text.Apart.of_head {q : Char → Bool} {text : List Char}
    (h : text.head?.any (fun c => !q c) = true) (rest : List Char) :
    Text.Apart q (text ++ rest) := by
  cases text with
  | nil => cases h
  | cons c cs => simpa using h

/-- Every kind but that of the end of the text is a name, a numeral or in the tables. -/
theorem Kind.cases_of_ne_endOfText {k : Kind} (hk : k ≠ .endOfText) :
    k = .identifier ∨ k = .numeral ∨ (∃ entry ∈ Lexicon.standardKeywords, entry.2 = k) ∨
      ∃ entry ∈ Lexicon.standardSymbols, entry.2 = k := by
  revert hk
  cases k <;> decide

/-- A token of any kind but that of the end of the text can be written before a space. -/
theorem Kind.exists_spelling {k : Kind} (hk : k ≠ .endOfText) {rest : List Char}
    {L : Language Token} (h : Spells (' ' :: rest) L) : ∃ text : List Char,
      Text.Apart Text.isSpace (text ++ ' ' :: rest) ∧ Spells (text ++ ' ' :: rest) (k.row * L) := by
  have hhead : ∀ entry ∈ Lexicon.standardKeywords ++ Lexicon.standardSymbols,
      entry.1.toList.head?.any (fun c => !Text.isSpace c) = true := by decide
  obtain rfl | rfl | ⟨⟨word, _⟩, hmem, rfl⟩ | ⟨⟨symbol, _⟩, hmem, rfl⟩ := cases_of_ne_endOfText hk
  · exact ⟨"x".toList, .of_head (by decide) _, h.word (by decide) (fun _ => rfl) (by simp; decide)⟩
  · refine ⟨Nat.toDigits 10 1, .of_head (by decide) _, ?_⟩
    have hnumber := h.number (n := 1) (by decide) (by simp; decide)
    apply hnumber.mono
    rintro _ ⟨_, ⟨t, ⟨ht, -⟩, rfl⟩, ts, hts, rfl⟩
    exact ⟨[t], ⟨t, ht, rfl⟩, ts, hts, rfl⟩
  · exact ⟨word.toList, .of_head (hhead _ (List.mem_append_left _ hmem)) _,
      h.keyword hmem (by simp; decide)⟩
  · exact ⟨symbol.toList, .of_head (hhead _ (List.mem_append_right _ hmem)) _,
      h.symbol hmem (by simp; decide)⟩

/-- Tokens of any kinds can be written, a space between them. -/
theorem Kind.exists_text {ks : List Kind} (hks : .endOfText ∉ ks) : ∃ text : List Char,
    Text.Apart Text.isSpace text ∧ Spells text (Kind.rows ks) := by
  induction ks with
  | nil => exact ⟨[], Text.Apart.nil_iff.mpr trivial, Spells.nil.mono (by rintro _ rfl; rfl)⟩
  | cons k ks ih =>
    rw [List.mem_cons, not_or] at hks
    obtain ⟨rest, hapart, hspells⟩ := ih hks.2
    obtain ⟨text, htext, hall⟩ := Kind.exists_spelling (Ne.symm hks.1) (hspells.space hapart)
    exact ⟨text ++ ' ' :: rest, htext, hall.mono (k.row_mul_rows_le ks)⟩

/-- For any kinds there is a source with tokens of these kinds. -/
theorem Kind.exists_source {ks : List Kind} (hks : .endOfText ∉ ks) :
    ∃ (source : Source) (tokens : List Token),
      (TokenStream.ofSource Lexicon.standard source).items = tokens.map .ok ∧
      tokens.map Token.kind = ks ++ [.endOfText] := by
  obtain ⟨text, -, hspells⟩ := Kind.exists_text hks
  rw [← String.toList_ofList (l := text)] at hspells
  obtain ⟨tokens, hkinds, stop, hitems⟩ := hspells.items
  have hkinds : tokens.map Token.kind = ks := hkinds
  exact ⟨Source.ofText (String.ofList text), _, hitems, by rw [List.map_append, hkinds]; rfl⟩

/-! ## Viable prefixes -/

/-- What the agenda of a program takes before the end of the text is viable. -/
theorem viable_of_run {ks : List Kind} (hks : .endOfText ∉ ks) {σ : Agenda}
    (h : Agenda.program.run ks = some σ) : Viable ks := by
  obtain ⟨more, hmore, hrun⟩ := Agenda.exists_completion h
  have hall : .endOfText ∉ ks ++ more := fun hmem => (List.mem_append.mp hmem).elim hks hmore
  obtain ⟨source, tokens, hitems, hkinds⟩ := Kind.exists_source hall
  rw [← hkinds] at hrun
  obtain ⟨program, s, hparse⟩ := parse_of_run hitems hrun
  refine ⟨source, tokens, program, s, hitems, hparse, ?_⟩
  rw [hkinds, List.append_assoc]
  exact List.prefix_append ks _

/-- The agenda of a program takes what is viable. -/
theorem exists_run_of_viable {ks : List Kind} (h : Viable ks) :
    ∃ σ, Agenda.program.run ks = some σ := by
  obtain ⟨source, tokens, program, s, hitems, hparse, hprefix⟩ := h
  exact Agenda.exists_run_of_prefix hprefix (run_of_parse hitems hparse)

/-! ## What a parser reports -/

/-- Where a parser stops, given everything that an iteration over the tokens gives. -/
inductive HaltsAt (items : List (Except (Stop TokenError) Token)) : Stop SyntaxError → Prop
  /-- The agenda of a program takes the tokens before `t`, and does not take `t`. -/
  | unexpected {earlier : List Token} {t : Token} {later : List (Except (Stop TokenError) Token)}
    {expected : String} {σ : Agenda} (items_eq : items = earlier.map .ok ++ .ok t :: later)
    (not_mem : .endOfText ∉ earlier.map Token.kind)
    (run : Agenda.program.run (earlier.map Token.kind) = some σ) (feed : σ.feed t.kind = none) :
    HaltsAt items (.error (.unexpected (if t.kind = .endOfText then "EOF" else t.text) expected
      t.span.start))
  /-- The agenda of a program takes the tokens before the first error. -/
  | token {earlier : List Token} {later : List (Except (Stop TokenError) Token)} {e : TokenError}
    {σ : Agenda} (items_eq : items = earlier.map .ok ++ .error (.error e) :: later)
    (not_mem : .endOfText ∉ earlier.map Token.kind)
    (run : Agenda.program.run (earlier.map Token.kind) = some σ) :
    HaltsAt items (.error (.token e))

/-- A parser that fails stops where the agenda of a program takes no token, or where there is none. -/
theorem haltsAt_of_parse {source : Source} {stop : Stop SyntaxError} {s' : TokenStream}
    (h : parse (TokenStream.ofSource Lexicon.standard source) = .error stop s') :
    HaltsAt (TokenStream.ofSource Lexicon.standard source).items stop := by
  have hstart := TokenStream.standard_ofSource source
  cases hadv : (TokenStream.ofSource Lexicon.standard source).advance with
  | error cause u =>
    -- there is no first token
    rw [parse_of_advance_error hadv] at h
    cases h
    cases cause with
    | defect defect => exact absurd hadv (hstart.advance_ne_defect defect)
    | error e =>
      have hitems : (TokenStream.ofSource Lexicon.standard source).items =
          List.map .ok [] ++ .error (.error e) :: _ := TokenStream.itemsWithin_of_error rfl hadv
      exact .token hitems List.not_mem_nil rfl
  | ok k s =>
    have hs := hstart.of_advance hadv
    obtain ⟨first, hfirst, -⟩ := TokenStream.current_of_advance hadv
    rw [parse_of_advance hadv] at h
    cases (Parser.ends_body ⟨hs, first, hfirst⟩).of_error h with
    | @unexpected ts t _ σ _ reads current run feed =>
      obtain ⟨n, -, hitems⟩ := TokenStream.items_of_reads hadv reads current
      exact .unexpected hitems (reads.endOfText_not_mem hs) run feed
    | @token ts t v _ σ τ e reads current going run feed step =>
      obtain ⟨n, hn, hitems⟩ := TokenStream.items_of_reads hadv reads current
      rw [TokenStream.left_of_not_ended going] at hn
      obtain ⟨n, rfl⟩ : ∃ m, n = m + 1 := ⟨n - 1, by omega⟩
      rw [TokenStream.itemsWithin_of_error going step] at hitems
      have hkind : t.kind ≠ .endOfText := by
        intro hend
        rw [((reads.standard hs).ended_iff t current).mpr hend] at going
        cases going
      have hmem : .endOfText ∉ (ts ++ [t]).map Token.kind := by
        rw [List.map_append, List.mem_append, not_or]
        exact ⟨reads.endOfText_not_mem hs, by simpa using hkind.symm⟩
      have hrun : Agenda.program.run ((ts ++ [t]).map Token.kind) = some τ := by
        rw [List.map_append, List.map_singleton, Agenda.run_concat, run]
        exact feed
      rw [List.append_cons, ← List.map_singleton, ← List.map_append] at hitems
      exact .token hitems hmem hrun

/-- Tokens at the beginning of what an iteration gives stand before its first error. -/
theorem prefix_of_append_error {ts us : List Token} {stop : Stop TokenError}
    {later more : List (Except (Stop TokenError) Token)}
    (h : us.map .ok ++ more = ts.map .ok ++ .error stop :: later) : us <+: ts := by
  induction us generalizing ts with
  | nil => exact List.nil_prefix
  | cons u us ih =>
    cases ts with
    | nil => cases h
    | cons t ts =>
      obtain ⟨hhead, htail⟩ := List.cons.inj h
      cases hhead
      exact List.cons_prefix_cons.mpr ⟨rfl, ih htail⟩

/-- A parser reports the first error in the tokens if the agenda of a program takes those before. -/
theorem parse_of_first_error {source : Source} {earlier : List Token} {e : TokenError}
    {later : List (Except (Stop TokenError) Token)} {σ : Agenda}
    (hitems : (TokenStream.ofSource Lexicon.standard source).items =
      earlier.map .ok ++ .error (.error e) :: later)
    (hrun : Agenda.program.run (earlier.map Token.kind) = some σ) :
    ∃ s', parse (TokenStream.ofSource Lexicon.standard source) = .error (.error (.token e)) s' := by
  cases hparse : parse (TokenStream.ofSource Lexicon.standard source) with
  | ok program s' =>
    exfalso
    obtain ⟨d, htokens, -⟩ := exists_derivation_of_parse hparse
    have hmem : Except.error (Stop.error e) ∈ d.tokens.map Except.ok := by
      rw [← htokens, hitems]
      exact List.mem_append_right _ List.mem_cons_self
    obtain ⟨_, -, heq⟩ := List.mem_map.mp hmem
    cases heq
  | error stop s' =>
    cases haltsAt_of_parse hparse with
    | @unexpected ts t more _ τ items_eq _ run feed =>
      exfalso
      rw [List.append_cons, ← List.map_singleton, ← List.map_append, hitems] at items_eq
      have hprefix := (prefix_of_append_error items_eq.symm).map Token.kind
      obtain ⟨ρ, hρ⟩ := Agenda.exists_run_of_prefix hprefix hrun
      rw [List.map_append, List.map_singleton, Agenda.run_concat, run] at hρ
      cases feed.symm.trans hρ
    | @token ts more e' _ items_eq =>
      rw [hitems] at items_eq
      have hle := prefix_of_append_error items_eq
      have hge := prefix_of_append_error items_eq.symm
      obtain rfl : earlier = ts := hle.eq_of_length (Nat.le_antisymm hle.length_le hge.length_le)
      cases List.append_cancel_left items_eq
      exact ⟨s', rfl⟩

/-- What a parser may report, given everything that an iteration over the tokens gives. -/
inductive StopsFirst (items : List (Except (Stop TokenError) Token)) : Stop SyntaxError → Prop
  /-- Some program begins with the tokens before `t`, and none goes on with `t`. -/
  | unexpected {earlier : List Token} {t : Token} {later : List (Except (Stop TokenError) Token)}
    {expected : String} (items_eq : items = earlier.map .ok ++ .ok t :: later)
    (viable : Viable (earlier.map Token.kind))
    (not_viable : ¬ Viable ((earlier ++ [t]).map Token.kind)) :
    StopsFirst items (.error (.unexpected (if t.kind = .endOfText then "EOF" else t.text) expected
      t.span.start))
  /-- Some program begins with the tokens before the first error. -/
  | token {earlier : List Token} {later : List (Except (Stop TokenError) Token)} {e : TokenError}
    (items_eq : items = earlier.map .ok ++ .error (.error e) :: later)
    (viable : Viable (earlier.map Token.kind)) : StopsFirst items (.error (.token e))

/-- A parser that fails reports the first token with which no program goes on, or the first error in
the tokens if there is no such token before it. -/
theorem parse_stops_first {source : Source} {stop : Stop SyntaxError} {s' : TokenStream}
    (h : parse (TokenStream.ofSource Lexicon.standard source) = .error stop s') :
    StopsFirst (TokenStream.ofSource Lexicon.standard source).items stop := by
  cases haltsAt_of_parse h with
  | unexpected items_eq not_mem run feed =>
    refine .unexpected items_eq (viable_of_run not_mem run) fun hviable => ?_
    obtain ⟨τ, hτ⟩ := exists_run_of_viable hviable
    rw [List.map_append, List.map_singleton, Agenda.run_concat, run] at hτ
    cases feed.symm.trans hτ
  | token items_eq not_mem run => exact .token items_eq (viable_of_run not_mem run)

/-- A result with an error is this error and what it leaves. -/
theorem exists_eq_error {ε σ α : Type} {result : EStateM.Result ε σ α} {e : ε}
    (h : (match result with
      | .ok _ _ => none
      | .error e' _ => some e') = some e) : ∃ s, result = .error e s := by
  cases result with
  | ok _ _ => cases h
  | error e' s =>
    cases h
    exact ⟨s, rfl⟩

/-- For example these texts, in which a character that begins no token stands after the token with which
no program goes on and before it. -/
theorem parse_stops_first_malformed :
    (∃ s', parse (TokenStream.ofSource Lexicon.standard (Source.ofText "print 1 2 $")) =
        .error (.error (.unexpected "2" "EOF" ⟨1, 9⟩)) s') ∧
      StopsFirst (TokenStream.ofSource Lexicon.standard (Source.ofText "print 1 2 $")).items
        (.error (.unexpected "2" "EOF" ⟨1, 9⟩)) ∧
      (∃ s', parse (TokenStream.ofSource Lexicon.standard (Source.ofText "print $ 1 2")) =
        .error (.error (.token (.lexeme (.malformed "$" ⟨1, 7⟩)))) s') ∧
      StopsFirst (TokenStream.ofSource Lexicon.standard (Source.ofText "print $ 1 2")).items
        (.error (.token (.lexeme (.malformed "$" ⟨1, 7⟩)))) := by
  obtain ⟨s, h⟩ : ∃ s', parse (TokenStream.ofSource Lexicon.standard
      (Source.ofText "print 1 2 $")) = .error (.error (.unexpected "2" "EOF" ⟨1, 9⟩)) s' :=
    exists_eq_error (by cbv)
  obtain ⟨u, h'⟩ : ∃ s', parse (TokenStream.ofSource Lexicon.standard
      (Source.ofText "print $ 1 2")) =
        .error (.error (.token (.lexeme (.malformed "$" ⟨1, 7⟩)))) s' :=
    exists_eq_error (by cbv)
  exact ⟨⟨s, h⟩, parse_stops_first h, ⟨u, h'⟩, parse_stops_first h'⟩

end ListScript
