import ListScript.Proofs.Layout
import ListScript.Proofs.Literals
import ListScript.Proofs.ViablePrefix

/-!
# Printed values as program text

What printing a value writes can be read back as an expression for the same value. The only exception
is the least integer: its sign is an operator, and the number after it is out of range.

* `Comes`, `Puts` : what comes of lexemes of some kinds, and texts that consist of such lexemes;
* `exists_first_error` : the tokens before the first number that is out of range;
* `Value.Marks v marks` : the kinds of the lexemes that printing `v` writes, which make an expression
  wherever one is asked for; `none` stands for the number that is out of range;
* `Value.exists_marks` : all values that a program makes are printed as such lexemes;
* `printed_value_reads_back` : where the least integer is part of a value and where it is not.
-/

namespace ListScript

/-! ## What comes of lexemes -/

/-- The digits of the first number that is out of range. -/
def outOfRange : String := "9223372036854775808"

/-- What comes of a lexeme of a kind. Of the number that is out of range comes an error. -/
inductive Comes : Option Kind → Except (Stop TokenError) Token → Prop
  | token {t : Token} {kind : Kind} : t.kind = kind → Comes (some kind) (.ok t)
  | error (position : Position) : Comes none (.error (.error (.outOfRange outOfRange position)))

/-- In front of `rest`, the text consists of lexemes of the given kinds. -/
def Puts (text : List Char) (marks : List (Option Kind)) (rest : List Char) : Prop :=
  ∀ start, ∃ items start', List.Forall₂ Comes marks items ∧
    Lexicon.standard.yields start (text ++ rest) = items ++ Lexicon.standard.yields start' rest

namespace Puts

variable {text text' rest : List Char} {marks marks' : List (Option Kind)}

theorem append (h : Puts text marks (text' ++ rest)) (h' : Puts text' marks' rest) :
    Puts (text ++ text') (marks ++ marks') rest := by
  intro start
  obtain ⟨items, start', hitems, hyields⟩ := h start
  obtain ⟨items', start'', hitems', hyields'⟩ := h' start'
  refine ⟨items ++ items', start'', List.rel_append hitems hitems', ?_⟩
  rw [List.append_assoc, hyields, hyields', List.append_assoc]

/-- A text that is a lexeme. -/
theorem lexeme (lexeme : Lexeme) {mark : Option Kind} (hline : '\n' ∉ lexeme.text)
    (hfound : Lexicon.standard.pattern.lexeme? (lexeme.text ++ Text.firstLine rest) = some lexeme)
    (hitem : ∀ start, ∃ item, Comes mark item ∧
      Lexicon.standard.item? (.ofLexeme lexeme start) = some item) :
    Puts lexeme.text [mark] rest := by
  intro start
  obtain ⟨item, hcomes, hitem⟩ := hitem start
  exact ⟨[item], _, .cons hcomes .nil,
    Lexicon.yields_lexeme Lexicon.proper_standard hline hfound hitem⟩

theorem space : Puts [' '] [] rest := fun start =>
  ⟨[], start.right 1, .nil,
    Lexicon.yields_space Lexicon.proper_standard (by decide) (by decide) rest⟩

theorem word {word : String} {kind : Kind} (hword : isWord word.toList = true)
    (hkind : (Lexicon.standard.keyword? word).getD .identifier = kind)
    (hrest : Text.Apart isWordChar rest) : Puts word.toList [some kind] rest := by
  refine lexeme ⟨word.toList, some .identifier⟩ (lineFeed_not_mem_word hword)
    (Pattern.lexeme?_word hword hrest.firstLine) fun start => ⟨_, .token ?_, rfl⟩
  rw [String.ofList_toList, Lexicon.kind_wordToken, hkind]

theorem symbol {symbol : String} {kind : Kind} (hmem : (symbol, kind) ∈ Lexicon.standardSymbols)
    (hrest : Text.Apart isSymbolTail rest) : Puts symbol.toList [some kind] rest :=
  lexeme ⟨symbol.toList, none⟩ (Lexicon.lineFeed_not_mem_symbol hmem)
    (Lexicon.lexeme?_symbol (Lexicon.mem_symbols hmem) hrest.firstLine)
    fun _ => ⟨_, .token rfl, congrArg some (Lexicon.symbolToken_of_mem hmem _)⟩

/-- A number is a numeral if it is in range. -/
theorem number {n : Nat} {mark : Option Kind}
    (hmark : ∀ span, Comes mark (Lexicon.numeralToken (String.ofList (Nat.toDigits 10 n)) span))
    (hrest : Text.Apart isWordChar rest) : Puts (Nat.toDigits 10 n) [mark] rest := by
  have hline : '\n' ∉ Nat.toDigits 10 n :=
    lineFeed_not_mem_digits fun _ => Numeral.isDigit_of_mem_toDigits
  exact lexeme ⟨Nat.toDigits 10 n, some .numeral⟩ hline (Pattern.lexeme?_digits n hrest.firstLine)
    fun start => ⟨_, hmark _, rfl⟩

end Puts

theorem comes_numeral {n : Nat} (h : n < Numeral.limit) (span : Span) :
    Comes (some .numeral) (Lexicon.numeralToken (String.ofList (Nat.toDigits 10 n)) span) := by
  rw [Lexicon.numeralToken_toDigits h]
  exact .token rfl

theorem comes_limit (span : Span) :
    Comes none (Lexicon.numeralToken (String.ofList (Nat.toDigits 10 Numeral.limit)) span) := by
  have htext : String.ofList (Nat.toDigits 10 Numeral.limit) = outOfRange := by decide
  rw [Lexicon.numeralToken, String.toList_ofList, Numeral.denoted?_toDigits, htext]
  exact .error span.start

/-- The kinds of lexemes, where a number is a numeral, in range or not. -/
def kindsOf (marks : List (Option Kind)) : List Kind := marks.map fun mark => mark.getD .numeral

/-- Before the first error there are tokens of the kinds that come before it. -/
theorem exists_first_error {marks : List (Option Kind)} {items : List (Except (Stop TokenError) Token)}
    (h : List.Forall₂ Comes marks items) (hnone : none ∈ marks) :
    ∃ (tokens : List Token) (position : Position) (later : List (Except (Stop TokenError) Token)),
      items = tokens.map .ok ++ .error (.error (.outOfRange outOfRange position)) :: later ∧
        tokens.map Token.kind <+: kindsOf marks := by
  induction h with
  | nil => cases hnone
  | @cons mark item marks items hcomes _ ih =>
    cases hcomes with
    | error position => exact ⟨[], position, items, rfl, List.nil_prefix⟩
    | @token t kind hkind =>
      have hrest : none ∈ marks := List.mem_of_ne_of_mem (Option.some_ne_none kind).symm hnone
      obtain ⟨tokens, position, later, rfl, hbefore⟩ := ih hrest
      exact ⟨t :: tokens, position, later, rfl, List.cons_prefix_cons.mpr ⟨hkind, hbefore⟩⟩

/-! ## The lexemes of a value -/

/-- Printing the value writes lexemes of the given kinds, which are an expression wherever one is asked
for. If the least integer is part of the value, one of the numbers is out of range. -/
structure Value.Marks (v : Value) (marks : List (Option Kind)) : Prop where
  apart (rest : List Char) : Text.Apart isSymbolTail (v.text.toList ++ rest)
  puts {rest : List Char} : Text.Apart goesOn rest → Puts v.text.toList marks rest
  run {p : Power} {σ : Agenda} {k : Kind} {ks : List Kind} : Rules.standard.power k = .lowest →
    Agenda.run (.expr p :: σ) (kindsOf marks ++ k :: ks) = Agenda.run σ (k :: ks)
  least : Value.least.Occurs v → none ∈ marks

/-- So are the values `v` and `vs` between commas, as the items of a list. -/
structure Value.ItemMarks (v : Value) (vs : List Value) (marks : List (Option Kind)) : Prop where
  apart (rest : List Char) :
    Text.Apart isSymbolTail ((v.text ++ Value.textAfter vs).toList ++ rest)
  puts {rest : List Char} :
    Text.Apart goesOn rest → Puts (v.text ++ Value.textAfter vs).toList marks rest
  run {σ : Agenda} {ks : List Kind} :
    Agenda.run (.expr .lowest :: .items :: σ) (kindsOf marks ++ .closeBracket :: ks) =
      Agenda.run σ (.closeBracket :: ks)
  least : (∃ w ∈ v :: vs, Value.least.Occurs w) → none ∈ marks

namespace Value.Marks

variable {v w : Value} {ws : List Value} {marks marks' : List (Option Kind)}

theorem nonneg {n : Int64} (h : 0 ≤ n.toInt) : Marks (.int n) [some .numeral] := by
  have htext : (text (.int n)).toList = Nat.toDigits 10 n.toInt.toNat := toList_toString_of_nonneg h
  refine ⟨fun rest => ?_, fun hrest => ?_, fun hk => ?_, fun hleast => ?_⟩
  · rw [htext]
    exact (Text.Apart.digits _ rest).tail
  · rw [htext]
    exact .number (comes_numeral (ofNat_toNat_of_nonneg h).2) hrest.word
  · exact Agenda.run_congr (Agenda.feed_operators_of_lowest hk) _
  · cases hleast
    exact absurd h (by decide)

/-- A minus sign and the digits of the opposite number. -/
theorem negative {n : Int64} {mark : Option Kind} (h : n.toInt < 0)
    (hkind : mark.getD .numeral = .numeral)
    (hmark : ∀ span, Comes mark
      (Lexicon.numeralToken (String.ofList (Nat.toDigits 10 (-n.toInt).toNat)) span))
    (hleast : n = Int64.minValue → mark = none) : Marks (.int n) [some .minus, mark] := by
  have htext : (text (.int n)).toList = "-".toList ++ Nat.toDigits 10 (-n.toInt).toNat := by
    rw [text, Int.toString_eq_repr, Int.repr_eq_if, if_neg (by omega), String.toList_append,
      Nat.toList_repr]
  have hsign : ("-", Kind.minus) ∈ Lexicon.standardSymbols := by decide
  refine ⟨fun rest => ?_, fun hrest => ?_, fun {p σ k ks} hk => ?_, fun h => ?_⟩
  · rw [htext]
    rfl
  · rw [htext]
    exact .append (.symbol hsign (Text.Apart.digits _ _).tail) (.number hmark hrest.word)
  · have hopening : Rules.standard.opening .minus = some .unary := rfl
    show Agenda.run _ (.minus :: mark.getD .numeral :: k :: ks) = _
    rw [hkind, Agenda.run_of_feed (Agenda.feed_expr hopening)]
    show Agenda.run (.operators .unary :: .operators p :: σ) (k :: ks) = _
    rw [Agenda.run_congr (Agenda.feed_operators_of_lowest hk),
      Agenda.run_congr (Agenda.feed_operators_of_lowest hk)]
  · cases h
    rw [hleast rfl]
    exact List.mem_cons_of_mem _ List.mem_cons_self

theorem bool (b : Bool) : Marks (.bool b) [some .boolean] := by
  have hword : isWord (toString b).toList = true := by cases b <;> decide
  have hkind : (Lexicon.standard.keyword? (toString b)).getD .identifier = .boolean := by
    cases b <;> decide
  refine ⟨fun rest => ?_, fun hrest => ?_, fun hk => ?_, fun hleast => nomatch hleast⟩
  · cases b <;> rfl
  · exact .word hword hkind hrest.word
  · exact Agenda.run_congr (Agenda.feed_operators_of_lowest hk) _

theorem list (h : ItemMarks v ws marks) :
    Marks (.list (v :: ws)) (some .openBracket :: (marks ++ [some .closeBracket])) := by
  have htext : (text (.list (v :: ws))).toList =
      "[".toList ++ ((v.text ++ textAfter ws).toList ++ "]".toList) := by
    simp [text]
  have hopening : ("[", Kind.openBracket) ∈ Lexicon.standardSymbols := by decide
  have hclosing : ("]", Kind.closeBracket) ∈ Lexicon.standardSymbols := by decide
  refine ⟨fun rest => ?_, fun {rest} hrest => ?_, fun {p σ k ks} hk => ?_, fun hleast => ?_⟩
  · rw [htext]
    rfl
  · rw [htext]
    have hitems : Puts (v.text ++ textAfter ws).toList marks ("]".toList ++ rest) := h.puts rfl
    refine .append (.symbol hopening ?_) (hitems.append (.symbol hclosing hrest.symbol))
    rw [List.append_assoc]
    exact h.apart _
  · have hform : Rules.standard.opening .openBracket = some .list := rfl
    have hkinds : kindsOf (some .openBracket :: (marks ++ [some .closeBracket])) ++ k :: ks =
        .openBracket :: (kindsOf marks ++ .closeBracket :: k :: ks) := by
      simp [kindsOf]
    rw [hkinds, Agenda.run_of_feed (Agenda.feed_expr hform)]
    show Agenda.run (.expr .lowest :: .items :: .token .closeBracket :: .operators p :: σ) _ = _
    rw [h.run, Agenda.run_of_feed (Agenda.feed_token _ _),
      Agenda.run_congr (Agenda.feed_operators_of_lowest hk)]
  · cases hleast with
    | inside hmem hoccurs =>
      exact List.mem_cons_of_mem _ (List.mem_append_left _ (h.least ⟨_, hmem, hoccurs⟩))

/-- The last item of a list. -/
theorem last (h : Marks v marks) : ItemMarks v [] marks := by
  have htext : v.text ++ textAfter [] = v.text := by rw [textAfter, String.append_empty]
  refine ⟨?_, ?_, fun {σ ks} => ?_, fun hleast => ?_⟩
  · rw [htext]
    exact h.apart
  · rw [htext]
    exact h.puts
  · rw [h.run (by decide)]
    exact Agenda.run_congr (Agenda.feed_items_of_ne (by decide)) _
  · obtain ⟨w, hw, hoccurs⟩ := hleast
    rw [List.mem_singleton.mp hw] at hoccurs
    exact h.least hoccurs

/-- An item of a list before others. -/
theorem before (h : Marks v marks) (hrest : ItemMarks w ws marks') :
    ItemMarks v (w :: ws) (marks ++ some .comma :: marks') := by
  have htext : (v.text ++ textAfter (w :: ws)).toList =
      v.text.toList ++ (",".toList ++ ([' '] ++ (w.text ++ textAfter ws).toList)) := by
    simp [textAfter]
  have hcomma : (",", Kind.comma) ∈ Lexicon.standardSymbols := by decide
  refine ⟨fun rest => ?_, fun {rest} hapart => ?_, fun {σ ks} => ?_, fun hleast => ?_⟩
  · rw [htext, List.append_assoc]
    exact h.apart _
  · rw [htext]
    have hspaced : Puts ([' '] ++ (w.text ++ textAfter ws).toList) marks' rest :=
      Puts.space.append (hrest.puts hapart)
    have hsymbol : Puts ",".toList [some .comma] ([' '] ++ (w.text ++ textAfter ws).toList ++ rest) :=
      .symbol hcomma rfl
    exact .append (h.puts rfl) (hsymbol.append hspaced)
  · have hkinds : kindsOf (marks ++ some .comma :: marks') ++ .closeBracket :: ks =
        kindsOf marks ++ .comma :: (kindsOf marks' ++ .closeBracket :: ks) := by
      simp [kindsOf]
    rw [hkinds, h.run (by decide)]
    exact hrest.run
  · obtain ⟨u, hu, hoccurs⟩ := hleast
    rcases List.mem_cons.mp hu with rfl | hu
    · exact List.mem_append_left _ (h.least hoccurs)
    · exact List.mem_append_right _ (List.mem_cons_of_mem _ (hrest.least ⟨u, hu, hoccurs⟩))

end Value.Marks

theorem Value.exists_itemMarks {v : Value} {vs : List Value}
    (h : ∀ w ∈ v :: vs, ∃ marks, w.Marks marks) : ∃ marks, ItemMarks v vs marks := by
  induction vs generalizing v with
  | nil =>
    obtain ⟨marks, hv⟩ := h v List.mem_cons_self
    exact ⟨_, hv.last⟩
  | cons w ws ih =>
    obtain ⟨⟨marks, hv⟩, hrest⟩ := List.forall_mem_cons.mp h
    obtain ⟨marks', hws⟩ := ih hrest
    exact ⟨_, hv.before hws⟩

/-- Every value that a program makes is printed as the lexemes of an expression, but for numbers that
are out of range. -/
theorem Value.exists_marks {v : Value} (hv : v.Solid) : ∃ marks, v.Marks marks := by
  induction hv with
  | int n =>
    by_cases hn : 0 ≤ n.toInt
    · exact ⟨_, .nonneg hn⟩
    · by_cases hleast : n = Int64.minValue
      · subst hleast
        exact ⟨_, .negative (by decide) rfl comes_limit fun _ => rfl⟩
      · have hlimit : (-n.toInt).toNat < Numeral.limit := by
          have hlt := lt_toInt_of_ne_minValue hleast
          rw [Numeral.limit]
          omega
        exact ⟨_, .negative (by omega) rfl (comes_numeral hlimit) fun h => absurd h hleast⟩
  | bool b => exact ⟨_, .bool b⟩
  | @list items hne _ ih =>
    obtain ⟨v, vs, rfl⟩ := List.exists_cons_of_ne_nil hne
    obtain ⟨marks, hitems⟩ := exists_itemMarks ih
    exact ⟨_, .list hitems⟩

/-! ## Programs -/

theorem puts_declaration (rest : List Char) :
    Puts "var x = ".toList [some .varWord, some .identifier, some .assign] rest := by
  have hassign : Puts "=".toList [some .assign] ([' '] ++ rest) := .symbol (by decide) rfl
  have hname : Puts "x".toList [some .identifier] ([' '] ++ ("=".toList ++ [' ']) ++ rest) :=
    .word (by decide) (by decide) rfl
  have hvar : Puts "var".toList [some .varWord]
      ([' '] ++ ("x".toList ++ ([' '] ++ ("=".toList ++ [' ']))) ++ rest) :=
    .word (by decide) (by decide) rfl
  exact hvar.append (.append .space (hname.append (.append .space (hassign.append .space))))

/-- The least integer cannot be read where it is part of a value. -/
theorem Value.Solid.exists_read_error {v : Value} (hv : v.Solid) (hleast : Value.least.Occurs v) :
    ∃ position, Program.read (Source.ofText ("var x = " ++ v.text)) =
      .error (.error (.token (.outOfRange outOfRange position))) := by
  obtain ⟨marks, hmarks⟩ := Value.exists_marks hv
  let all := [some .varWord, some .identifier, some .assign] ++ marks
  have hputs : Puts ("var x = ".toList ++ v.text.toList) all [] :=
    (puts_declaration _).append (hmarks.puts (Text.Apart.nil_iff.mpr trivial))
  obtain ⟨items, start', hitems, hyields⟩ := hputs ⟨1, 1⟩
  obtain ⟨tokens, position, later, rfl, hbefore⟩ :=
    exists_first_error hitems (List.mem_append_right _ (hmarks.least hleast))
  -- the tokens before the error are the beginning of a program
  have hrun : Agenda.program.run (kindsOf all ++ [.endOfText]) = some [] := by
    have hkinds : kindsOf all = [.varWord, .identifier, .assign] ++ kindsOf marks := List.map_append
    rw [hkinds, List.append_assoc]
    show Agenda.run [.expr .lowest, .stmts] (kindsOf marks ++ [.endOfText]) = some []
    exact hmarks.run (by decide)
  obtain ⟨σ, hσ⟩ := Agenda.exists_run_of_prefix (hbefore.trans (List.prefix_append _ _)) hrun
  obtain ⟨stop, hall⟩ := Lexicon.items_standard ("var x = " ++ v.text)
  rw [List.append_nil, ← String.toList_append] at hyields
  rw [hyields, List.append_assoc, List.append_assoc] at hall
  obtain ⟨s', hparse⟩ := parse_of_first_error hall hσ
  exact ⟨position, by rw [Program.read, hparse]⟩

/-- What printing a value writes is read as a declaration that gives `x` this value, which has the types
of the value and is printed in the same way again, unless the least integer is part of it: then its
digits are out of range. -/
theorem printed_value_reads_back {σ : Type} [Writer σ] (v : Value) (hv : v.Solid) (w : σ) :
    let source := Source.ofText ("var x = " ++ v.text)
    let after : Machine σ := ⟨⟨[("x", v)], []⟩, w⟩
    (¬ Value.least.Occurs v → ∃ program, Program.read source = .ok program ∧
      program.run (Machine.ofSink w) = .ok () after ∧
      program.execute (Machine.ofSink w) = Running.output Writer.flush after ∧
      (∀ position, (Stmt.print (.var ⟨"x", position⟩)).run after =
        Running.output (Writer.write (v.text ++ "\n")) after) ∧
      ∀ T, program.typing = .ok ⟨[("x", T)], []⟩ ↔ HasType v T) ∧
    (Value.least.Occurs v → ∃ position, Program.read source =
      .error (.error (.token (.outOfRange "9223372036854775808" position)))) := by
  intro source after
  refine ⟨fun hleast => ?_, fun hleast => hv.exists_read_error hleast⟩
  obtain ⟨e, he⟩ := Value.exists_literal hv hleast
  obtain ⟨position, hread⟩ := he.exists_read
  have hrun := he.run_declare position w
  refine ⟨_, hread, hrun, ?_, fun _ => rfl, he.typing_declare position⟩
  change EStateM.bind _ _ _ = _
  rw [EStateM.bind, hrun]

/-- A list of lists of integers, and one in which the least integer stands. -/
theorem printed_value_reads_back_lists :
    let v : Value := .list [.list [.int (-1), .int 9223372036854775807], .list [.int 0]]
    let v' : Value := .list [.list [.int 5, .int (-9223372036854775808)]]
    "var x = " ++ v.text = "var x = [[-1, 9223372036854775807], [0]]" ∧
      "var x = " ++ v'.text = "var x = [[5, -9223372036854775808]]" ∧
      (∃ program, Program.read (Source.ofText ("var x = " ++ v.text)) = .ok program ∧
        program.run (Machine.ofSink Sink.unlimited) = .ok () ⟨⟨[("x", v)], []⟩, Sink.unlimited⟩ ∧
        program.typing = .ok ⟨[("x", .list (.list .int))], []⟩) ∧
      ∃ position, Program.read (Source.ofText ("var x = " ++ v'.text)) =
        .error (.error (.token (.outOfRange "9223372036854775808" position))) := by
  intro v v'
  have hsolid : ∀ ints : List Int64, ints ≠ [] → (Value.list (ints.map .int)).Solid := by
    intro ints hne
    refine .list (by simpa using hne) fun item hitem => ?_
    obtain ⟨n, -, rfl⟩ := List.mem_map.mp hitem
    exact .int n
  have htype : ∀ ints : List Int64, HasType (.list (ints.map .int)) (.list .int) := by
    refine fun ints => .list fun item hitem => ?_
    obtain ⟨n, -, rfl⟩ := List.mem_map.mp hitem
    exact .int n
  have hfree : ∀ ints : List Int64, Int64.minValue ∉ ints →
      ¬ Value.least.Occurs (.list (ints.map .int)) := by
    rintro ints hnot (_ | ⟨hitem, hoccurs⟩)
    obtain ⟨n, hn, rfl⟩ := List.mem_map.mp hitem
    cases hoccurs
    exact hnot hn
  have hv : v.Solid := .list (by decide) (by simpa using ⟨hsolid [-1, _] nofun, hsolid [0] nofun⟩)
  have hv' : v'.Solid := .list (by decide) (by simpa using hsolid [5, _] nofun)
  have hleast : ¬ Value.least.Occurs v := by
    intro h
    change Value.least.Occurs (.list _) at h
    obtain _ | ⟨hitem, hoccurs⟩ := h
    rcases List.mem_pair.mp hitem with rfl | rfl
    · exact hfree [-1, _] (by decide) hoccurs
    · exact hfree [0] (by decide) hoccurs
  have hleast' : Value.least.Occurs v' :=
    .inside List.mem_cons_self (.inside (List.mem_cons_of_mem _ List.mem_cons_self) .whole)
  have hvtype : HasType v (.list (.list .int)) :=
    .list (by simpa using ⟨htype [-1, _], htype [0]⟩)
  obtain ⟨program, hread, hrun, -, -, htyping⟩ :=
    (printed_value_reads_back v hv Sink.unlimited).1 hleast
  exact ⟨by decide, by decide, ⟨program, hread, hrun, (htyping _).mpr hvtype⟩,
    (printed_value_reads_back v' hv' Sink.unlimited).2 hleast'⟩

end ListScript
