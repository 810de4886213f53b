import ListScript.Proofs.FurtherDown
import ListScript.Proofs.RoundTrip
import ListScript.Proofs.UnmentionedNames
import ListScript.Proofs.ViablePrefix

/-!
# One program after another

Two programs can be run one after the other, or put together with a semicolon on a line of its own
between them and run as one.

* `Block.append` : the statements of one program and then those of another, which run and are
  checked one after the other (`Block.run_append`, `Block.check_append`);
* `SeqPhrase.exists_append` : two derivations with a semicolon between them;
* `Program.exists_derivation_of_read`, `Program.read_append` : the text of both programs holds both;
* `Machine.Same` : two machines with the same variables that have written the same bytes;
* `Block.endAlike_execute_append`, `Block.endAlike_check_append` : both ways to run and to check two
  programs;
* `incremental_eq_batch` : both ways to go through two texts.
-/

namespace ListScript

/-! ## Both programs as one -/

namespace Block

/-- The statements of a program and then those of another. -/
def append : Block → Block → Block
  | .one stmt, later => .more stmt later
  | .more stmt rest, later => .more stmt (rest.append later)

theorem toList_append (later : Block) : ∀ block : Block,
    (block.append later).toList = block.toList ++ later.toList
  | .one stmt => rfl
  | .more stmt rest => by
    rw [append, toList, toList, toList_append later rest, List.cons_append]

theorem run_append {σ : Type} [Writer σ] (later : Block) : ∀ block : Block,
    ((block.append later).run : Running σ Unit) = block.run >>= fun _ => later.run
  | .one stmt => by rw [append, run, run]
  | .more stmt rest => by rw [append, run, run, run_append later rest, bind_assoc]

theorem check_append (later : Block) : ∀ block : Block,
    (block.append later).check = block.check >>= fun _ => later.check
  | .one stmt => by rw [append, check, check]
  | .more stmt rest => by rw [append, check, check, check_append later rest, bind_assoc]

end Block

/-- A derivation that does not end with a semicolon can go on after one. -/
theorem SeqPhrase.exists_append (semicolon : Terminal .semicolon) (later : SeqPhrase) :
    ∀ d : SeqPhrase, (∀ before t, d.tokens = before ++ [t] → t.kind ≠ .semicolon) →
      ∃ both : SeqPhrase, both.tokens = d.tokens ++ semicolon.1 :: later.tokens ∧
        both.tree = d.tree.append later.tree
  | .one stmt, _ => ⟨.more stmt semicolon later, rfl, rfl⟩
  | .trailing stmt last, hopen => absurd last.2 (hopen _ _ rfl)
  | .more stmt first rest, hopen => by
    have hrest : ∀ before t, rest.tokens = before ++ [t] → t.kind ≠ .semicolon := by
      intro before t ht
      apply hopen (stmt.tokens ++ first.1 :: before)
      rw [SeqPhrase.tokens, ht, List.append_assoc, List.cons_append]
    obtain ⟨both, htokens, htree⟩ := SeqPhrase.exists_append semicolon later rest hrest
    refine ⟨.more stmt first both, ?_, ?_⟩
    · rw [SeqPhrase.tokens, SeqPhrase.tokens, htokens, List.append_assoc, List.cons_append]
    · rw [SeqPhrase.tree, SeqPhrase.tree, htree, Block.append]

/-! ## Both texts as one -/

namespace Program

/-- A program that is read is the tree of a derivation of all the tokens of its source. -/
theorem exists_derivation_of_read {source : Source} {program : Block}
    (h : read source = .ok program) : ∃ d : ProgramPhrase,
      (TokenStream.ofSource Lexicon.standard source).items = d.tokens.map .ok ∧
      d.tree = program := by
  unfold read at h
  split at h
  · next s' hparse =>
    cases h
    exact exists_derivation_of_parse hparse
  · cases h

/-- The last token of a text is no semicolon. -/
def EndsOpen (text : String) : Prop :=
  ∀ before last stop, tokenize text = .ok (before ++ [last, stop]) → last.kind ≠ .semicolon

/-- A semicolon on a line of its own. -/
def separator : String := "\n;\n"

/-- What comes of the pieces of a text that holds a program. -/
theorem items_of_derivation {text : String} {d : ProgramPhrase}
    (h : (TokenStream.ofSource Lexicon.standard (Source.ofText text)).items = d.tokens.map .ok) :
    (Lexicon.standard.pattern.pieces text.toList).filterMap Lexicon.standard.item? =
      d.body.tokens.map .ok := by
  rw [TokenStream.items_ofText Lexicon.Proper.standard, Lexicon.itemsOf,
    ProgramPhrase.tokens, List.map_append] at h
  exact (List.append_inj' h rfl).1

/-- The semicolon of a separator, on the first line of its text. -/
def semicolon : Terminal .semicolon := ⟨⟨.semicolon, ";", ⟨⟨1, 1⟩, ⟨1, 2⟩⟩, none⟩, rfl⟩

theorem items_semicolon :
    (Lexicon.standard.pattern.pieces [';']).filterMap Lexicon.standard.item? = [.ok semicolon.1] := by
  cbv

theorem map_itemDown (n : Nat) (tokens : List Token) :
    (tokens.map Except.ok).map (TokenStream.itemDown n) =
      (tokens.map (Token.down n)).map Except.ok := by
  rw [List.map_map, List.map_map]
  rfl

theorem map_down_down (m n : Nat) (tokens : List Token) :
    (tokens.map (Token.down m)).map (Token.down n) = tokens.map (Token.down (m + n)) := by
  rw [List.map_map]
  apply List.map_congr_left
  intro t _
  simp only [Function.comp_apply, Token.down, Span.down, Position.down, Nat.add_assoc]

/-- The tokens of two texts with a separator between them are those of the first, a semicolon, and
those of the second further down. -/
theorem items_append {a b : String} {d e : ProgramPhrase}
    (ha : (TokenStream.ofSource Lexicon.standard (Source.ofText a)).items = d.tokens.map .ok)
    (hb : (TokenStream.ofSource Lexicon.standard (Source.ofText b)).items = e.tokens.map .ok) :
    ∃ stop, (TokenStream.ofSource Lexicon.standard (Source.ofText (a ++ separator ++ b))).items =
      (d.body.tokens ++ (semicolon.down (1 + a.toList.count '\n')).1 ::
        (e.body.down (2 + a.toList.count '\n')).tokens ++ [Token.endOfText stop]).map .ok := by
  have hline : [';'].count '\n' = 0 := rfl
  have htext : (a ++ separator ++ b).toList = a.toList ++ '\n' :: ([';'] ++ '\n' :: b.toList) := by
    simp [separator]
  -- the second text stands one line below the semicolon, and both stand below the first text
  have hlater : (Lexicon.standard.pattern.pieces ([';'] ++ '\n' :: b.toList)).filterMap
      Lexicon.standard.item? = (semicolon.1 :: e.body.tokens.map (Token.down 1)).map .ok := by
    rw [Lexicon.items_pieces_append .standard Lexicon.onLine_standard, items_semicolon,
      items_of_derivation hb, hline, map_itemDown]
    rfl
  have hlines : 1 + (1 + a.toList.count '\n') = 2 + a.toList.count '\n' := by omega
  have hall : (Lexicon.standard.pattern.pieces (a ++ separator ++ b).toList).filterMap
      Lexicon.standard.item? = (d.body.tokens ++ (semicolon.down (1 + a.toList.count '\n')).1 ::
        (e.body.down (2 + a.toList.count '\n')).tokens).map .ok := by
    rw [htext, Lexicon.items_pieces_append .standard Lexicon.onLine_standard, items_of_derivation ha,
      hlater, map_itemDown, List.map_cons, map_down_down, hlines, SeqPhrase.tokens_down,
      List.map_append]
    rfl
  have hitems := TokenStream.items_ofText .standard (a ++ separator ++ b)
  rw [Lexicon.itemsOf, hall, ← List.map_singleton, ← List.map_append] at hitems
  exact ⟨_, hitems⟩

/-- Two texts that hold programs, the first of which does not end with a semicolon, hold both
programs with a separator between them. -/
theorem read_append {a b : String} {pa pb : Block} (ha : read (Source.ofText a) = .ok pa)
    (hb : read (Source.ofText b) = .ok pb) (hopen : EndsOpen a) :
    read (Source.ofText (a ++ separator ++ b)) =
      .ok (pa.append (pb.down (2 + a.toList.count '\n'))) := by
  obtain ⟨d, hd, rfl⟩ := exists_derivation_of_read ha
  obtain ⟨e, he, rfl⟩ := exists_derivation_of_read hb
  have hlast : ∀ before t, d.body.tokens = before ++ [t] → t.kind ≠ .semicolon := by
    intro before t ht
    apply hopen before t d.stop.1
    rw [tokenize_of_items hd, ProgramPhrase.tokens, ht, List.append_assoc]
    rfl
  obtain ⟨stop, hitems⟩ := items_append hd he
  obtain ⟨both, htokens, htree⟩ := SeqPhrase.exists_append
    (semicolon.down (1 + a.toList.count '\n')) (e.body.down (2 + a.toList.count '\n')) d.body hlast
  rw [← htokens] at hitems
  obtain ⟨s, hs⟩ := parse_of_derivation hitems ⟨both, ⟨Token.endOfText stop, rfl⟩⟩ rfl
  rw [read, hs]
  show Except.ok both.tree = _
  rw [htree, SeqPhrase.tree_down]
  rfl

end Program

/-! ## Both runs as one -/

section Runs

theorem Running.output_eq_ok {σ : Type} {m m₁ : Machine σ} {step : EStateM String σ Unit}
    (h : output step m = .ok () m₁) : ∃ sink, step m.sink = .ok () sink ∧ m₁ = { m with sink } := by
  unfold output at h
  split at h
  · next sink hsink =>
    cases h
    exact ⟨sink, hsink, rfl⟩
  · cases h

variable {σ : Type} [Writer σ] {a b : Block} {m m₀ m₁ : Machine σ}

/-- The two machines have the same variables, and the same bytes have been written since `w`, be it
in other pieces or with other flushes. -/
structure Machine.Same (w : σ) (u u' : Machine σ) : Prop where
  scopes : Scopes.Agree Set.univ Eq u.scopes u'.scopes
  written : ∃ script script', Writer.bytes script = Writer.bytes script' ∧
    Writer.play script w = .ok () u.sink ∧ Writer.play script' w = .ok () u'.sink

/-- What a run writes are pieces, one after the other. -/
theorem Block.exists_script_of_run (hw : Writer.Accepts m.sink) (h : a.run m = .ok () m₀) :
    ∃ script, Writer.play script m.sink = .ok () m₀.sink := by
  have hnames : ∀ name ∈ a.names, name ∈ Set.univ := fun name _ => Set.mem_univ name
  have halike : Machine.Alike Set.univ m.sink m.sink m m := .refl (.refl _) hw hw
  obtain ⟨m', hm', hafter⟩ := (Block.endAlike_run hnames halike).of_ok h
  obtain ⟨script, hscript, -⟩ := hafter.written
  exact ⟨script, hscript⟩

theorem Block.execute_append (h : a.run m = .ok () m₀) :
    (a.append b).execute m = b.execute m₀ := by
  rw [execute, execute, run_append, bind_assoc]
  show EStateM.bind a.run _ m = _
  rw [EStateM.bind, h]

/-- A program that is run after another has succeeded ends as it does when both are run as one. Only
the flush between them is missing then, and its errors are further down. -/
theorem Block.endAlike_execute_append (n : Nat) (hw : Writer.Accepts m.sink)
    (h : a.execute m = .ok () m₁) : EndAlike (EvalError.IsDown n) (Machine.Same m.sink)
      (b.execute m₁) ((a.append (b.down n)).execute m) := by
  obtain ⟨_, m₀, hrun, hflush⟩ := step_bind_eq_ok.mp h
  obtain ⟨sink, hsink, rfl⟩ := Running.output_eq_ok hflush
  obtain ⟨script, hscript⟩ := Block.exists_script_of_run hw hrun
  have hscript' : Writer.play (script ++ [none]) m.sink = .ok () sink :=
    Writer.play_concat hscript hsink
  -- the same program from before the flush and from after it
  have halike : Machine.Alike Set.univ sink m₀.sink { m₀ with sink } m₀ :=
    ⟨.refl _, hw.play hscript', hw.play hscript, [], rfl, rfl⟩
  have hnames : ∀ name ∈ b.names, name ∈ Set.univ := fun name _ => Set.mem_univ name
  have hsame := Block.endAlike_execute hnames halike
  rw [Block.execute_append hrun]
  apply (hsame.trans_eq (Block.endAlike_execute_down n b m₀)).mono
  intro u u' hu
  obtain ⟨more, hmore, hmore'⟩ := hu.written
  refine ⟨hu.scopes, script ++ [none] ++ more, script ++ more, ?_, ?_, ?_⟩
  · simp [Writer.bytes]
  · rw [Writer.play_append]
    exact step_bind_eq_ok.mpr ⟨_, sink, hscript', hmore⟩
  · rw [Writer.play_append]
    exact step_bind_eq_ok.mpr ⟨_, m₀.sink, hscript, hmore'⟩

end Runs

/-- A program that is checked after another has been accepted is checked as it is when both are
checked as one. -/
theorem Block.endAlike_check_append {a b : Block} (n : Nat) {types types₁ : Scopes Ty}
    (h : a.check types = .ok () types₁) :
    EndAlike (TypeError.IsDown n) Eq (b.check types₁) ((a.append (b.down n)).check types) := by
  rw [Block.check_append]
  show EndAlike _ _ _ (EStateM.bind a.check _ types)
  rw [EStateM.bind, h]
  exact Block.endAlike_check_down n b types₁

/-! ## Two texts -/

/-- Going through two texts one after the other is going through both as one. The text of both, with
a semicolon on a line of its own between them, holds the statements of the first and then those of
the second, as many lines further down as stand before them. From any machine whose writer takes
everything, the second program ends after the first has succeeded as both do when they are run as
one: with the same answer or the same error further down, the same variables, and the same bytes
written. So it is with the types of any checker. -/
theorem incremental_eq_batch {a b : String} {pa pb : Block}
    (ha : Program.read (Source.ofText a) = .ok pa) (hb : Program.read (Source.ofText b) = .ok pb)
    (hopen : Program.EndsOpen a) :
    let n := 2 + a.toList.count '\n'
    ∃ both, Program.read (Source.ofText (a ++ Program.separator ++ b)) = .ok both ∧
      both.toList = pa.toList ++ pb.toList.map (Stmt.down n) ∧
      (∀ (σ : Type) [Writer σ] (m m₁ : Machine σ), Writer.Accepts m.sink →
        pa.execute m = .ok () m₁ →
        EndAlike (EvalError.IsDown n) (Machine.Same m.sink) (pb.execute m₁) (both.execute m)) ∧
      ∀ types types₁, pa.check types = .ok () types₁ →
        EndAlike (TypeError.IsDown n) Eq (pb.check types₁) (both.check types) := by
  intro n
  refine ⟨pa.append (pb.down n), Program.read_append ha hb hopen, ?_, ?_, ?_⟩
  · rw [Block.toList_append, Block.toList_down]
  · intro σ _ m m₁ hw h
    exact Block.endAlike_execute_append n hw h
  · intro types types₁ h
    exact Block.endAlike_check_append n h

/-- For example a text that ends with a comment, and one with a loop in which the name of the first is
declared again afterwards. In the text of both this error is four lines down. -/
theorem incremental_eq_batch_redeclared :
    let a := "var x = 1 // one"
    let b := "for y : [x, 2] \x7b print y \x7d;\nvar x = 3;"
    let pa : Block := .one (.declare ⟨"x", ⟨1, 5⟩⟩ (.int 1))
    let pb : Block := .more
      (.forEach ⟨"y", ⟨1, 5⟩⟩ (.list (.more (.var ⟨"x", ⟨1, 10⟩⟩) (.one (.int 2))))
        (.one (.print (.var ⟨"y", ⟨1, 24⟩⟩))))
      (.one (.declare ⟨"x", ⟨2, 5⟩⟩ (.int 3)))
    let m : Machine Sink := ⟨⟨[("z", .bool true)], []⟩, Sink.unlimited⟩
    let m₁ : Machine Sink := ⟨⟨[("x", .int 1), ("z", .bool true)], []⟩, Sink.unlimited⟩
    let types : Scopes Ty := ⟨[("z", .bool)], []⟩
    let types₁ : Scopes Ty := ⟨[("x", .int), ("z", .bool)], []⟩
    Program.read (Source.ofText a) = .ok pa ∧ Program.read (Source.ofText b) = .ok pb ∧
      Program.EndsOpen a ∧ Writer.Accepts m.sink ∧ pa.execute m = .ok () m₁ ∧
      pa.check types = .ok () types₁ ∧
      ∃ both, Program.read (Source.ofText (a ++ Program.separator ++ b)) = .ok both ∧
        (∃ u, both.execute m = .error (.alreadyDeclared "x" ⟨4, 5⟩) u) ∧
        ∃ u, both.check types = .error (.alreadyDeclared "x" ⟨4, 5⟩) u := by
  intro a b pa pb m m₁ types types₁
  have ha : Program.read (Source.ofText a) = .ok pa := by cbv
  have hb : Program.read (Source.ofText b) = .ok pb := by cbv
  have hopen : Program.EndsOpen a := by
    have htokens : tokenize a = .ok ([⟨.varWord, "var", ⟨⟨1, 1⟩, ⟨1, 4⟩⟩, none⟩,
        ⟨.identifier, "x", ⟨⟨1, 5⟩, ⟨1, 6⟩⟩, none⟩, ⟨.assign, "=", ⟨⟨1, 7⟩, ⟨1, 8⟩⟩, none⟩] ++
        [⟨.numeral, "1", ⟨⟨1, 9⟩, ⟨1, 10⟩⟩, some (.int 1)⟩, Token.endOfText ⟨1, 17⟩]) := by cbv
    intro before last stop h
    cases (List.append_inj' (Except.ok.inj (htokens.symm.trans h)) rfl).2
    decide
  have hlines : a.toList.count '\n' = 0 := by cbv
  have hw : Writer.Accepts m.sink := Sink.accepts rfl rfl
  have hrun : pa.execute m = .ok () m₁ := rfl
  have hcheck : pa.check types = .ok () types₁ := rfl
  obtain ⟨both, hboth, -, hruns, hchecks⟩ := incremental_eq_batch ha hb hopen
  refine ⟨ha, hb, hopen, hw, hrun, hcheck, both, hboth, ?_, ?_⟩
  · obtain ⟨_, u, herr, rfl, -⟩ := (hruns Sink m m₁ hw hrun).of_error rfl
    rw [hlines] at herr
    exact ⟨u, herr⟩
  · obtain ⟨_, u, herr, rfl, -⟩ := (hchecks types types₁ hcheck).of_error rfl
    rw [hlines] at herr
    exact ⟨u, herr⟩

end ListScript
