import ListScript.Grammar.Rules

/-!
# What may come next

The rules of the language as a machine that is fed the kinds of tokens one after the other and keeps
a list of what is still to come.

* `Symbol`, `Agenda` : what is still to come;
* `Agenda.feed`, `Agenda.run` : the agenda after a token, and after several, if they may come at all;
* `Agenda.Marked` : an agenda asks for no tokens but those that mark the parts of a statement or of
  an expression (`Agenda.Marked.feed`);
* `Agenda.completion` : kinds of tokens that bring an agenda to its end (`Agenda.run_completion`).
-/

namespace ListScript

/-- What may still be to come. -/
inductive Symbol where
  | token (kind : Kind)
  /-- An expression all of whose operators bind more tightly than a power. -/
  | expr (power : Power)
  /-- Operators that bind more tightly than a power, each with its right operand. -/
  | operators (power : Power)
  /-- Items of a list, each after a comma. -/
  | items
  | stmt
  /-- Statements of a block, each after a semicolon. -/
  | stmts
  /-- What follows a semicolon: a statement and those after it, or the end of the block. -/
  | nextStmt
  deriving DecidableEq, Repr

/-- What is still to come, in order. -/
abbrev Agenda := List Symbol

namespace Agenda

/-- What comes after the first token of an expression. -/
def afterOpening (p : Power) : Opening → Agenda
  | .atom => [.operators p]
  | .unary => [.expr .unary, .operators p]
  | .group => [.expr .lowest, .token .closeParen, .operators p]
  | .list => [.expr .lowest, .items, .token .closeBracket, .operators p]

/-- What comes after an operator. -/
def afterOperator (p tight : Power) : Continuation → Agenda
  | .binary => [.expr tight, .operators p]
  | .cons => [.expr .lowest, .operators p]

/-- What comes after the first token of a statement. -/
def afterForm : StmtForm → Agenda
  | .declare => [.token .identifier, .token .assign, .expr .lowest]
  | .assign => [.token .assign, .expr .lowest]
  | .print => [.expr .lowest]
  | .forEach => [.token .identifier, .token .colon, .expr .lowest, .token .openBrace, .stmt, .stmts,
      .token .closeBrace]

/-- What is still to come after a token of the given kind; `none` if no such token may come next.
Operators, items and statements may be passed over, and so the token may be what comes after them. -/
def feed : Agenda → Kind → Option Agenda
  | [], k => if k = .endOfText then some [] else none
  | .token kind :: σ, k => if k = kind then some σ else none
  | .expr p :: σ, k => (Rules.standard.opening k).map fun form => afterOpening p form ++ σ
  | .operators p :: σ, k =>
    match Rules.standard.continuation k with
    | some (tight, form) => if p < tight then some (afterOperator p tight form ++ σ) else feed σ k
    | none => feed σ k
  | .items :: σ, k => if k = .comma then some (.expr .lowest :: .items :: σ) else feed σ k
  | .stmt :: σ, k => (Rules.standard.form k).map fun form => afterForm form ++ σ
  | .stmts :: σ, k => if k = .semicolon then some (.nextStmt :: σ) else feed σ k
  | .nextStmt :: σ, k =>
    if k = .endOfText ∨ k = .closeBrace then feed σ k
    else (Rules.standard.form k).map fun form => afterForm form ++ .stmts :: σ

/-- What is still to come after tokens of the given kinds. -/
def run : Agenda → List Kind → Option Agenda
  | σ, [] => some σ
  | σ, k :: ks => (feed σ k).bind fun τ => run τ ks

/-- A program. -/
def program : Agenda := [.stmt, .stmts]

variable {σ τ : Agenda} {p tight : Power} {k : Kind} {ks : List Kind}

theorem run_append (σ : Agenda) (ks ks' : List Kind) :
    run σ (ks ++ ks') = (run σ ks).bind fun τ => run τ ks' := by
  induction ks generalizing σ with
  | nil => rfl
  | cons k ks ih =>
    simp only [List.cons_append, run]
    cases feed σ k with
    | none => rfl
    | some τ => exact ih τ

theorem run_of_feed (h : feed σ k = some τ) (ks : List Kind) : run σ (k :: ks) = run τ ks := by
  rw [run, h]
  rfl

theorem run_concat (σ : Agenda) (ks : List Kind) (k : Kind) :
    run σ (ks ++ [k]) = (run σ ks).bind fun τ => feed τ k := by
  rw [run_append]
  cases run σ ks with
  | none => rfl
  | some τ => exact Option.bind_fun_some _

/-- Agendas that take the next token alike go on alike. -/
theorem run_congr (h : feed σ k = feed τ k) (ks : List Kind) : run σ (k :: ks) = run τ (k :: ks) := by
  rw [run, run, h]

/-- What can be taken can be taken up to any place. -/
theorem exists_run_of_prefix {ks ks' : List Kind} (hle : ks <+: ks') (h : run σ ks' = some τ) :
    ∃ τ', run σ ks = some τ' := by
  obtain ⟨more, rfl⟩ := hle
  rw [run_append, Option.bind_eq_some_iff] at h
  obtain ⟨τ', hτ', -⟩ := h
  exact ⟨τ', hτ'⟩

/-! ## What each symbol takes -/

theorem feed_token (k : Kind) (σ : Agenda) : feed (.token k :: σ) k = some σ := by
  rw [feed, if_pos rfl]

theorem feed_expr {form : Opening} (h : Rules.standard.opening k = some form) :
    feed (.expr p :: σ) k = some (afterOpening p form ++ σ) := by
  rw [feed, h]
  rfl

theorem feed_stmt {form : StmtForm} (h : Rules.standard.form k = some form) :
    feed (.stmt :: σ) k = some (afterForm form ++ σ) := by
  rw [feed, h]
  rfl

theorem feed_numeral (p : Power) (σ : Agenda) :
    feed (.expr p :: σ) .numeral = some (.operators p :: σ) := rfl

theorem feed_printWord (σ : Agenda) :
    feed (.stmt :: σ) .printWord = some (.expr .lowest :: σ) := rfl

theorem feed_operators {form : Continuation}
    (h : Rules.standard.continuation k = some (tight, form)) (hlt : p < tight) :
    feed (.operators p :: σ) k = some (afterOperator p tight form ++ σ) := by
  simp only [feed, h, if_pos hlt]

/-- An operator that binds no more tightly does not go on with an expression. -/
theorem feed_operators_of_not_lt (h : ¬ p < Rules.standard.power k) :
    feed (.operators p :: σ) k = feed σ k := by
  unfold Rules.power at h
  rcases hcont : Rules.standard.continuation k with _ | ⟨tight, form⟩
  · simp only [feed, hcont]
  · rw [hcont] at h
    simp only [feed, hcont, if_neg h]

/-- No operator comes where a token follows that is none. -/
theorem feed_operators_of_lowest (h : Rules.standard.power k = .lowest) :
    feed (.operators p :: σ) k = feed σ k := by
  apply feed_operators_of_not_lt
  rw [h]
  exact Nat.not_lt_zero _

theorem feed_items_of_ne (h : k ≠ .comma) : feed (.items :: σ) k = feed σ k := by
  rw [feed, if_neg h]

theorem feed_stmts_of_ne (h : k ≠ .semicolon) : feed (.stmts :: σ) k = feed σ k := by
  rw [feed, if_neg h]

theorem feed_nextStmt_of_end (h : k = .endOfText ∨ k = .closeBrace) :
    feed (.nextStmt :: σ) k = feed σ k := by
  rw [feed, if_pos h]

theorem feed_nextStmt (h : ¬ (k = .endOfText ∨ k = .closeBrace)) :
    feed (.nextStmt :: σ) k = feed (.stmt :: .stmts :: σ) k := by
  simp only [feed, if_neg h]

end Agenda

/-! ## Every agenda can be completed -/

/-- No expression, list or block goes on with a token of the kind. -/
def Kind.IsMarker (k : Kind) : Prop :=
  Rules.standard.power k = .lowest ∧ k ≠ .comma ∧ k ≠ .semicolon

instance (k : Kind) : Decidable k.IsMarker := inferInstanceAs (Decidable (_ ∧ _ ∧ _))

/-- If the symbol is a token, it is a marker and does not end the text. -/
def Symbol.IsMarked : Symbol → Prop
  | .token k => k.IsMarker ∧ k ≠ .endOfText
  | _ => True

instance : (symbol : Symbol) → Decidable symbol.IsMarked
  | .token k => inferInstanceAs (Decidable (k.IsMarker ∧ k ≠ .endOfText))
  | .expr _ | .operators _ | .items | .stmt | .stmts | .nextStmt => .isTrue trivial

namespace Agenda

variable {σ τ : Agenda} {k : Kind}

/-- The tokens that an agenda asks for by their kinds are markers. -/
def Marked (σ : Agenda) : Prop := ∀ symbol ∈ σ, symbol.IsMarked

instance (σ : Agenda) : Decidable σ.Marked :=
  inferInstanceAs (Decidable (∀ symbol ∈ σ, symbol.IsMarked))

theorem Marked.append (hσ : Marked σ) (hτ : Marked τ) : Marked (σ ++ τ) := by
  intro symbol h
  exact (List.mem_append.mp h).elim (hσ symbol) (hτ symbol)

theorem Marked.head {symbol : Symbol} (h : Marked (symbol :: σ)) : symbol.IsMarked :=
  h symbol List.mem_cons_self

theorem Marked.tail {symbol : Symbol} (h : Marked (symbol :: σ)) : Marked σ :=
  fun symbol' h' => h symbol' (List.mem_cons_of_mem _ h')

theorem Marked.cons {symbol : Symbol} (hsymbol : symbol.IsMarked) (h : Marked σ) :
    Marked (symbol :: σ) :=
  List.forall_mem_cons.mpr ⟨hsymbol, h⟩

theorem marked_afterOpening (p : Power) (form : Opening) : Marked (afterOpening p form) := by
  cases form <;> cases p <;> decide

theorem marked_afterOperator (p tight : Power) (form : Continuation) :
    Marked (afterOperator p tight form) := by
  cases form <;> cases p <;> cases tight <;> decide

theorem marked_afterForm (form : StmtForm) : Marked (afterForm form) := by
  cases form <;> decide

/-- What is asked for after a token are markers. -/
theorem Marked.of_feed (h : Marked σ) (hfeed : feed σ k = some τ) : Marked τ := by
  fun_induction feed σ k with
  | case1 => cases hfeed; exact h
  | case2 => cases hfeed
  | case3 => cases hfeed; exact h.tail
  | case4 => cases hfeed
  | case5 p σ k =>
    obtain ⟨form, -, rfl⟩ := Option.map_eq_some_iff.mp hfeed
    exact (marked_afterOpening p form).append h.tail
  | case6 p σ k tight form =>
    cases hfeed
    exact (marked_afterOperator p tight form).append h.tail
  | case7 p σ k tight form _ _ ih => exact ih h.tail hfeed
  | case8 p σ k _ ih => exact ih h.tail hfeed
  | case9 => cases hfeed; exact .cons trivial h
  | case10 _ _ _ ih => exact ih h.tail hfeed
  | case11 σ k =>
    obtain ⟨form, -, rfl⟩ := Option.map_eq_some_iff.mp hfeed
    exact (marked_afterForm form).append h.tail
  | case12 => cases hfeed; exact .cons trivial h.tail
  | case13 _ _ _ ih => exact ih h.tail hfeed
  | case14 _ _ _ ih => exact ih h.tail hfeed
  | case15 σ k =>
    obtain ⟨form, -, rfl⟩ := Option.map_eq_some_iff.mp hfeed
    exact (marked_afterForm form).append (.cons trivial h.tail)

theorem Marked.of_run (h : Marked σ) {ks : List Kind} (hrun : run σ ks = some τ) : Marked τ := by
  induction ks generalizing σ with
  | nil => cases hrun; exact h
  | cons k ks ih =>
    obtain ⟨σ', hfeed, hrest⟩ := Option.bind_eq_some_iff.mp hrun
    exact ih (h.of_feed hfeed) hrest

/-- Tokens that bring an agenda to its end: an expression is a numeral, a statement prints one, and
what can be passed over is. -/
def completion : Agenda → List Kind
  | [] => []
  | .token k :: σ => k :: completion σ
  | .expr _ :: σ => .numeral :: completion σ
  | .stmt :: σ | .nextStmt :: σ => .printWord :: .numeral :: completion σ
  | .operators _ :: σ | .items :: σ | .stmts :: σ => completion σ

theorem endOfText_not_mem_completion (h : Marked σ) : .endOfText ∉ completion σ := by
  fun_induction completion σ with
  | case1 => exact List.not_mem_nil
  | case2 k σ ih => exact List.not_mem_cons_of_ne_of_not_mem (Ne.symm h.head.2) (ih h.tail)
  | case3 p σ ih => exact List.not_mem_cons_of_ne_of_not_mem nofun (ih h.tail)
  | case4 σ ih | case5 σ ih =>
    exact List.not_mem_cons_of_ne_of_not_mem nofun
      (List.not_mem_cons_of_ne_of_not_mem nofun (ih h.tail))
  | case6 p σ ih | case7 σ ih | case8 σ ih => exact ih h.tail

/-- The completion of an agenda and the end of the text begin with a marker. -/
theorem exists_completion_eq_cons (h : Marked σ) :
    ∃ k ks, completion σ ++ [.endOfText] = k :: ks ∧ k.IsMarker := by
  fun_induction completion σ with
  | case1 => exact ⟨_, _, rfl, by decide⟩
  | case2 k σ ih => exact ⟨_, _, rfl, h.head.1⟩
  | case3 p σ ih => exact ⟨_, _, rfl, by decide⟩
  | case4 σ ih | case5 σ ih => exact ⟨_, _, rfl, by decide⟩
  | case6 p σ ih | case7 σ ih | case8 σ ih => exact ih h.tail

/-- What can be passed over is passed over before the completion of what comes after it. -/
theorem run_skip {symbol : Symbol} (h : Marked σ)
    (hskip : ∀ k : Kind, k.IsMarker → feed (symbol :: σ) k = feed σ k) :
    run (symbol :: σ) (completion σ ++ [.endOfText]) = run σ (completion σ ++ [.endOfText]) := by
  obtain ⟨k, ks, heq, hk⟩ := exists_completion_eq_cons h
  rw [heq]
  exact run_congr (hskip k hk) ks

theorem run_operators (h : Marked σ) (p : Power) :
    run (.operators p :: σ) (completion σ ++ [.endOfText]) =
      run σ (completion σ ++ [.endOfText]) :=
  run_skip h fun _ hk => feed_operators_of_lowest hk.1

theorem run_stmts (h : Marked σ) :
    run (.stmts :: σ) (completion σ ++ [.endOfText]) = run σ (completion σ ++ [.endOfText]) :=
  run_skip h fun _ hk => feed_stmts_of_ne hk.2.2

/-- The completion of an agenda brings it to its end. -/
theorem run_completion (h : Marked σ) : run σ (completion σ ++ [.endOfText]) = some [] := by
  fun_induction completion σ with
  | case1 => rfl
  | case2 k σ ih =>
    rw [List.cons_append, run_of_feed (feed_token k σ)]
    exact ih h.tail
  | case3 p σ ih =>
    rw [List.cons_append, run_of_feed (feed_numeral p σ)]
    exact (run_operators h.tail p).trans (ih h.tail)
  | case4 σ ih =>
    rw [List.cons_append, List.cons_append, run_of_feed (feed_printWord σ),
      run_of_feed (feed_numeral .lowest σ)]
    exact (run_operators h.tail .lowest).trans (ih h.tail)
  | case5 σ ih =>
    have hstmts : Marked (.stmts :: σ) := .cons trivial h.tail
    rw [List.cons_append, List.cons_append, run_congr (feed_nextStmt (by decide)),
      run_of_feed (feed_printWord _), run_of_feed (feed_numeral .lowest _)]
    exact (run_operators hstmts .lowest).trans ((run_stmts h.tail).trans (ih h.tail))
  | case6 p σ ih => exact (run_operators h.tail p).trans (ih h.tail)
  | case7 σ ih => exact (run_skip h.tail fun _ hk => feed_items_of_ne hk.2.1).trans (ih h.tail)
  | case8 σ ih => exact (run_stmts h.tail).trans (ih h.tail)

/-- What a program may begin with can be completed to one, before the end of the text. -/
theorem exists_completion {ks : List Kind} (h : run program ks = some σ) :
    ∃ more, .endOfText ∉ more ∧ run program (ks ++ more ++ [.endOfText]) = some [] := by
  have hσ : Marked σ := Marked.of_run (by decide) h
  refine ⟨completion σ, endOfText_not_mem_completion hσ, ?_⟩
  rw [List.append_assoc, run_append, h]
  exact run_completion hσ

end Agenda

end ListScript
