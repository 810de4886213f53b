import ListScript.Proofs.Ends
import ListScript.Grammar.Parser

/-!
# What a bound does to a parser

A parser is bounded in how deeply it goes. A larger bound only lets it go on where it was cut off, and
changes nothing else, whatever the rules of the grammar are.

* `Endless r` : the result `r` is that of a parser that was cut off (`Endless.bind`,
  `Endless.bind_right`);
* `Approximates x y` : the parser `y` ends as `x` does wherever `x` is not cut off
  (`Approximates.bind`);
* `Growing f` : so it is with a larger bound; `Growing.eq_of_not_endless`, any two bounds that are
  large enough are as good;
* `Grammar.growing_expr`, `Grammar.growing_block` and so on : so it is with the parsers of a grammar.
-/

namespace ListScript

variable {α β : Type}

/-- The parser was cut off by its bound. -/
def Endless (r : EStateM.Result (Stop SyntaxError) TokenStream α) : Prop :=
  ∃ s, r = .error (.defect .endless) s

namespace Endless

variable {x : Parser α} {f : α → Parser β} {s t : TokenStream} {a : α}

/-- What goes on after a parser is cut off with it. -/
theorem bind (h : Endless (x s)) : Endless ((x >>= f) s) := by
  obtain ⟨t, ht⟩ := h
  exact ⟨t, step_bind_eq_error.mpr (.inl ht)⟩

theorem bind_right (hx : x s = .ok a t) (h : Endless (f a t)) : Endless ((x >>= f) s) := by
  obtain ⟨u, hu⟩ := h
  exact ⟨u, step_bind_eq_error.mpr (.inr ⟨a, t, hx, hu⟩)⟩

end Endless

/-- The second parser ends as the first does wherever that one is not cut off. -/
def Approximates (x y : Parser α) : Prop := ∀ s, Endless (x s) ∨ y s = x s

namespace Approximates

variable {x y : Parser α} {f g : α → Parser β}

theorem refl (x : Parser α) : Approximates x x := fun _ => .inr rfl

/-- A parser that is cut off at once. -/
theorem of_endless (y : Parser α) : Approximates (throw (.defect .endless)) y :=
  fun s => .inl ⟨s, rfl⟩

theorem bind (hx : Approximates x y) (hf : ∀ a, Approximates (f a) (g a)) :
    Approximates (x >>= f) (y >>= g) := by
  intro s
  obtain hend | heq := hx s
  · exact .inl hend.bind
  · cases hr : x s with
    | error stop t =>
      right
      rw [step_bind_eq_error.mpr (.inl hr), step_bind_eq_error.mpr (.inl (heq.trans hr))]
    | ok a t =>
      obtain hend | heq' := hf a t
      · exact .inl (.bind_right hr hend)
      · right
        show EStateM.bind y g s = EStateM.bind x f s
        rw [EStateM.bind, EStateM.bind, heq, hr]
        exact heq'

/-- A step that both take first. -/
theorem step {x : Parser α} (hf : ∀ a, Approximates (f a) (g a)) :
    Approximates (x >>= f) (x >>= g) :=
  (refl x).bind hf

end Approximates

/-- A parser with a larger bound ends as it does with a smaller one, unless that one cuts it off. -/
def Growing (f : Nat → Parser α) : Prop := ∀ m n, m ≤ n → Approximates (f m) (f n)

namespace Growing

variable {f : Nat → Parser α} {s : TokenStream}

/-- With any two bounds that do not cut it off a parser ends in the same way. -/
theorem eq_of_not_endless (h : Growing f) {m n : Nat} (hm : ¬ Endless (f m s))
    (hn : ¬ Endless (f n s)) : f m s = f n s := by
  obtain hle | hle := Nat.le_total m n
  · exact ((h m n hle s).resolve_left hm).symm
  · exact (h n m hle s).resolve_left hn

end Growing

/-! ## The parsers of a grammar -/

namespace Grammar
open ListScript.Parser

variable (rules : Rules)

/-- The parsers of expressions with the bounds `m` and `n`. -/
structure ExprApproximates (m n : Nat) : Prop where
  expr (p : Power) : Approximates (expr rules m p) (expr rules n p)
  proceed (p : Power) (e : Expr) : Approximates (proceed rules m p e) (proceed rules n p e)
  opening (form : Opening) : Approximates (opening rules m form) (opening rules n form)
  continuation (form : Continuation) (e : Expr) (p : Power) :
    Approximates (continuation rules m form e p) (continuation rules n form e p)
  exprs : Approximates (exprs rules m) (exprs rules n)

variable {rules} {m n : Nat}

theorem ExprApproximates.expr_succ (h : ExprApproximates rules m n) (p : Power) :
    Approximates (Grammar.expr rules (m + 1) p) (Grammar.expr rules (n + 1) p) := by
  rw [Grammar.expr, Grammar.expr]
  refine .step fun k => ?_
  cases rules.opening k with
  | none => exact .refl _
  | some form => exact (h.opening form).bind fun e => h.proceed p e

theorem ExprApproximates.proceed_succ (h : ExprApproximates rules m n) (p : Power) (e : Expr) :
    Approximates (Grammar.proceed rules (m + 1) p e) (Grammar.proceed rules (n + 1) p e) := by
  rw [Grammar.proceed, Grammar.proceed]
  refine .step fun k => ?_
  rcases rules.continuation k with _ | ⟨tight, form⟩
  · exact .refl _
  · by_cases hlt : p < tight
    · simp only [if_pos hlt]
      exact (h.continuation form e tight).bind fun e => h.proceed p e
    · simp only [if_neg hlt]
      exact .refl _

theorem ExprApproximates.opening_succ (h : ExprApproximates rules m n) (form : Opening) :
    Approximates (Grammar.opening rules (m + 1) form) (Grammar.opening rules (n + 1) form) := by
  cases form with
  | atom => exact .refl _
  | unary => exact .step fun operator => (h.expr _).bind fun operand => .refl _
  | group => exact .step fun _ => (h.expr _).bind fun inner => .refl _
  | list => exact .step fun _ => h.exprs.bind fun items => .refl _

theorem ExprApproximates.continuation_succ (h : ExprApproximates rules m n) (form : Continuation)
    (e : Expr) (p : Power) : Approximates (Grammar.continuation rules (m + 1) form e p)
      (Grammar.continuation rules (n + 1) form e p) := by
  cases form with
  | binary => exact .step fun operator => (h.expr _).bind fun right => .refl _
  | cons => exact .step fun _ => (h.expr _).bind fun right => .refl _

theorem ExprApproximates.exprs_succ (h : ExprApproximates rules m n) :
    Approximates (Grammar.exprs rules (m + 1)) (Grammar.exprs rules (n + 1)) := by
  rw [Grammar.exprs, Grammar.exprs]
  refine (h.expr _).bind fun item => .step fun more => ?_
  cases more with
  | true => exact .step fun _ => h.exprs.bind fun rest => .refl _
  | false => exact .refl _

/-- A larger bound lets a parser of expressions go on where a smaller one cuts it off. -/
theorem exprApproximates (hle : m ≤ n) : ExprApproximates rules m n := by
  induction m generalizing n with
  | zero =>
    exact ⟨fun _ => .of_endless _, fun _ _ => .of_endless _, fun _ => .of_endless _,
      fun _ _ _ => .of_endless _, .of_endless _⟩
  | succ m ih =>
    obtain ⟨n, rfl⟩ : ∃ n', n = n' + 1 := ⟨n - 1, by omega⟩
    have h := ih (Nat.le_of_succ_le_succ hle)
    exact ⟨h.expr_succ, h.proceed_succ, h.opening_succ, h.continuation_succ, h.exprs_succ⟩

/-- The parsers of statements with the bounds `m` and `n`. -/
structure StmtApproximates (rules : Rules) (m n : Nat) : Prop where
  stmt : Approximates (stmt rules m) (stmt rules n)
  stmtOf (form : StmtForm) : Approximates (stmtOf rules m form) (stmtOf rules n form)
  block : Approximates (block rules m) (block rules n)

theorem StmtApproximates.stmt_succ (h : StmtApproximates rules m n) :
    Approximates (Grammar.stmt rules (m + 1)) (Grammar.stmt rules (n + 1)) := by
  rw [Grammar.stmt, Grammar.stmt]
  refine .step fun k => ?_
  cases rules.form k with
  | none => exact .refl _
  | some form => exact h.stmtOf form

theorem StmtApproximates.stmtOf_succ (h : StmtApproximates rules m n)
    (hexpr : ExprApproximates rules m n) (form : StmtForm) :
    Approximates (Grammar.stmtOf rules (m + 1) form) (Grammar.stmtOf rules (n + 1) form) := by
  cases form with
  | declare =>
    exact .step fun _ => .step fun ident => .step fun _ => (hexpr.expr _).bind fun e => .refl _
  | assign => exact .step fun ident => .step fun _ => (hexpr.expr _).bind fun e => .refl _
  | print => exact .step fun _ => (hexpr.expr _).bind fun e => .refl _
  | forEach =>
    exact .step fun _ => .step fun ident => .step fun _ => (hexpr.expr _).bind fun items =>
      .step fun _ => h.block.bind fun body => .refl _

theorem StmtApproximates.block_succ (h : StmtApproximates rules m n) :
    Approximates (Grammar.block rules (m + 1)) (Grammar.block rules (n + 1)) := by
  rw [Grammar.block, Grammar.block]
  refine h.stmt.bind fun first => .step fun more => ?_
  cases more with
  | true =>
    refine .step fun _ => .step fun atEnd => .step fun atBrace => ?_
    by_cases hlast : (atEnd || atBrace) = true
    · rw [if_pos hlast, if_pos hlast]
      exact .refl _
    · rw [if_neg hlast, if_neg hlast]
      exact h.block.bind fun rest => .refl _
  | false => exact .refl _

/-- A larger bound lets a parser of statements go on where a smaller one cuts it off. -/
theorem stmtApproximates (hle : m ≤ n) : StmtApproximates rules m n := by
  induction m generalizing n with
  | zero => exact ⟨.of_endless _, fun _ => .of_endless _, .of_endless _⟩
  | succ m ih =>
    obtain ⟨n, rfl⟩ : ∃ n', n = n' + 1 := ⟨n - 1, by omega⟩
    have h := ih (Nat.le_of_succ_le_succ hle)
    exact ⟨h.stmt_succ, h.stmtOf_succ (exprApproximates (Nat.le_of_succ_le_succ hle)), h.block_succ⟩

variable (rules)

theorem growing_expr (p : Power) : Growing fun n => expr rules n p :=
  fun _ _ hle => (exprApproximates hle).expr p

theorem growing_opening (form : Opening) : Growing fun n => opening rules n form :=
  fun _ _ hle => (exprApproximates hle).opening form

theorem growing_continuation (form : Continuation) (e : Expr) (p : Power) :
    Growing fun n => continuation rules n form e p :=
  fun _ _ hle => (exprApproximates hle).continuation form e p

theorem growing_exprs : Growing fun n => exprs rules n :=
  fun _ _ hle => (exprApproximates hle).exprs

theorem growing_stmt : Growing fun n => stmt rules n :=
  fun _ _ hle => (stmtApproximates hle).stmt

theorem growing_block : Growing fun n => block rules n :=
  fun _ _ hle => (stmtApproximates hle).block

end Grammar

end ListScript
