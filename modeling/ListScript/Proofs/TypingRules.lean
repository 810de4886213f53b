import ListScript.Proofs.Ends
import ListScript.Proofs.ScopeRelation
import ListScript.Typing

/-!
# The typing rules

What it means for a program to be well typed, said without an order of checking, and that the
checker decides it.

* `Expr.Typed s e T` : the expression `e` has the type `T` where variables have the types of `s`;
  `Exprs.Typed s es T` : all of `es` have the type `T`;
* `Stmt.Typed s stmt t`, `Block.Typed` : the statement may stand where variables have the types of
  `s`, and they have those of `t` after it;
* `Expr.infer_eq_ok_iff`, `Block.check_eq_ok_iff` : the checker finds these types and no others;
* `Block.Typed.outer` : statements declare names in the innermost scope only;
* `Expr.Typed.unique`, `Block.Typed.unique` : nothing has two types;
* `typing_eq_ok_iff_derivable` : whole programs.
-/

namespace ListScript

variable {s t : Scopes Ty} {T U : Ty}

/-! ## The rules -/

mutual

/-- The types of expressions where variables have the types of `s`. -/
inductive Expr.Typed (s : Scopes Ty) : Expr → Ty → Prop
  | negate {e : Expr} : Expr.Typed s e .int → Expr.Typed s (.unary .negate e) .int
  | not {e : Expr} : Expr.Typed s e .bool → Expr.Typed s (.unary .not e) .bool
  | add {l r : Expr} :
    Expr.Typed s l .int → Expr.Typed s r .int → Expr.Typed s (.binary .add l r) .int
  | multiply {l r : Expr} :
    Expr.Typed s l .int → Expr.Typed s r .int → Expr.Typed s (.binary .multiply l r) .int
  | and {l r : Expr} :
    Expr.Typed s l .bool → Expr.Typed s r .bool → Expr.Typed s (.binary .and l r) .bool
  | equal {l r : Expr} {T : Ty} :
    Expr.Typed s l T → Expr.Typed s r T → Expr.Typed s (.binary .equal l r) .bool
  | cons {l r : Expr} {T : Ty} :
    Expr.Typed s l T → Expr.Typed s r (.list T) → Expr.Typed s (.binary .cons l r) (.list T)
  | int (value : Int64) : Expr.Typed s (.int value) .int
  | bool (value : Bool) : Expr.Typed s (.bool value) .bool
  | list {items : Exprs} {T : Ty} : Exprs.Typed s items T → Expr.Typed s (.list items) (.list T)
  | var {ident : Ident} {T : Ty} :
    s.lookup? ident.name = some T → Expr.Typed s (.var ident) T

/-- All of some expressions have one type. -/
inductive Exprs.Typed (s : Scopes Ty) : Exprs → Ty → Prop
  | one {e : Expr} {T : Ty} : Expr.Typed s e T → Exprs.Typed s (.one e) T
  | more {e : Expr} {rest : Exprs} {T : Ty} :
    Expr.Typed s e T → Exprs.Typed s rest T → Exprs.Typed s (.more e rest) T

end

mutual

/-- The statements that may stand where variables have the types of the first scopes; after them
variables have the types of the second. -/
inductive Stmt.Typed : Scopes Ty → Stmt → Scopes Ty → Prop
  | declare {s : Scopes Ty} {ident : Ident} {e : Expr} {T : Ty} :
    Expr.Typed s e T → s.inner.binds ident.name = false →
      Stmt.Typed s (.declare ident e) ⟨(ident.name, T) :: s.inner, s.outer⟩
  | assign {s : Scopes Ty} {ident : Ident} {e : Expr} {T : Ty} :
    Expr.Typed s e T → s.lookup? ident.name = some T → Stmt.Typed s (.assign ident e) s
  | print {s : Scopes Ty} {e : Expr} {T : Ty} : Expr.Typed s e T → Stmt.Typed s (.print e) s
  | forEach {s : Scopes Ty} {ident : Ident} {e : Expr} {T : Ty} {body : Block} {local' : Scope Ty} :
    Expr.Typed s e (.list T) → Block.Typed (s.enterWith ident.name T) body ⟨local', s.toList⟩ →
      Stmt.Typed s (.forEach ident e body) s

/-- The same for statements one after the other. -/
inductive Block.Typed : Scopes Ty → Block → Scopes Ty → Prop
  | one {s t : Scopes Ty} {stmt : Stmt} : Stmt.Typed s stmt t → Block.Typed s (.one stmt) t
  | more {s t u : Scopes Ty} {stmt : Stmt} {rest : Block} :
    Stmt.Typed s stmt t → Block.Typed t rest u → Block.Typed s (.more stmt rest) u

end

/-! ## Expressions -/

namespace Ty

@[simp] theorem expect_eq_ok {V : Ty} : T.expect U = .ok V ↔ T = U ∧ T = V := by
  unfold expect
  split
  · simp [*]
  · simp [*]

/-- An operand whose type was compared has the expected type. -/
theorem operand_of_expect {x : Except TypeError Ty} (h : (do T.expect (← x)) = .ok U) :
    x = .ok T ∧ U = T := by
  obtain ⟨V, hx, hV⟩ := bind_eq_ok.1 h
  obtain ⟨rfl, rfl⟩ := expect_eq_ok.1 hV
  exact ⟨hx, rfl⟩

/-- The same for two operands, the left one compared first. -/
theorem operands_of_expect {x y : Except TypeError Ty}
    (h : (do discard (T.expect (← x)); T.expect (← y)) = .ok U) :
    x = .ok T ∧ y = .ok T ∧ U = T := by
  obtain ⟨V, hx, hrest⟩ := bind_eq_ok.1 h
  obtain ⟨_, hV, hy⟩ := bind_eq_ok.1 hrest
  obtain ⟨_, hV⟩ := discard_eq_ok.1 hV
  obtain ⟨rfl, -⟩ := expect_eq_ok.1 hV
  exact ⟨hx, operand_of_expect hy⟩

theorem expect_self (T : Ty) : T.expect T = .ok T := if_pos rfl

@[simp] theorem element_eq_ok : T.element = .ok U ↔ T = .list U := by
  cases T <;> simp [element]

end Ty

mutual

/-- The checker finds the type that an expression has by the rules. -/
theorem Expr.Typed.infer_eq : ∀ {e : Expr} {T : Ty}, Expr.Typed s e T → e.infer s = .ok T
  | _, _, .negate h | _, _, .not h => by
    rw [Expr.infer, h.infer_eq]
    rfl
  | _, _, .add hl hr | _, _, .multiply hl hr | _, _, .and hl hr => by
    rw [Expr.infer, hl.infer_eq, hr.infer_eq]
    rfl
  | _, _, .equal hl hr => by
    rw [Expr.infer, hl.infer_eq, hr.infer_eq, ok_bind, ok_bind, Ty.expect_self]
    rfl
  | _, _, .cons hl hr => by
    rw [Expr.infer, hl.infer_eq, hr.infer_eq, ok_bind, ok_bind, Ty.element, ok_bind,
      Ty.expect_self]
    rfl
  | _, _, .int _ | _, _, .bool _ => rfl
  | _, _, .list h => by rw [Expr.infer, h.infer_eq]
  | _, _, .var h => by rw [Expr.infer, h]

/-- Expressions of one type are the elements of a list. -/
theorem Exprs.Typed.infer_eq :
    ∀ {es : Exprs} {T : Ty}, Exprs.Typed s es T → es.infer s = .ok (.list T)
  | _, _, .one h => by rw [Exprs.infer, h.infer_eq]; rfl
  | _, _, .more h hs => by
    rw [Exprs.infer, h.infer_eq, hs.infer_eq, ok_bind, ok_bind, Ty.element, ok_bind,
      Ty.expect_self]
    rfl

end

mutual

/-- The checker finds no type that an expression has not by the rules. -/
theorem Expr.typed_of_infer : ∀ {e : Expr} {T : Ty}, e.infer s = .ok T → Expr.Typed s e T
  | .unary .negate e, _, h => by
    obtain ⟨he, rfl⟩ := Ty.operand_of_expect h
    exact .negate (Expr.typed_of_infer he)
  | .unary .not e, _, h => by
    obtain ⟨he, rfl⟩ := Ty.operand_of_expect h
    exact .not (Expr.typed_of_infer he)
  | .binary .add l r, _, h => by
    obtain ⟨hl, hr, rfl⟩ := Ty.operands_of_expect h
    exact .add (Expr.typed_of_infer hl) (Expr.typed_of_infer hr)
  | .binary .multiply l r, _, h => by
    obtain ⟨hl, hr, rfl⟩ := Ty.operands_of_expect h
    exact .multiply (Expr.typed_of_infer hl) (Expr.typed_of_infer hr)
  | .binary .and l r, _, h => by
    obtain ⟨hl, hr, rfl⟩ := Ty.operands_of_expect h
    exact .and (Expr.typed_of_infer hl) (Expr.typed_of_infer hr)
  | .binary .equal l r, _, h => by
    simp only [Expr.infer, bind_eq_ok, discard_eq_ok, Ty.expect_eq_ok] at h
    obtain ⟨_, hl, _, hr, _, ⟨_, rfl, rfl⟩, hT⟩ := h
    cases hT
    exact .equal (Expr.typed_of_infer hl) (Expr.typed_of_infer hr)
  | .binary .cons l r, _, h => by
    simp only [Expr.infer, bind_eq_ok, discard_eq_ok, Ty.expect_eq_ok, Ty.element_eq_ok] at h
    obtain ⟨_, hl, _, hr, _, rfl, _, ⟨_, rfl, rfl⟩, ⟨⟩⟩ := h
    exact .cons (Expr.typed_of_infer hl) (Expr.typed_of_infer hr)
  | .int value, _, h => by cases h; exact .int value
  | .bool value, _, h => by cases h; exact .bool value
  | .list items, _, h => by
    obtain ⟨U, rfl, hs⟩ := Exprs.typed_of_infer h
    exact .list hs
  | .var ident, _, h => by
    rw [Expr.infer] at h
    split at h
    · next hl => cases h; exact .var hl
    · cases h

/-- Expressions have the type of a list only if they have one type. -/
theorem Exprs.typed_of_infer :
    ∀ {es : Exprs} {L : Ty}, es.infer s = .ok L → ∃ T, L = .list T ∧ Exprs.Typed s es T
  | .one e, _, h => by
    simp only [Exprs.infer, bind_eq_ok] at h
    obtain ⟨T, he, ⟨⟩⟩ := h
    exact ⟨T, rfl, .one (Expr.typed_of_infer he)⟩
  | .more e rest, _, h => by
    simp only [Exprs.infer, bind_eq_ok, discard_eq_ok, Ty.expect_eq_ok, Ty.element_eq_ok] at h
    obtain ⟨T, he, _, hs, _, rfl, _, ⟨_, rfl, rfl⟩, ⟨⟩⟩ := h
    obtain ⟨U, hU, hs⟩ := Exprs.typed_of_infer hs
    cases hU
    exact ⟨T, rfl, .more (Expr.typed_of_infer he) hs⟩

end

/-- The checker decides the rules for expressions. -/
theorem Expr.infer_eq_ok_iff {e : Expr} : e.infer s = .ok T ↔ Expr.Typed s e T :=
  ⟨Expr.typed_of_infer, Expr.Typed.infer_eq⟩

/-! ## Statements -/

mutual

/-- Statements declare names in the innermost scope only. -/
theorem Stmt.Typed.outer : ∀ {stmt : Stmt} {s t : Scopes Ty}, Stmt.Typed s stmt t → t.outer = s.outer
  | _, _, _, .declare _ _ | _, _, _, .assign _ _ | _, _, _, .print _ | _, _, _, .forEach _ _ => rfl

theorem Block.Typed.outer : ∀ {b : Block} {s t : Scopes Ty}, Block.Typed s b t → t.outer = s.outer
  | _, _, _, .one h => h.outer
  | _, _, _, .more h hs => hs.outer.trans h.outer

end

namespace Checking

theorem infer_eq_ok_iff {e : Expr} : Checking.infer e s = .ok T t ↔ Expr.Typed s e T ∧ s = t := by
  rw [← Expr.infer_eq_ok_iff, Checking.infer]
  cases e.infer s with
  | ok U => simp
  | error e => simp

theorem declare_eq_ok_iff {ident : Ident} {u : Unit} : Checking.declare ident T s = .ok u t ↔
    s.inner.binds ident.name = false ∧ ⟨(ident.name, T) :: s.inner, s.outer⟩ = t := by
  unfold declare Scopes.declare?
  cases s.inner.binds ident.name with
  | false => simp
  | true => simp

theorem typeOf_eq_ok_iff {ident : Ident} :
    Checking.typeOf ident s = .ok T t ↔ s.lookup? ident.name = some T ∧ s = t := by
  unfold typeOf
  cases s.lookup? ident.name with
  | none => simp
  | some U => simp

theorem ofExcept_eq_ok_iff {α : Type} {x : Except TypeError α} {a : α} :
    Checking.ofExcept x s = .ok a t ↔ x = .ok a ∧ s = t := by
  cases x with
  | ok b => simp [ofExcept, pure, EStateM.pure]
  | error e => simp [ofExcept, throw, throwThe, MonadExceptOf.throw, EStateM.throw]

theorem inScope_eq_ok_iff {name : String} {body : Checking Unit} {u : Unit} :
    Checking.inScope name T body s = .ok u t ↔
      ∃ after, body (s.enterWith name T) = .ok () after ∧ after.exit = t := by
  unfold inScope
  cases body (s.enterWith name T) with
  | ok v after => simp
  | error e after => simp

end Checking

mutual

/-- The checker accepts no statement that the rules do not allow. -/
theorem Stmt.typed_of_check :
    ∀ {stmt : Stmt} {s t : Scopes Ty}, stmt.check s = .ok () t → Stmt.Typed s stmt t
  | .declare ident e, s, t, h => by
    obtain ⟨T, _, hinfer, hdeclare⟩ := step_bind_eq_ok.1 h
    obtain ⟨he, rfl⟩ := Checking.infer_eq_ok_iff.1 hinfer
    obtain ⟨hfree, rfl⟩ := Checking.declare_eq_ok_iff.1 hdeclare
    exact .declare he hfree
  | .assign ident e, s, t, h => by
    obtain ⟨T, _, hinfer, hrest⟩ := step_bind_eq_ok.1 h
    obtain ⟨U, _, htype, hexpect⟩ := step_bind_eq_ok.1 hrest
    obtain ⟨_, hsame⟩ := step_discard_eq_ok.1 hexpect
    obtain ⟨he, rfl⟩ := Checking.infer_eq_ok_iff.1 hinfer
    obtain ⟨hl, rfl⟩ := Checking.typeOf_eq_ok_iff.1 htype
    obtain ⟨hU, rfl⟩ := Checking.ofExcept_eq_ok_iff.1 hsame
    obtain ⟨rfl, -⟩ := Ty.expect_eq_ok.1 hU
    exact .assign he hl
  | .print e, s, t, h => by
    obtain ⟨T, hinfer⟩ := step_discard_eq_ok.1 h
    obtain ⟨he, rfl⟩ := Checking.infer_eq_ok_iff.1 hinfer
    exact .print he
  | .forEach ident e body, s, t, h => by
    obtain ⟨L, _, hinfer, hrest⟩ := step_bind_eq_ok.1 h
    obtain ⟨T, _, helement, hscope⟩ := step_bind_eq_ok.1 hrest
    obtain ⟨he, rfl⟩ := Checking.infer_eq_ok_iff.1 hinfer
    obtain ⟨hL, rfl⟩ := Checking.ofExcept_eq_ok_iff.1 helement
    cases Ty.element_eq_ok.1 hL
    obtain ⟨⟨inner, outer⟩, hcheck, rfl⟩ := Checking.inScope_eq_ok_iff.1 hscope
    have hbody := Block.typed_of_check hcheck
    cases hbody.outer
    exact .forEach he hbody

theorem Block.typed_of_check :
    ∀ {b : Block} {s t : Scopes Ty}, b.check s = .ok () t → Block.Typed s b t
  | .one stmt, s, t, h => .one (Stmt.typed_of_check h)
  | .more stmt rest, s, t, h => by
    obtain ⟨_, u, hs, hr⟩ := step_bind_eq_ok.1 h
    exact .more (Stmt.typed_of_check hs) (Block.typed_of_check hr)

end

mutual

/-- The checker accepts every statement that the rules allow. -/
theorem Stmt.Typed.check_eq :
    ∀ {stmt : Stmt} {s t : Scopes Ty}, Stmt.Typed s stmt t → stmt.check s = .ok () t
  | _, _, _, .declare he hfree =>
    step_bind_eq_ok.2 ⟨_, _, Checking.infer_eq_ok_iff.2 ⟨he, rfl⟩,
      Checking.declare_eq_ok_iff.2 ⟨hfree, rfl⟩⟩
  | _, _, _, .assign he hl =>
    step_bind_eq_ok.2 ⟨_, _, Checking.infer_eq_ok_iff.2 ⟨he, rfl⟩,
      step_bind_eq_ok.2 ⟨_, _, Checking.typeOf_eq_ok_iff.2 ⟨hl, rfl⟩,
        step_discard_eq_ok.2 ⟨_, Checking.ofExcept_eq_ok_iff.2 ⟨Ty.expect_self _, rfl⟩⟩⟩⟩
  | _, _, _, .print he => step_discard_eq_ok.2 ⟨_, Checking.infer_eq_ok_iff.2 ⟨he, rfl⟩⟩
  | _, _, _, .forEach he hbody =>
    step_bind_eq_ok.2 ⟨_, _, Checking.infer_eq_ok_iff.2 ⟨he, rfl⟩,
      step_bind_eq_ok.2 ⟨_, _, Checking.ofExcept_eq_ok_iff.2 ⟨Ty.element_eq_ok.2 rfl, rfl⟩,
        Checking.inScope_eq_ok_iff.2 ⟨_, hbody.check_eq, rfl⟩⟩⟩

theorem Block.Typed.check_eq :
    ∀ {b : Block} {s t : Scopes Ty}, Block.Typed s b t → b.check s = .ok () t
  | _, _, _, .one h => h.check_eq
  | _, _, _, .more h hs => step_bind_eq_ok.2 ⟨_, _, h.check_eq, hs.check_eq⟩

end

/-- The checker decides the rules for statements. -/
theorem Block.check_eq_ok_iff {b : Block} : b.check s = .ok () t ↔ Block.Typed s b t :=
  ⟨Block.typed_of_check, Block.Typed.check_eq⟩

/-! ## One type -/

section Unique

variable {s' t' : Scopes Ty}

theorem Expr.Typed.unique {e : Expr} (h : Expr.Typed s e T) (h' : Expr.Typed s e U) : T = U := by
  have hinfer := h.infer_eq
  rw [h'.infer_eq] at hinfer
  exact (Except.ok.inj hinfer).symm

theorem Exprs.Typed.unique {es : Exprs} (h : Exprs.Typed s es T) (h' : Exprs.Typed s es U) :
    T = U := by
  have hinfer := h.infer_eq
  rw [h'.infer_eq] at hinfer
  injection hinfer with hlist
  injection hlist with helement
  exact helement.symm

theorem Stmt.Typed.unique {stmt : Stmt} (h : Stmt.Typed s stmt t) (h' : Stmt.Typed s stmt t') :
    t = t' := by
  have hcheck := h.check_eq
  rw [h'.check_eq] at hcheck
  injection hcheck with _ hscopes
  exact hscopes.symm

theorem Block.Typed.unique {b : Block} (h : Block.Typed s b t) (h' : Block.Typed s b t') :
    t = t' := by
  have hcheck := h.check_eq
  rw [h'.check_eq] at hcheck
  injection hcheck with _ hscopes
  exact hscopes.symm

end Unique

/-! ## Programs -/

/-- The checker decides the rules for programs. -/
theorem Block.typing_eq_ok_iff {program : Block} :
    program.typing = .ok t ↔ Block.Typed Scopes.empty program t := by
  rw [← Block.check_eq_ok_iff]
  unfold Block.typing
  cases program.check Scopes.empty with
  | ok u after => simp
  | error e after => simp

/-- All that statements declare which begin with a single scope is found in that scope. -/
theorem Block.Typed.lookup?_global {program : Block} (h : Block.Typed Scopes.empty program t)
    (name : String) : t.lookup? name = t.inner.find? name := by
  have houter : t.outer = [] := h.outer
  unfold Scopes.lookup? Scopes.toList
  rw [houter, List.findSome?_cons]
  cases t.inner.find? name with
  | none => rfl
  | some T => rfl

/-- The checker accepts a program if and only if the rules derive it from one empty scope, and it ends
with the scopes of the derivation. In a derivation nothing has two types: an expression has one where
the types of the variables are given, and statements lead from there to one stack of scopes. What the
checker says afterwards of a name is what the derivation binds it to in the global scope, the only one
that is left. -/
theorem typing_eq_ok_iff_derivable (program : Block) :
    (∀ scopes, program.typing = .ok scopes ↔ Block.Typed Scopes.empty program scopes) ∧
    (∀ s e T U, Expr.Typed s e T → Expr.Typed s e U → T = U) ∧
    (∀ s es T U, Exprs.Typed s es T → Exprs.Typed s es U → T = U) ∧
    (∀ s stmt t t', Stmt.Typed s stmt t → Stmt.Typed s stmt t' → t = t') ∧
    (∀ s block t t', Block.Typed s block t → Block.Typed s block t' → t = t') ∧
    ∀ checked derived, program.typing = .ok checked →
      Block.Typed Scopes.empty program derived →
        derived.outer = [] ∧ ∀ name, checked.lookup? name = derived.inner.find? name := by
  refine ⟨fun scopes => Block.typing_eq_ok_iff, fun _ _ _ _ => Expr.Typed.unique,
    fun _ _ _ _ => Exprs.Typed.unique, fun _ _ _ _ => Stmt.Typed.unique,
    fun _ _ _ _ => Block.Typed.unique, ?_⟩
  intro checked derived htyping hderived
  obtain rfl := (Block.typing_eq_ok_iff.mp htyping).unique hderived
  exact ⟨hderived.outer, hderived.lookup?_global⟩

/-- A loop over a list whose body declares the name of the list again, with another type. -/
def shadowingLoop : Block :=
  let ident (name : String) : Ident := ⟨name, ⟨1, 1⟩⟩
  let xs : Expr := .binary .cons (.int 1) (.list (.one (.unary .negate (.int 2))))
  .more (.declare (ident "xs") xs)
    (.more (.declare (ident "n") (.int 0))
      (.one (.forEach (ident "x") (.var (ident "xs"))
        (.more (.declare (ident "xs") (.binary .equal (.var (ident "x")) (.int 1)))
          (.one (.assign (ident "n") (.binary .add (.var (ident "n")) (.var (ident "x")))))))))

/-- The rules derive this program, and after it the name of the list has the type of a list. -/
theorem typing_eq_ok_iff_derivable_shadowingLoop :
    let types : Scopes Ty := ⟨[("n", .int), ("xs", .list .int)], []⟩
    shadowingLoop.typing = .ok types ∧ Block.Typed Scopes.empty shadowingLoop types ∧
      (∀ T, Expr.Typed types (.var ⟨"xs", ⟨1, 1⟩⟩) T → T = .list .int) ∧
      types.lookup? "xs" = types.inner.find? "xs" := by
  intro types
  have htyping : shadowingLoop.typing = .ok types := rfl
  obtain ⟨hiff, hexpr, -, -, -, hglobal⟩ := typing_eq_ok_iff_derivable shadowingLoop
  have hderived := (hiff types).mp htyping
  refine ⟨htyping, hderived, fun T hT => ?_, (hglobal types types htyping hderived).2 "xs"⟩
  exact hexpr types _ T (.list .int) hT (.var rfl)

end ListScript
