import ListScript.Grammar.Rules

/-!
# Trees grouped by powers

Operands with operators between them can be grouped in many ways. With a power for each operator there
is one way in which tighter operators group first, and equally tight ones to the left.

* `Expr.inOrder` : the operands and operators of a tree from left to right;
* `Expr.rootPower?` : how tightly the outermost operator of a tree binds;
* `Expr.Grouped power` : every operator binds more tightly than those around it, and no less tightly
  than one to its right that it belongs to;
* `Expr.Grouped.not_lt`, `Expr.Grouped.lt_right` : so it is for all operators below, not only for the
  next ones;
* `Expr.Grouped.eq_of_inOrder` : there is one grouped tree with the same operands and operators.
-/

namespace ListScript

namespace Expr

/-- The operands of a tree from left to right, with the operators between them. -/
def inOrder : Expr → List (Expr ⊕ BinaryOp)
  | .binary op left right => left.inOrder ++ .inr op :: right.inOrder
  | e => [.inl e]

/-- How tightly the outermost operator of a tree binds; an operand has none. -/
def rootPower? (power : BinaryOp → Power) : Expr → Option Power
  | .binary op _ _ => some (power op)
  | _ => none

/-- To the left of every operator there is none that binds less tightly, and to its right only such as
bind more tightly. -/
def Grouped (power : BinaryOp → Power) : Expr → Prop
  | .binary op left right =>
    left.Grouped power ∧ right.Grouped power ∧ (∀ p ∈ left.rootPower? power, ¬ p < power op) ∧
      ∀ p ∈ right.rootPower? power, power op < p
  | _ => True

variable {power : BinaryOp → Power}

theorem inOrder_ne_nil (e : Expr) : e.inOrder ≠ [] := by
  cases e <;> simp [inOrder]

theorem inOrder_binary (op : BinaryOp) (left right : Expr) :
    (Expr.binary op left right).inOrder = left.inOrder ++ .inr op :: right.inOrder := rfl

/-- A tree with an operator has an outermost one. -/
theorem exists_rootPower? (power : BinaryOp → Power) {e : Expr} {op : BinaryOp} (h : .inr op ∈ e.inOrder) :
    ∃ p, e.rootPower? power = some p := by
  cases e with
  | binary op' left right => exact ⟨_, rfl⟩
  | _ => cases List.mem_singleton.mp h

theorem exists_of_rootPower? {e : Expr} {p : Power} (h : e.rootPower? power = some p) :
    ∃ op, .inr op ∈ e.inOrder ∧ power op = p := by
  cases e with
  | binary op left right =>
    cases h
    exact ⟨op, List.mem_append_right _ List.mem_cons_self, rfl⟩
  | _ => cases h

theorem Grouped.left {op : BinaryOp} {left right : Expr}
    (h : (Expr.binary op left right).Grouped power) : left.Grouped power := h.1

theorem Grouped.right {op : BinaryOp} {left right : Expr}
    (h : (Expr.binary op left right).Grouped power) : right.Grouped power := h.2.1

/-- No operator of a grouped tree binds less tightly than the outermost one. -/
theorem Grouped.not_lt {e : Expr} (h : e.Grouped power) {op : BinaryOp} (hop : .inr op ∈ e.inOrder)
    {p : Power} (hp : e.rootPower? power = some p) : ¬ power op < p := by
  induction e using inOrder.induct generalizing p with
  | case1 root left right ihleft ihright =>
    obtain ⟨hleft, hright, hloose, htight⟩ := h
    cases hp
    rw [inOrder_binary, List.mem_append, List.mem_cons] at hop
    obtain hop | heq | hop := hop
    · obtain ⟨q, hq⟩ := exists_rootPower? power hop
      exact fun hlt => ihleft hleft hop hq (Nat.lt_of_lt_of_le hlt (Nat.not_lt.mp (hloose q hq)))
    · cases heq
      exact Nat.lt_irrefl _
    · obtain ⟨q, hq⟩ := exists_rootPower? power hop
      exact fun hlt => ihright hright hop hq (Nat.lt_trans hlt (htight q hq))
  | case2 e hnone =>
    cases e with
    | binary root left right => exact absurd rfl (hnone root left right)
    | _ => cases hp

/-- No operator to the left of the outermost one binds less tightly. -/
theorem Grouped.not_lt_left {root op : BinaryOp} {left right : Expr}
    (h : (Expr.binary root left right).Grouped power) (hop : .inr op ∈ left.inOrder) :
    ¬ power op < power root :=
  h.not_lt (List.mem_append_left _ hop) rfl

/-- Every operator to the right of the outermost one binds more tightly. -/
theorem Grouped.lt_right {root op : BinaryOp} {left right : Expr}
    (h : (Expr.binary root left right).Grouped power) (hop : .inr op ∈ right.inOrder) :
    power root < power op := by
  obtain ⟨-, hright, -, htight⟩ := h
  obtain ⟨q, hq⟩ := exists_rootPower? power hop
  exact Nat.lt_of_lt_of_le (htight q hq) (Nat.not_lt.mp (hright.not_lt hop hq))

/-- A tree is an operand if it has nothing else from left to right. -/
theorem eq_of_inOrder_singleton {e operand : Expr} (h : e.inOrder = [.inl operand]) : e = operand := by
  cases e with
  | binary op left right =>
    rw [inOrder_binary, List.append_eq_singleton_iff] at h
    obtain ⟨hnil, -⟩ | ⟨-, hnil⟩ := h
    · exact absurd hnil left.inOrder_ne_nil
    · cases hnil
  | _ => exact Sum.inl.inj (List.singleton_inj.mp h)

/-- Of two grouped trees with the same operands and operators, the outermost operator of one does not
stand before that of the other: it would have to bind both more and no more tightly than that one. -/
theorem Grouped.eq_nil_of_between {op op' : BinaryOp} {left right left' right' : Expr}
    {between : List (Expr ⊕ BinaryOp)} (h : (Expr.binary op left right).Grouped power)
    (h' : (Expr.binary op' left' right').Grouped power)
    (hleft : left'.inOrder = left.inOrder ++ between)
    (hright : .inr op :: right.inOrder = between ++ .inr op' :: right'.inOrder) : between = [] := by
  cases between with
  | nil => rfl
  | cons x between =>
    obtain ⟨rfl, hrest⟩ := List.cons.inj hright
    have hop : .inr op ∈ left'.inOrder := by
      rw [hleft]
      exact List.mem_append_right _ List.mem_cons_self
    have hop' : .inr op' ∈ right.inOrder := by
      rw [hrest]
      exact List.mem_append_right between List.mem_cons_self
    exact absurd (h.lt_right hop') (h'.not_lt_left hop)

/-- A grouped tree is determined by its operands and operators. -/
theorem Grouped.eq_of_inOrder {e e' : Expr} (h : e.Grouped power) (h' : e'.Grouped power)
    (heq : e.inOrder = e'.inOrder) : e = e' := by
  induction e using inOrder.induct generalizing e' with
  | case1 op left right ihleft ihright =>
    cases e' with
    | binary op' left' right' =>
      rw [inOrder_binary, inOrder_binary] at heq
      have hsame : left.inOrder = left'.inOrder ∧
          Sum.inr op :: right.inOrder = .inr op' :: right'.inOrder := by
        obtain ⟨between, hleft, hright⟩ | ⟨between, hleft, hright⟩ :=
          List.append_eq_append_iff.mp heq
        · obtain rfl := h.eq_nil_of_between h' hleft hright
          exact ⟨by rw [hleft, List.append_nil], hright⟩
        · obtain rfl := h'.eq_nil_of_between h hleft hright
          exact ⟨by rw [hleft, List.append_nil], hright.symm⟩
      obtain ⟨hleft, hright⟩ := hsame
      obtain ⟨hop, hright'⟩ := List.cons.inj hright
      cases hop
      rw [ihleft h.left h'.left hleft, ihright h.right h'.right hright']
    | _ => exact eq_of_inOrder_singleton heq
  | case2 e hnone =>
    cases e with
    | binary op left right => exact absurd rfl (hnone op left right)
    | _ => exact (eq_of_inOrder_singleton heq.symm).symm

end Expr

end ListScript
