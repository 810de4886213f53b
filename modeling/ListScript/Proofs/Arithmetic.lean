import ListScript.Proofs.ScopeFrames

/-!
# Arithmetic

Sums, products and negations of integers wrap around at every operator. The value is the one that
wrapping around once, after exact arithmetic, leads to.

* `Arithmetic`, `Arithmetic.expr` : the expressions that are built from integers and variables by
  addition, multiplication and negation;
* `Arithmetic.integer` : their values over all integers;
* `ofInt_eq_ofInt_of_modEq`, `toInt_ofInt_modEq` : wrapping around is reducing by `2 ^ 64`;
* `Arithmetic.eval_expr` : evaluation leads to the exact value, wrapped around once;
* `arithmetic_wraps_once` : this is the one 64-bit integer that is congruent to the exact value.
-/

namespace ListScript

/-- The expressions that are built from integers and variables by addition, multiplication and
negation. -/
inductive Arithmetic where
  | int (value : Int64)
  | var (ident : Ident)
  | negate (operand : Arithmetic)
  | add (left right : Arithmetic)
  | multiply (left right : Arithmetic)

namespace Arithmetic

/-- The expression itself. -/
def expr : Arithmetic → Expr
  | int value => .int value
  | var ident => .var ident
  | negate operand => .unary .negate operand.expr
  | add left right => .binary .add left.expr right.expr
  | multiply left right => .binary .multiply left.expr right.expr

/-- The value over all integers, where nothing wraps around. -/
def integer (ints : String → Int64) : Arithmetic → ℤ
  | int value => value.toInt
  | var ident => (ints ident.name).toInt
  | negate operand => -operand.integer ints
  | add left right => left.integer ints + right.integer ints
  | multiply left right => left.integer ints * right.integer ints

end Arithmetic

/-- An integer is congruent to what it wraps around to. -/
theorem toInt_ofInt_modEq (n : ℤ) : (Int64.ofInt n).toInt ≡ n [ZMOD 2 ^ 64] := by
  rw [Int64.toInt_ofInt]
  exact Int.bmod_emod

/-- Congruent integers wrap around to the same. -/
theorem ofInt_eq_ofInt_of_modEq {m n : ℤ} (h : m ≡ n [ZMOD 2 ^ 64]) : Int64.ofInt m = Int64.ofInt n := by
  rw [← Int64.toInt_inj, Int64.toInt_ofInt, Int64.toInt_ofInt, ← Int.emod_bmod m, ← Int.emod_bmod n]
  exact congrArg (Int.bmod · Int64.size) h

variable {scopes : Scopes Value} {ints : String → Int64}

/-- Wrapping around at every operator comes to wrapping around once, since it is compatible with all of
them. -/
theorem Arithmetic.eval_expr : ∀ {a : Arithmetic},
    (∀ name ∈ a.expr.names, scopes.lookup? name = some (.int (ints name))) →
      a.expr.eval scopes = .ok (.int (Int64.ofInt (a.integer ints)))
  | int value, _ => by rw [expr, Expr.eval, integer, Int64.ofInt_toInt]
  | var ident, h => by
    have hname := h ident.name (List.mem_singleton.mpr rfl)
    rw [expr, Expr.eval, hname, integer, Int64.ofInt_toInt]
  | negate operand, h => by
    have hoperand : operand.expr.eval scopes = _ := eval_expr h
    rw [expr, Expr.eval, hoperand, integer, Int64.ofInt_neg]
    rfl
  | add left right, h => by
    obtain ⟨hl, hr⟩ := List.forall_mem_append.mp h
    rw [expr, Expr.eval, eval_expr hl, eval_expr hr, integer, Int64.ofInt_add]
    rfl
  | multiply left right, h => by
    obtain ⟨hl, hr⟩ := List.forall_mem_append.mp h
    rw [expr, Expr.eval, eval_expr hl, eval_expr hr, integer, Int64.ofInt_mul]
    rfl

/-- Where all its variables are integers, an arithmetic expression has a value. It is the only 64-bit
integer that is congruent to the exact value modulo `2 ^ 64`: the exact value, wrapped around once. So
all expressions whose exact values are congruent have the same value, however they are put together. -/
theorem arithmetic_wraps_once (a : Arithmetic) (scopes : Scopes Value) (ints : String → Int64)
    (h : ∀ name ∈ a.expr.names, scopes.lookup? name = some (.int (ints name))) :
    ∃ n : Int64, a.expr.eval scopes = .ok (.int n) ∧ n = Int64.ofInt (a.integer ints) ∧
      (∀ m : Int64, m.toInt ≡ a.integer ints [ZMOD 2 ^ 64] ↔ m = n) ∧
      ∀ b : Arithmetic, (∀ name ∈ b.expr.names, scopes.lookup? name = some (.int (ints name))) →
        b.integer ints ≡ a.integer ints [ZMOD 2 ^ 64] → b.expr.eval scopes = .ok (.int n) := by
  refine ⟨_, Arithmetic.eval_expr h, rfl, fun m => ⟨fun hm => ?_, ?_⟩, fun b hb hab => ?_⟩
  · rw [← ofInt_eq_ofInt_of_modEq hm, Int64.ofInt_toInt]
  · rintro rfl
    exact toInt_ofInt_modEq _
  · rw [Arithmetic.eval_expr hb, ofInt_eq_ofInt_of_modEq hab]

/-- Three times the negation of the least integer, as a product and as a sum, is the least integer. -/
theorem arithmetic_wraps_once_least :
    let x : Arithmetic := .var ⟨"x", ⟨1, 1⟩⟩
    let scopes : Scopes Value := ⟨[], [[("x", .int (-9223372036854775808))]]⟩
    let ints (_ : String) : Int64 := -9223372036854775808
    let a : Arithmetic := .multiply (.add (.int 1) (.int 2)) (.negate x)
    let b : Arithmetic := .add (.multiply (.negate x) (.int 2)) (.negate x)
    a.integer ints = 27670116110564327424 ∧ b.integer ints = 27670116110564327424 ∧
      a.expr.eval scopes = .ok (.int (-9223372036854775808)) ∧
      b.expr.eval scopes = .ok (.int (-9223372036854775808)) := by
  intro x scopes ints a b
  have hx : ∀ name ∈ ["x", "x"], scopes.lookup? name = some (.int (ints name)) := by
    intro name hname
    obtain rfl : name = "x" := by simpa using hname
    rfl
  have hab : b.integer ints = a.integer ints := by decide
  obtain ⟨n, ha, hn, -, hb⟩ := arithmetic_wraps_once a scopes ints fun name hname =>
    hx name (List.mem_cons_of_mem _ hname)
  obtain rfl : n = -9223372036854775808 := hn.trans (by decide)
  exact ⟨by decide, by decide, ha, hb b hx (hab ▸ Int.ModEq.refl _)⟩

end ListScript
