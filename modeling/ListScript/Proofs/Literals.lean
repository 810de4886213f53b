import ListScript.Proofs.ReachableValues
import ListScript.Proofs.RoundTrip
import ListScript.Proofs.ScopeFrames
import ListScript.Proofs.TypeSoundness

/-!
# Values written as literals

What printing a value writes is the text of an expression for this value, unless the least integer is
part of it.

* `Value.Occurs`, `Value.least` : the parts of a value, and the integer whose digits are out of range;
* `Expr.IsLiteral e v` : `e` mentions no name, is written as `v` is printed, and has the value `v`
  and its types;
* `Value.exists_literal` : there is such an expression for every value that has no least integer in it;
* `Expr.eq_of_unplaced` : an expression without names is known from its tree without places;
* `Expr.IsLiteral.exists_read`, `Expr.IsLiteral.run_declare`, `Expr.IsLiteral.typing_declare` : the
  declaration of a variable with a printed value is read, run and checked as one with the literal.
-/

namespace ListScript

/-! ## Parts of a value -/

/-- The value `w` is part of another: it is the value itself, or part of one of its elements. -/
inductive Value.Occurs (w : Value) : Value → Prop
  | whole : Occurs w w
  | inside {item : Value} {items : List Value} : item ∈ items → Occurs w item → Occurs w (.list items)

/-- The least integer. Its digits denote the first number that is out of range. -/
def Value.least : Value := .int Int64.minValue

theorem lt_toInt_of_ne_minValue {n : Int64} (h : n ≠ Int64.minValue) : -2 ^ 63 < n.toInt := by
  have hle : -2 ^ 63 ≤ n.toInt := n.le_toInt
  have hne : n.toInt ≠ -2 ^ 63 := by
    rw [← Int64.toInt_minValue, Ne, Int64.toInt_inj]
    exact h
  omega

/-! ## Literals -/

/-- The expression mentions no name and is written as the value is printed. It has this value, and all
types of the value. -/
structure Expr.IsLiteral (e : Expr) (v : Value) : Prop where
  isPlain : e.isPlain = true
  names : e.names = []
  source (l : Level) : e.source .minimal l = v.text
  eval (s : Scopes Value) : e.eval s = .ok v
  typed {T : Ty} (s : Scopes Ty) : HasType v T → Expr.Typed s e T

/-- The expressions are literals of the values `v` and `vs`, in this order. -/
structure Exprs.AreLiterals (es : Exprs) (v : Value) (vs : List Value) : Prop where
  isPlain : es.isPlain = true
  names : es.names = []
  source : es.source .minimal = v.text ++ Value.textAfter vs
  eval (s : Scopes Value) : es.eval s = .ok (v :: vs)
  typed {T : Ty} (s : Scopes Ty) : (∀ w ∈ v :: vs, HasType w T) → Exprs.Typed s es T

namespace Expr.IsLiteral

/-- Integers that are not negative. -/
theorem int {n : Int64} (h : 0 ≤ n.toInt) : IsLiteral (.int n) (.int n) where
  isPlain := decide_eq_true h
  names := rfl
  source _ := rfl
  eval _ := rfl
  typed s hT := by
    cases hT
    exact .int n

/-- A negative integer has its sign in front, unless it is the least. -/
theorem negative {n : Int64} (h : n.toInt < 0) (hne : n ≠ Int64.minValue) :
    IsLiteral (.unary .negate (.int (-n))) (.int n) := by
  have hneg : (-n).toInt = -n.toInt := by
    have hlow := lt_toInt_of_ne_minValue hne
    rw [Int64.toInt_neg]
    apply Int.bmod_eq_of_le <;> omega
  refine ⟨?_, rfl, fun _ => ?_, fun _ => ?_, fun s hT => ?_⟩
  · exact decide_eq_true (by omega)
  · show "-" ++ toString (-n).toInt = toString n.toInt
    rw [hneg, Int.toString_eq_repr, Int.toString_eq_repr, Int.repr_eq_if, if_pos (by omega),
      Int.repr_eq_if, if_neg (by omega)]
  · show Except.ok (Value.int (- -n)) = _
    rw [Int64.neg_neg]
  · cases hT
    exact .negate (.int _)

theorem bool (b : Bool) : IsLiteral (.bool b) (.bool b) where
  isPlain := rfl
  names := rfl
  source _ := rfl
  eval _ := rfl
  typed s hT := by
    cases hT
    exact .bool b

theorem list {es : Exprs} {v : Value} {vs : List Value} (h : es.AreLiterals v vs) :
    IsLiteral (.list es) (.list (v :: vs)) where
  isPlain := h.isPlain
  names := h.names
  source _ := by rw [Expr.source, h.source, Value.text, ← String.append_assoc]
  eval s := by rw [Expr.eval, h.eval]; rfl
  typed s hT := by
    cases hT with
    | list hitems => exact .list (h.typed s hitems)

end Expr.IsLiteral

/-- Values that each have a literal have literals between commas. -/
theorem Exprs.exists_literals {v : Value} {vs : List Value}
    (h : ∀ w ∈ v :: vs, ∃ e : Expr, e.IsLiteral w) : ∃ es : Exprs, es.AreLiterals v vs := by
  induction vs generalizing v with
  | nil =>
    obtain ⟨e, he⟩ := h v List.mem_cons_self
    refine ⟨.one e, he.isPlain, he.names, ?_, fun s => ?_, fun s hT => ?_⟩
    · rw [Exprs.source, he.source, Value.textAfter, String.append_empty]
    · rw [Exprs.eval, he.eval]
      rfl
    · exact .one (he.typed s (hT v List.mem_cons_self))
  | cons w ws ih =>
    obtain ⟨hv, hrest⟩ := List.forall_mem_cons.mp h
    obtain ⟨e, he⟩ := hv
    obtain ⟨es, hes⟩ := ih hrest
    refine ⟨.more e es, ?_, ?_, ?_, fun s => ?_, fun s hT => ?_⟩
    · rw [Exprs.isPlain, he.isPlain, hes.isPlain, Bool.true_and]
    · rw [Exprs.names, he.names, hes.names, List.append_nil]
    · rw [Exprs.source, he.source, hes.source, Value.textAfter, String.append_assoc,
        String.append_assoc]
    · rw [Exprs.eval, he.eval, hes.eval]
      rfl
    · obtain ⟨hT, hrest⟩ := List.forall_mem_cons.mp hT
      exact .more (he.typed s hT) (hes.typed s hrest)

/-- A value without the least integer has a literal. -/
theorem Value.exists_literal {v : Value} (hv : v.Solid) (hleast : ¬ least.Occurs v) :
    ∃ e : Expr, e.IsLiteral v := by
  induction hv with
  | int n =>
    by_cases hn : 0 ≤ n.toInt
    · exact ⟨_, .int hn⟩
    · refine ⟨_, .negative (by omega) ?_⟩
      rintro rfl
      exact hleast .whole
  | bool b => exact ⟨_, .bool b⟩
  | @list items hne _ ih =>
    have hitems : ∀ item ∈ items, ∃ e : Expr, e.IsLiteral item := by
      intro item hitem
      exact ih item hitem fun h => hleast (.inside hitem h)
    obtain ⟨v, vs, rfl⟩ := List.exists_cons_of_ne_nil hne
    obtain ⟨es, hes⟩ := Exprs.exists_literals hitems
    exact ⟨_, .list hes⟩

/-! ## Trees without names -/

mutual

theorem Expr.names_unplaced : ∀ e : Expr, e.unplaced.names = e.names
  | .unary op operand => Expr.names_unplaced operand
  | .binary op left right => by
    rw [Expr.unplaced, Expr.names, Expr.names, Expr.names_unplaced left, Expr.names_unplaced right]
  | .int _ | .bool _ | .var _ => rfl
  | .list items => Exprs.names_unplaced items

theorem Exprs.names_unplaced : ∀ es : Exprs, es.unplaced.names = es.names
  | .one item => Expr.names_unplaced item
  | .more item rest => by
    rw [Exprs.unplaced, Exprs.names, Exprs.names, Expr.names_unplaced item,
      Exprs.names_unplaced rest]

end

mutual

/-- Nothing but names has a place. -/
theorem Expr.unplaced_of_names : ∀ {e : Expr}, e.names = [] → e.unplaced = e
  | .unary op operand, h => by
    have hoperand : operand.unplaced = operand := Expr.unplaced_of_names h
    rw [Expr.unplaced, hoperand]
  | .binary op left right, h => by
    obtain ⟨hl, hr⟩ := List.append_eq_nil_iff.mp h
    rw [Expr.unplaced, Expr.unplaced_of_names hl, Expr.unplaced_of_names hr]
  | .int _, _ | .bool _, _ => rfl
  | .list items, h => by
    have hitems : items.unplaced = items := Exprs.unplaced_of_names h
    rw [Expr.unplaced, hitems]
  | .var _, h => nomatch h

theorem Exprs.unplaced_of_names : ∀ {es : Exprs}, es.names = [] → es.unplaced = es
  | .one item, h => by
    have hitem : item.unplaced = item := Expr.unplaced_of_names h
    rw [Exprs.unplaced, hitem]
  | .more item rest, h => by
    obtain ⟨hitem, hrest⟩ := List.append_eq_nil_iff.mp h
    rw [Exprs.unplaced, Expr.unplaced_of_names hitem, Exprs.unplaced_of_names hrest]

end

/-- An expression without names is known from its tree without places. -/
theorem Expr.eq_of_unplaced {e e' : Expr} (h : e'.unplaced = e.unplaced) (hnames : e.names = []) :
    e' = e := by
  have hnames' : e'.names = [] := by rw [← names_unplaced, h, names_unplaced, hnames]
  rwa [unplaced_of_names hnames, unplaced_of_names hnames'] at h

/-! ## Declarations with literals -/

variable {e : Expr} {v : Value}

/-- The declaration of a variable with a printed value is read as one with the literal. -/
theorem Expr.IsLiteral.exists_read (he : e.IsLiteral v) :
    ∃ position, Program.read (Source.ofText ("var x = " ++ v.text)) =
      .ok (.one (.declare ⟨"x", position⟩ e)) := by
  let program : Block := .one (.declare ⟨"x", Position.origin⟩ e)
  have hplain : program.isPlain = true := he.isPlain
  have hsource : program.source .minimal = "var x = " ++ v.text := by
    show "var " ++ "x" ++ " = " ++ e.source .minimal .whole = _
    rw [he.source]
    rfl
  obtain ⟨d, htree, hitems⟩ := Block.exists_items_source .minimal hplain
  obtain ⟨s, hparse⟩ := parse_of_derivation hitems d rfl
  rw [hsource] at hparse
  have hread : Program.read (Source.ofText ("var x = " ++ v.text)) = .ok d.tree := by
    rw [Program.read, hparse]
  rw [hread]
  -- the tree is known but for places, and only the name has one
  generalize d.tree = read at htree
  rcases read with ⟨⟨⟨name, position⟩, e'⟩ | _ | _ | _⟩ | _
  · simp only [program, Block.unplaced, Stmt.unplaced, Ident.unplaced, Block.one.injEq,
      Stmt.declare.injEq, Ident.mk.injEq, and_true] at htree
    obtain ⟨rfl, hvalue⟩ := htree
    exact ⟨position, by rw [Expr.eq_of_unplaced hvalue he.names]⟩
  all_goals cases htree

/-- Its run gives the variable the value. -/
theorem Expr.IsLiteral.run_declare {σ : Type} [Writer σ] (he : e.IsLiteral v) (position : Position)
    (w : σ) : (Block.one (.declare ⟨"x", position⟩ e)).run (Machine.ofSink w) =
      .ok () ⟨⟨[("x", v)], []⟩, w⟩ := by
  have heval : Running.eval e (Machine.ofSink w) = .ok v (Machine.ofSink w) := by
    rw [Running.eval, he.eval]
  exact step_bind_eq_ok.2 ⟨v, _, heval, rfl⟩

/-- Its check gives the variable a type of the value. -/
theorem Expr.IsLiteral.typing_declare (he : e.IsLiteral v) (position : Position) (T : Ty) :
    (Block.one (.declare ⟨"x", position⟩ e)).typing = .ok ⟨[("x", T)], []⟩ ↔ HasType v T := by
  rw [Block.typing_eq_ok_iff]
  constructor
  · rintro (h | _)
    cases h with
    | declare htyped =>
      have hempty : ScopesTyped Scopes.empty Scopes.empty := .empty
      obtain ⟨_, heval, hT⟩ := htyped.eval hempty
      rw [he.eval] at heval
      cases heval
      exact hT
  · intro h
    exact .one (.declare (he.typed _ h) rfl)

end ListScript
