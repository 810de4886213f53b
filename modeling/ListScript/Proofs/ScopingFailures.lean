import ListScript.Proofs.ReachableValues
import ListScript.Proofs.TypeSoundness

/-!
# Names are found missing or taken in the same place

The checker follows a program once, with types for the variables, and goes through the body of a loop
once. A run follows it with values, and goes through a body at least once because no list is empty. So
what the checker says of a name, the run says of it too. Only an operand of `&&` may be left out by the
run.

* `Expr.hasAnd`, `Stmt.hasAnd`, `Block.hasAnd` : whether `&&` occurs;
* `TypeError.inRun?` : what a run says of a name where the checker says it;
* `Expr.infer_ne_alreadyDeclared`, `Expr.eval_of_infer_error` : expressions;
* `Stmt.run_of_check_error`, `Block.run_of_check_error` : statements, by induction on the tree. What
  comes before the failing statement is well typed, so that it runs as `Block.Typed.run` says;
* `scoping_errors_recur` : programs.
-/

namespace ListScript

/-! ## Where `&&` occurs -/

mutual

/-- Whether `&&` occurs in an expression. -/
def Expr.hasAnd : Expr → Bool
  | .unary _ operand => operand.hasAnd
  | .binary op left right => op = .and || left.hasAnd || right.hasAnd
  | .int _ | .bool _ | .var _ => false
  | .list items => items.hasAnd

/-- Whether `&&` occurs in one of some expressions. -/
def Exprs.hasAnd : Exprs → Bool
  | .one item => item.hasAnd
  | .more item rest => item.hasAnd || rest.hasAnd

end

mutual

/-- Whether `&&` occurs in a statement. -/
def Stmt.hasAnd : Stmt → Bool
  | .declare _ value | .assign _ value | .print value => value.hasAnd
  | .forEach _ items body => items.hasAnd || body.hasAnd

/-- Whether `&&` occurs in a block. -/
def Block.hasAnd : Block → Bool
  | .one stmt => stmt.hasAnd
  | .more stmt rest => stmt.hasAnd || rest.hasAnd

end

/-- What a run says of a name where the checker says it. A mismatch is not about a name. -/
def TypeError.inRun? : TypeError → Option EvalError
  | .mismatch _ _ => none
  | .undeclared name position => some (.undeclared name position)
  | .alreadyDeclared name position => some (.alreadyDeclared name position)

/-! ## Expressions -/

variable {values : Scopes Value} {types types' : Scopes Ty} {T U : Ty}

/-- A name without a type has no value. -/
theorem ScopesTyped.lookup?_eq_none (hs : ScopesTyped values types) {name : String}
    (h : types.lookup? name = none) : values.lookup? name = none := by
  have hrel := Scopes.Agree.lookup? hs (Set.mem_univ name)
  rw [h] at hrel
  exact eq_none_of_rel hrel

namespace Ty

theorem inRun?_of_expect {err : TypeError} (h : T.expect U = .error err) : err.inRun? = none := by
  unfold expect at h
  split at h <;> cases h
  rfl

theorem inRun?_of_element {err : TypeError} (h : T.element = .error err) : err.inRun? = none := by
  unfold element at h
  split at h <;> cases h
  rfl

/-- A comparison of types whose answer is not used. -/
theorem inRun?_of_compared {err : TypeError} {V : Ty}
    (h : (do discard (T.expect U); return V) = .error err) : err.inRun? = none := by
  rcases bind_eq_error.mp h with hexpect | ⟨_, -, hreturn⟩
  · exact inRun?_of_expect (discard_eq_error.mp hexpect)
  · cases hreturn

/-- Only the operand itself says something about a name, not the comparison of its type. -/
theorem operand_of_inRun? {x : Except TypeError Ty} {err : TypeError} {err' : EvalError}
    (h : (do T.expect (← x)) = .error err) (herr : err.inRun? = some err') : x = .error err := by
  rcases bind_eq_error.mp h with hx | ⟨U, -, hexpect⟩
  · exact hx
  · rw [inRun?_of_expect hexpect] at herr
    cases herr

/-- The same for two operands. The right one is looked at only if the left one has its type. -/
theorem operands_of_inRun? {x y : Except TypeError Ty} {err : TypeError} {err' : EvalError}
    (h : (do discard (T.expect (← x)); T.expect (← y)) = .error err)
    (herr : err.inRun? = some err') : x = .error err ∨ x = .ok T ∧ y = .error err := by
  rcases bind_eq_error.mp h with hx | ⟨U, hx, hrest⟩
  · exact .inl hx
  · rcases bind_eq_error.mp hrest with hexpect | ⟨_, hexpect, hy⟩
    · rw [inRun?_of_expect (discard_eq_error.mp hexpect)] at herr
      cases herr
    · obtain ⟨_, hexpect⟩ := discard_eq_ok.mp hexpect
      obtain ⟨rfl, -⟩ := expect_eq_ok.mp hexpect
      exact .inr ⟨hx, operand_of_inRun? hy herr⟩

end Ty

/-- The type that an operator asks of its left operand, if it asks for one. -/
def BinaryOp.leftType? : BinaryOp → Option Ty
  | .add | .multiply => some .int
  | .and => some .bool
  | .equal | .cons => none

namespace Expr

variable {op : BinaryOp} {l r : Expr}

/-- What the checker says of a name in an operand. -/
theorem operand_of_inRun? {op : UnaryOp} {e : Expr} {err : TypeError} {err' : EvalError}
    (h : (Expr.unary op e).infer types = .error err) (herr : err.inRun? = some err') :
    e.infer types = .error err :=
  Ty.operand_of_inRun? h herr

/-- What the checker says of a name in one of two operands: it says it of the left one, or of the
right one after the left one has turned out to be what the operator asks for. -/
theorem operands_of_inRun? {err : TypeError} {err' : EvalError}
    (h : (Expr.binary op l r).infer types = .error err) (herr : err.inRun? = some err') :
    l.infer types = .error err ∨
      ∃ T, l.infer types = .ok T ∧ (∀ U ∈ op.leftType?, T = U) ∧ r.infer types = .error err := by
  -- The comparisons after both operands say nothing about names.
  have hnone : err.inRun? ≠ none := by rw [herr]; exact nofun
  cases op with
  | add | multiply | and =>
    rcases Ty.operands_of_inRun? h herr with hl | ⟨hl, hr⟩
    · exact .inl hl
    · exact .inr ⟨_, hl, fun U hU => Option.some.inj hU, hr⟩
  | equal =>
    rcases bind_eq_error.mp h with hl | ⟨T, hl, hrest⟩
    · exact .inl hl
    · rcases bind_eq_error.mp hrest with hr | ⟨U, -, hexpect⟩
      · exact .inr ⟨T, hl, nofun, hr⟩
      · exact absurd (Ty.inRun?_of_compared hexpect) hnone
  | cons =>
    rcases bind_eq_error.mp h with hl | ⟨T, hl, hrest⟩
    · exact .inl hl
    · rcases bind_eq_error.mp hrest with hr | ⟨L, -, htail⟩
      · exact .inr ⟨T, hl, nofun, hr⟩
      · rcases bind_eq_error.mp htail with helement | ⟨E, -, hexpect⟩
        · exact absurd (Ty.inRun?_of_element helement) hnone
        · exact absurd (Ty.inRun?_of_compared hexpect) hnone

/-- The left operand is evaluated first. -/
theorem eval_of_left {err : EvalError} (hl : l.eval values = .error err) :
    (Expr.binary op l r).eval values = .error err := by
  cases op <;> rw [eval, hl] <;> rfl

/-- The right operand is evaluated once the left one has a value that the operator can use, unless the
operator is `&&`. -/
theorem eval_of_right {v : Value} {err : EvalError} (hop : op ≠ .and) (hl : l.eval values = .ok v)
    (hv : HasType v T) (hT : ∀ U ∈ op.leftType?, T = U) (hr : r.eval values = .error err) :
    (Expr.binary op l r).eval values = .error err := by
  cases op with
  | add | multiply =>
    obtain rfl := hT .int rfl
    obtain ⟨n, rfl⟩ := hv.int_inv
    rw [eval, hl, hr]
    rfl
  | and => exact absurd rfl hop
  | equal | cons => rw [eval, hl, hr]; rfl

end Expr

/-- What the checker says of a name in some expressions, it says it of the first one, or of those
after it. -/
theorem Exprs.items_of_inRun? {e : Expr} {rest : Exprs} {err : TypeError} {err' : EvalError}
    (h : (Exprs.more e rest).infer types = .error err) (herr : err.inRun? = some err') :
    e.infer types = .error err ∨ ∃ T, e.infer types = .ok T ∧ rest.infer types = .error err := by
  have hnone : err.inRun? ≠ none := by rw [herr]; exact nofun
  rcases bind_eq_error.mp h with he | ⟨T, he, hrest⟩
  · exact .inl he
  · rcases bind_eq_error.mp hrest with hr | ⟨L, -, htail⟩
    · exact .inr ⟨T, he, hr⟩
    · rcases bind_eq_error.mp htail with helement | ⟨E, -, hexpect⟩
      · exact absurd (Ty.inRun?_of_element helement) hnone
      · exact absurd (Ty.inRun?_of_compared hexpect) hnone

/-- What the checker says of the only one of some expressions, it says of that one. -/
theorem Exprs.item_of_error {e : Expr} {err : TypeError}
    (h : (Exprs.one e).infer types = .error err) : e.infer types = .error err := by
  rcases bind_eq_error.mp h with he | ⟨T, -, hreturn⟩
  · exact he
  · cases hreturn

mutual

/-- An expression declares nothing, so that the checker does not say that it declares a name twice. -/
theorem Expr.infer_ne_alreadyDeclared {name : String} {position : Position} :
    ∀ {e : Expr}, e.infer types ≠ .error (.alreadyDeclared name position)
  | .unary op e, h => Expr.infer_ne_alreadyDeclared (Expr.operand_of_inRun? h rfl)
  | .binary op l r, h => by
    rcases Expr.operands_of_inRun? h rfl with hl | ⟨_, -, -, hr⟩
    · exact Expr.infer_ne_alreadyDeclared hl
    · exact Expr.infer_ne_alreadyDeclared hr
  | .int _, h | .bool _, h => by cases h
  | .list items, h => Exprs.infer_ne_alreadyDeclared h
  | .var ident, h => by
    rw [Expr.infer] at h
    split at h <;> cases h

theorem Exprs.infer_ne_alreadyDeclared {name : String} {position : Position} :
    ∀ {es : Exprs}, es.infer types ≠ .error (.alreadyDeclared name position)
  | .one e, h => Expr.infer_ne_alreadyDeclared (Exprs.item_of_error h)
  | .more e rest, h => by
    rcases Exprs.items_of_inRun? h rfl with he | ⟨_, -, hrest⟩
    · exact Expr.infer_ne_alreadyDeclared he
    · exact Exprs.infer_ne_alreadyDeclared hrest

end

mutual

/-- What the checker says of a name in an expression without `&&`, the evaluation says of it too. -/
theorem Expr.eval_of_infer_error (hs : ScopesTyped values types) {err : TypeError} {err' : EvalError}
    (herr : err.inRun? = some err') : ∀ {e : Expr}, e.hasAnd = false →
    e.infer types = .error err → e.eval values = .error err'
  | .unary op e, hand, h => by
    have he := Expr.eval_of_infer_error (e := e) hs herr hand (Expr.operand_of_inRun? h herr)
    cases op <;> rw [Expr.eval, he] <;> rfl
  | .binary op l r, hand, h => by
    simp only [Expr.hasAnd, Bool.or_eq_false_iff, decide_eq_false_iff_not] at hand
    obtain ⟨⟨hop, handl⟩, handr⟩ := hand
    rcases Expr.operands_of_inRun? h herr with hl | ⟨T, hl, hT, hr⟩
    · exact Expr.eval_of_left (Expr.eval_of_infer_error hs herr handl hl)
    · obtain ⟨v, hv, htype⟩ := (Expr.infer_eq_ok_iff.mp hl).eval hs
      exact Expr.eval_of_right hop hv htype hT (Expr.eval_of_infer_error hs herr handr hr)
  | .int _, _, h | .bool _, _, h => by cases h
  | .list items, hand, h => by
    rw [Expr.eval, Exprs.eval_of_infer_error hs herr hand h]
    rfl
  | .var ident, _, h => by
    rw [Expr.infer] at h
    split at h
    · cases h
    · next hlookup =>
      cases h
      cases herr
      rw [Expr.eval, hs.lookup?_eq_none hlookup]
      rfl

theorem Exprs.eval_of_infer_error (hs : ScopesTyped values types) {err : TypeError}
    {err' : EvalError} (herr : err.inRun? = some err') : ∀ {es : Exprs}, es.hasAnd = false →
    es.infer types = .error err → es.eval values = .error err'
  | .one e, hand, h => by
    rw [Exprs.eval, Expr.eval_of_infer_error hs herr hand (Exprs.item_of_error h)]
    rfl
  | .more e rest, hand, h => by
    obtain ⟨hande, handrest⟩ := Bool.or_eq_false_iff.mp hand
    rcases Exprs.items_of_inRun? h herr with he | ⟨T, he, hrest⟩
    · rw [Exprs.eval, Expr.eval_of_infer_error hs herr hande he]
      rfl
    · obtain ⟨v, hv, -⟩ := (Expr.infer_eq_ok_iff.mp he).eval hs
      rw [Exprs.eval, hv, Exprs.eval_of_infer_error hs herr handrest hrest]
      rfl

end

/-! ## Statements -/

variable {σ : Type} {m : Machine σ} {err : TypeError} {err' : EvalError}

/-- The machine has values of the types that the checker knows, no list among them is empty, and its
writer takes everything. -/
structure Machine.Fits [Writer σ] (m : Machine σ) (types : Scopes Ty) : Prop where
  typed : ScopesTyped m.scopes types
  solid : m.scopes.All Value.Solid
  accepts : Writer.Accepts m.sink

/-- What the checker says of a name in an expression, unless `&&` occurs in it. -/
theorem Running.eval_of_infer_error {e : Expr} (hs : ScopesTyped m.scopes types)
    (herr : err.inRun? = some err')
    (hand : (∃ name position, err = .alreadyDeclared name position) ∨ e.hasAnd = false)
    (h : Checking.infer e types = .error err types') : Running.eval e m = .error err' m := by
  have hinfer : e.infer types = .error err := by
    unfold Checking.infer at h
    split at h <;> cases h
    assumption
  rcases hand with ⟨name, position, rfl⟩ | hand
  · exact absurd hinfer Expr.infer_ne_alreadyDeclared
  · rw [Running.eval, Expr.eval_of_infer_error hs herr hand hinfer]

/-- What the checker says of a declaration, the machine says of it too. -/
theorem Running.declare_of_error {ident : Ident} {v : Value} (hs : ScopesTyped m.scopes types)
    (hv : HasType v T) (herr : err.inRun? = some err')
    (h : Checking.declare ident T types = .error err types') :
    Running.declare ident v m = .error err' m := by
  have hrel := Scopes.Agree.declare? hs (Set.mem_univ ident.name) hv
  unfold Checking.declare at h
  split at h
  · cases h
  · next hdeclare =>
    cases h
    cases herr
    rw [hdeclare] at hrel
    rw [Running.declare, eq_none_of_rel hrel]

/-- What the checker says of the name in an assignment, the machine says of it too. -/
theorem Running.assign_of_error {ident : Ident} (v : Value) (hs : ScopesTyped m.scopes types)
    (herr : err.inRun? = some err') (h : Checking.typeOf ident types = .error err types') :
    Running.assign ident v m = .error err' m := by
  unfold Checking.typeOf at h
  split at h
  · cases h
  · next hlookup =>
    cases h
    cases herr
    have hunbound : ¬ m.scopes.toList.any (·.binds ident.name) = true := by
      rw [← Scopes.isSome_lookup?, hs.lookup?_eq_none hlookup]
      exact nofun
    rw [Running.assign, Scopes.update?_eq_none hunbound]
    rfl

theorem Checking.ofExcept_eq_error {α : Type} {x : Except TypeError α}
    (h : Checking.ofExcept x types = .error err types') : x = .error err := by
  cases x with
  | ok a => cases h
  | error e => cases h; rfl

theorem Checking.inScope_eq_error {name : String} {body : Checking Unit}
    (h : Checking.inScope name T body types = .error err types') :
    ∃ after, body (types.enterWith name T) = .error err after := by
  unfold Checking.inScope at h
  split at h <;> cases h
  exact ⟨_, by assumption⟩

/-- A run in a scope of its own fails as its body does. -/
theorem Running.inScope_of_error {name : String} {v : Value} {body : Running σ Unit}
    {after : Machine σ} (h : body { m with scopes := m.scopes.enterWith name v } = .error err' after) :
    ∃ m', Running.inScope name v body m = .error err' m' :=
  ⟨_, by rw [Running.inScope, h]⟩

variable [Writer σ]

/-- An expression that the checker gives a type to has a value of that type. -/
theorem Machine.Fits.eval {e : Expr} (hm : m.Fits types)
    (h : Checking.infer e types = .ok T types') :
    ∃ v, Running.eval e m = .ok v m ∧ HasType v T ∧ v.Solid ∧ types' = types := by
  obtain ⟨he, rfl⟩ := Checking.infer_eq_ok_iff.mp h
  obtain ⟨v, hv, htype⟩ := he.eval hm.typed
  exact ⟨v, by rw [Running.eval, hv], htype, Expr.solid_of_eval hm.solid hv, rfl⟩

/-- The machine inside a scope that binds one name. -/
theorem Machine.Fits.enterWith {v : Value} (hm : m.Fits types) (name : String) (htype : HasType v T)
    (hsolid : v.Solid) :
    Machine.Fits { m with scopes := m.scopes.enterWith name v } (types.enterWith name T) :=
  ⟨hm.typed.enterWith name htype, hm.solid.enterWith name hsolid, hm.accepts⟩

/-- Statements that the checker accepts are run to their end, and the machine still fits. -/
theorem Machine.Fits.run_stmt {stmt : Stmt} (hm : m.Fits types)
    (h : stmt.check types = .ok () types') : ∃ m', stmt.run m = .ok () m' ∧ m'.Fits types' := by
  have hsound := (Stmt.typed_of_check h).run hm.typed
  have hsolid := Stmt.keepsSolid_run stmt hm.solid
  cases hrun : stmt.run m with
  | ok u m' =>
    obtain ⟨htyped, haccepts⟩ := hsound.of_ok hrun
    exact ⟨m', rfl, htyped, hsolid.of_ok hrun, haccepts hm.accepts⟩
  | error e m' => exact absurd hm.accepts (hsound.of_error hrun).2

mutual

/-- What the checker says of a name in a statement, the run says of it too, unless it is that the name
is not declared and `&&` occurs. -/
theorem Stmt.run_of_check_error (herr : err.inRun? = some err') :
    ∀ {stmt : Stmt} {types types' : Scopes Ty} {m : Machine σ}, m.Fits types →
    (∃ name position, err = .alreadyDeclared name position) ∨ stmt.hasAnd = false →
    stmt.check types = .error err types' → ∃ m', stmt.run m = .error err' m'
  | .declare ident e, types, types', m, hm, hand, h => by
    rcases step_bind_eq_error.mp h with hinfer | ⟨T, t, hinfer, hdeclare⟩
    · exact ⟨m, step_bind_eq_error.mpr
        (.inl (Running.eval_of_infer_error hm.typed herr hand hinfer))⟩
    · obtain ⟨v, hv, htype, -, rfl⟩ := hm.eval hinfer
      exact ⟨m, step_bind_eq_error.mpr
        (.inr ⟨v, m, hv, Running.declare_of_error hm.typed htype herr hdeclare⟩)⟩
  | .assign ident e, types, types', m, hm, hand, h => by
    rcases step_bind_eq_error.mp h with hinfer | ⟨T, t, hinfer, hrest⟩
    · exact ⟨m, step_bind_eq_error.mpr
        (.inl (Running.eval_of_infer_error hm.typed herr hand hinfer))⟩
    · obtain ⟨v, hv, -, -, rfl⟩ := hm.eval hinfer
      rcases step_bind_eq_error.mp hrest with htype | ⟨U, t', -, hexpect⟩
      · exact ⟨m, step_bind_eq_error.mpr
          (.inr ⟨v, m, hv, Running.assign_of_error v hm.typed herr htype⟩)⟩
      · have hexpect := Checking.ofExcept_eq_error (step_discard_eq_error.mp hexpect)
        rw [Ty.inRun?_of_expect hexpect] at herr
        cases herr
  | .print e, types, types', m, hm, hand, h => by
    have hinfer := step_discard_eq_error.mp h
    exact ⟨m, step_bind_eq_error.mpr
      (.inl (Running.eval_of_infer_error hm.typed herr hand hinfer))⟩
  | .forEach ident e body, types, types', m, hm, hand, h => by
    have hande := hand.imp_right fun h => (Bool.or_eq_false_iff.mp h).1
    have handbody := hand.imp_right fun h => (Bool.or_eq_false_iff.mp h).2
    rcases step_bind_eq_error.mp h with hinfer | ⟨L, t, hinfer, hrest⟩
    · exact ⟨m, step_bind_eq_error.mpr
        (.inl (Running.eval_of_infer_error hm.typed herr hande hinfer))⟩
    · obtain ⟨v, hv, htype, hsolid, rfl⟩ := hm.eval hinfer
      rcases step_bind_eq_error.mp hrest with helement | ⟨T, t', helement, hscope⟩
      · rw [Ty.inRun?_of_element (Checking.ofExcept_eq_error helement)] at herr
        cases herr
      · obtain ⟨hL, rfl⟩ := Checking.ofExcept_eq_ok_iff.mp helement
        obtain rfl := Ty.element_eq_ok.mp hL
        obtain ⟨after, hbody⟩ := Checking.inScope_eq_error hscope
        obtain ⟨items, rfl, hitems⟩ := htype.list_inv
        obtain ⟨hne, hall⟩ := hsolid.list_inv
        -- The list has a first element, and the body fails for it.
        obtain ⟨first, others, rfl⟩ := List.exists_cons_of_ne_nil hne
        have hfirst := hm.enterWith ident.name (hitems first List.mem_cons_self)
          (hall first List.mem_cons_self)
        obtain ⟨m₁, hrun⟩ := Block.run_of_check_error herr hfirst handbody hbody
        obtain ⟨m₂, hinside⟩ := Running.inScope_of_error hrun
        have hloop : Running.forEach (fun v => Running.inScope ident.name v body.run)
            (first :: others) m = .error err' m₂ := step_bind_eq_error.mpr (.inl hinside)
        exact ⟨m₂, step_bind_eq_error.mpr
          (.inr ⟨_, m, hv, step_bind_eq_error.mpr (.inr ⟨_, m, rfl, hloop⟩)⟩)⟩

theorem Block.run_of_check_error (herr : err.inRun? = some err') :
    ∀ {b : Block} {types types' : Scopes Ty} {m : Machine σ}, m.Fits types →
    (∃ name position, err = .alreadyDeclared name position) ∨ b.hasAnd = false →
    b.check types = .error err types' → ∃ m', b.run m = .error err' m'
  | .one stmt, types, types', m, hm, hand, h => Stmt.run_of_check_error herr hm hand h
  | .more stmt rest, types, types', m, hm, hand, h => by
    have handstmt := hand.imp_right fun h => (Bool.or_eq_false_iff.mp h).1
    have handrest := hand.imp_right fun h => (Bool.or_eq_false_iff.mp h).2
    rcases step_bind_eq_error.mp h with hstmt | ⟨_, t, hstmt, hrest⟩
    · obtain ⟨m', hm'⟩ := Stmt.run_of_check_error herr hm handstmt hstmt
      exact ⟨m', step_bind_eq_error.mpr (.inl hm')⟩
    · obtain ⟨m₁, hrun, hm₁⟩ := hm.run_stmt hstmt
      obtain ⟨m', hm'⟩ := Block.run_of_check_error herr hm₁ handrest hrest
      exact ⟨m', step_bind_eq_error.mpr (.inr ⟨_, m₁, hrun, hm'⟩)⟩

end

/-! ## Programs -/

/-- A program that declares a name twice in one scope fails for that reason also if it is run without
being checked; and a program without `&&` that uses a name without declaring it fails for that reason.
The name and the place are those that the checker gives, provided that all output is taken. -/
theorem scoping_errors_recur {w : σ} (hw : Writer.Accepts w) (program : Block) :
    (∀ name position, program.typing = .error (.alreadyDeclared name position) →
      ∃ m, program.execute (Machine.ofSink w) = .error (.alreadyDeclared name position) m) ∧
    (program.hasAnd = false →
      ∀ name position, program.typing = .error (.undeclared name position) →
        ∃ m, program.execute (Machine.ofSink w) = .error (.undeclared name position) m) := by
  have hfits : (Machine.ofSink w).Fits Scopes.empty := ⟨.empty, .empty, hw⟩
  have hmain : ∀ err err', err.inRun? = some err' →
      (∃ name position, err = .alreadyDeclared name position) ∨ program.hasAnd = false →
      program.typing = .error err → ∃ m, program.execute (Machine.ofSink w) = .error err' m := by
    intro err err' herr hand htyping
    unfold Block.typing at htyping
    split at htyping <;> cases htyping
    next hcheck =>
      obtain ⟨m, hrun⟩ := Block.run_of_check_error herr hfits hand hcheck
      exact ⟨m, step_bind_eq_error.mpr (.inl hrun)⟩
  constructor
  · intro name position htyping
    exact hmain _ _ rfl (.inl ⟨name, position, rfl⟩) htyping
  · intro hand name position htyping
    exact hmain _ _ rfl (.inr hand) htyping

/-- Two nested loops, with `last` as the last statement of the inner one. -/
def nestedLoops (last : Stmt) : Block :=
  let rows : Expr := .list (.more (.list (.one (.int 1))) (.one (.list (.one (.int 2)))))
  .one (.forEach ⟨"row", ⟨1, 5⟩⟩ rows (.one (.forEach ⟨"x", ⟨2, 5⟩⟩ (.var ⟨"row", ⟨2, 9⟩⟩)
    (.more (.print (.var ⟨"x", ⟨3, 7⟩⟩)) (.one last)))))

/-- The inner loop declares its own variable again, after `&&`; or it uses a name that nothing
declares. -/
theorem scoping_errors_recur_nestedLoops :
    let again : Stmt := .declare ⟨"x", ⟨4, 5⟩⟩ (.binary .and (.bool false) (.bool true))
    let unknown : Stmt := .assign ⟨"row", ⟨4, 1⟩⟩ (.list (.one (.var ⟨"y", ⟨4, 8⟩⟩)))
    Writer.Accepts Sink.unlimited ∧
      (nestedLoops again).typing = .error (.alreadyDeclared "x" ⟨4, 5⟩) ∧
      (∃ m, (nestedLoops again).execute (Machine.ofSink Sink.unlimited) =
        .error (.alreadyDeclared "x" ⟨4, 5⟩) m) ∧
      (nestedLoops unknown).hasAnd = false ∧
      (nestedLoops unknown).typing = .error (.undeclared "y" ⟨4, 8⟩) ∧
      ∃ m, (nestedLoops unknown).execute (Machine.ofSink Sink.unlimited) =
        .error (.undeclared "y" ⟨4, 8⟩) m := by
  intro again unknown
  have haccepts : Writer.Accepts Sink.unlimited := Sink.accepts rfl rfl
  have hagain : (nestedLoops again).typing = .error (.alreadyDeclared "x" ⟨4, 5⟩) := rfl
  have hand : (nestedLoops unknown).hasAnd = false := rfl
  have hunknown : (nestedLoops unknown).typing = .error (.undeclared "y" ⟨4, 8⟩) := rfl
  exact ⟨haccepts, hagain, (scoping_errors_recur haccepts _).1 _ _ hagain, hand, hunknown,
    (scoping_errors_recur haccepts _).2 hand _ _ hunknown⟩

end ListScript
