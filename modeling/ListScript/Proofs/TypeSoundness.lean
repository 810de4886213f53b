import ListScript.Program
import ListScript.Proofs.TypingRules

/-!
# Well-typed programs do not go wrong

A machine runs programs one after the other, and a checker is told of each of them before. If the
checker accepts them all, then nothing but the writer can make a run fail, and the variables of the
machine have the types that the checker gives them.

* `HasType v T` : the value `v` has the type `T`;
* `Writer.Accepts` : whatever is written, in pieces and with flushes in between, is taken;
* `Expr.Typed.eval` : an expression has a value of its type;
* `Stmt.Typed.run`, `Block.Typed.run` : what holds of one run. The invariant is that the scopes of
  the checker and of the machine bind the same names, to types and to values of those types;
* `Program.run_eq_error` : why a run fails;
* `Session.check`, `Session.execute` : programs one after the other, and `typed_session_sound`.
-/

namespace ListScript

/-! ## The types of values -/

/-- A value has a type by its shape and by what it holds. -/
inductive HasType : Value → Ty → Prop
  | int (value : Int64) : HasType (.int value) .int
  | bool (value : Bool) : HasType (.bool value) .bool
  | string (value : String) : HasType (.string value) .string
  | list {items : List Value} {T : Ty} :
    (∀ item ∈ items, HasType item T) → HasType (.list items) (.list T)
  | none {T : Ty} : HasType (.option none) (.option T)
  | some {value : Value} {T : Ty} : HasType value T → HasType (.option (some value)) (.option T)

namespace HasType

theorem int_inv {v : Value} (h : HasType v .int) : ∃ n, v = .int n := by
  cases h; exact ⟨_, rfl⟩

theorem bool_inv {v : Value} (h : HasType v .bool) : ∃ b, v = .bool b := by
  cases h; exact ⟨_, rfl⟩

theorem list_inv {v : Value} {T : Ty} (h : HasType v (.list T)) :
    ∃ items, v = .list items ∧ ∀ item ∈ items, HasType item T := by
  cases h with
  | list hitems => exact ⟨_, rfl, hitems⟩

end HasType

/-! ## Expressions -/

/-- Every variable has a value of its type. -/
abbrev ScopesTyped (values : Scopes Value) (types : Scopes Ty) : Prop :=
  Scopes.Agree Set.univ HasType values types

variable {values : Scopes Value} {types types' : Scopes Ty} {T : Ty}

theorem ScopesTyped.lookup? (h : ScopesTyped values types) {name : String}
    (hl : types.lookup? name = some T) : ∃ v, values.lookup? name = some v ∧ HasType v T := by
  have hrel := Scopes.Agree.lookup? h (Set.mem_univ name)
  rw [hl] at hrel
  exact exists_of_rel_some hrel

mutual

/-- An expression of some type has a value of that type. -/
theorem Expr.Typed.eval (hs : ScopesTyped values types) :
    ∀ {e : Expr} {T : Ty}, Expr.Typed types e T → ∃ v, e.eval values = .ok v ∧ HasType v T
  | _, _, .negate he => by
    obtain ⟨_, hv, hT⟩ := he.eval hs
    obtain ⟨n, rfl⟩ := hT.int_inv
    exact ⟨.int (-n), by rw [Expr.eval, hv]; rfl, .int _⟩
  | _, _, .not he => by
    obtain ⟨_, hv, hT⟩ := he.eval hs
    obtain ⟨b, rfl⟩ := hT.bool_inv
    exact ⟨.bool !b, by rw [Expr.eval, hv]; rfl, .bool _⟩
  | _, _, .add hl hr => by
    obtain ⟨_, hv, hT⟩ := hl.eval hs
    obtain ⟨_, hw, hU⟩ := hr.eval hs
    obtain ⟨m, rfl⟩ := hT.int_inv
    obtain ⟨n, rfl⟩ := hU.int_inv
    exact ⟨.int (m + n), by rw [Expr.eval, hv, hw]; rfl, .int _⟩
  | _, _, .multiply hl hr => by
    obtain ⟨_, hv, hT⟩ := hl.eval hs
    obtain ⟨_, hw, hU⟩ := hr.eval hs
    obtain ⟨m, rfl⟩ := hT.int_inv
    obtain ⟨n, rfl⟩ := hU.int_inv
    exact ⟨.int (m * n), by rw [Expr.eval, hv, hw]; rfl, .int _⟩
  | _, _, .and hl hr => by
    obtain ⟨_, hv, hT⟩ := hl.eval hs
    obtain ⟨_, hw, hU⟩ := hr.eval hs
    obtain ⟨a, rfl⟩ := hT.bool_inv
    obtain ⟨b, rfl⟩ := hU.bool_inv
    cases a with
    | true => exact ⟨.bool b, by rw [Expr.eval, hv, hw]; rfl, .bool _⟩
    | false => exact ⟨.bool false, by rw [Expr.eval, hv]; rfl, .bool _⟩
  | _, _, .equal hl hr => by
    obtain ⟨v, hv, -⟩ := hl.eval hs
    obtain ⟨w, hw, -⟩ := hr.eval hs
    exact ⟨.bool (v = w), by rw [Expr.eval, hv, hw]; rfl, .bool _⟩
  | _, _, .cons hl hr => by
    obtain ⟨v, hv, hT⟩ := hl.eval hs
    obtain ⟨_, hw, hU⟩ := hr.eval hs
    obtain ⟨items, rfl, hitems⟩ := hU.list_inv
    refine ⟨.list (v :: items), by rw [Expr.eval, hv, hw]; rfl, .list ?_⟩
    exact List.forall_mem_cons.2 ⟨hT, hitems⟩
  | _, _, .int value => ⟨_, rfl, .int value⟩
  | _, _, .bool value => ⟨_, rfl, .bool value⟩
  | _, _, .list hitems => by
    obtain ⟨items, hv, hT⟩ := hitems.eval hs
    exact ⟨.list items, by rw [Expr.eval, hv]; rfl, .list hT⟩
  | _, _, .var hl => by
    obtain ⟨v, hv, hT⟩ := hs.lookup? hl
    exact ⟨v, by rw [Expr.eval, hv], hT⟩

theorem Exprs.Typed.eval (hs : ScopesTyped values types) : ∀ {es : Exprs} {T : Ty},
    Exprs.Typed types es T → ∃ vs, es.eval values = .ok vs ∧ ∀ v ∈ vs, HasType v T
  | _, _, .one he => by
    obtain ⟨v, hv, hT⟩ := he.eval hs
    exact ⟨[v], by rw [Exprs.eval, hv]; rfl, List.forall_mem_singleton.2 hT⟩
  | _, _, .more he hrest => by
    obtain ⟨v, hv, hT⟩ := he.eval hs
    obtain ⟨vs, hvs, hTs⟩ := hrest.eval hs
    exact ⟨v :: vs, by rw [Exprs.eval, hv, hvs]; rfl, List.forall_mem_cons.2 ⟨hT, hTs⟩⟩

end

/-! ## Writers that take everything -/

variable {σ : Type} [Writer σ]

namespace Writer

/-- Writes a piece; `none` stands for a flush. -/
def answer : Option (List UInt8) → EStateM String σ Unit
  | some bytes => Writer.take bytes
  | none => Writer.flush

/-- Writes the given pieces one after the other. -/
def play : List (Option (List UInt8)) → EStateM String σ Unit
  | [] => pure ()
  | piece :: rest => do
    answer piece
    play rest

/-- The writer takes whatever is written to it, now and later. -/
def Accepts (w : σ) : Prop := ∀ script, ∃ after, play script w = .ok () after

theorem Accepts.answer {w : σ} (h : Accepts w) (piece : Option (List UInt8)) :
    ∃ after, answer piece w = .ok () after ∧ Accepts after := by
  obtain ⟨_, hone⟩ := h [piece]
  obtain ⟨_, after, hanswer, -⟩ := step_bind_eq_ok.1 hone
  refine ⟨after, hanswer, fun script => ?_⟩
  obtain ⟨last, hplay⟩ := h (piece :: script)
  obtain ⟨_, after', hanswer', hrest⟩ := step_bind_eq_ok.1 hplay
  cases hanswer.symm.trans hanswer'
  exact ⟨last, hrest⟩

end Writer

/-- A sink without a bound that flushes takes everything. -/
theorem Sink.accepts {s : Sink} (room : s.room = none) (flushes : s.flushFails = false) :
    Writer.Accepts s := by
  intro script
  induction script generalizing s with
  | nil => exact ⟨s, rfl⟩
  | cons piece rest ih =>
    cases piece with
    | none =>
      obtain ⟨last, hlast⟩ := ih room flushes
      have hflush : Sink.flush s = .ok () s := by rw [Sink.flush, flushes]; rfl
      exact ⟨last, step_bind_eq_ok.2 ⟨_, _, hflush, hlast⟩⟩
    | some bytes =>
      have htake : Sink.take bytes s = .ok () { s with written := s.written ++ bytes } := by
        rw [Sink.take, room]
      obtain ⟨last, hlast⟩ := ih (s := { s with written := s.written ++ bytes }) room flushes
      exact ⟨last, step_bind_eq_ok.2 ⟨_, _, htake, hlast⟩⟩

/-! ## Statements -/

/-- How a run may end that began with the writer `w`: with the given types for the variables, or
because the writer did not take something. -/
def Sound (w : σ) (types : Scopes Ty) : EStateM.Result EvalError (Machine σ) Unit → Prop :=
  Ends (fun _ m => ScopesTyped m.scopes types ∧ (Writer.Accepts w → Writer.Accepts m.sink))
    fun e _ => (∃ cause, e = .output cause) ∧ ¬ Writer.Accepts w

variable {m : Machine σ}

namespace Sound

/-- A run that goes on where a sound one ended. -/
theorem bind {w : σ} {x : Running σ Unit} {y : Unit → Running σ Unit}
    (hx : Sound w types (x m))
    (hy : ∀ m', ScopesTyped m'.scopes types → Sound m'.sink types' (y () m')) :
    Sound w types' ((x >>= y) m) := by
  refine Ends.bind hx fun _ m' hm' => ?_
  obtain ⟨hs, hw⟩ := hm'
  exact (hy m' hs).mono (fun _ _ h => ⟨h.1, h.2 ∘ hw⟩) (fun _ _ h => ⟨h.1, h.2 ∘ hw⟩)

/-- A run that first evaluates an expression. -/
theorem eval {e : Expr} {y : Value → Running σ Unit} (hs : ScopesTyped m.scopes types)
    (he : Expr.Typed types e T) (hy : ∀ v, HasType v T → Sound m.sink types' (y v m)) :
    Sound m.sink types' ((Running.eval e >>= y) m) := by
  obtain ⟨v, hv, hT⟩ := he.eval hs
  have heval : Ends (fun a t => a = v ∧ t = m) (fun _ _ => False) (Running.eval e m) := by
    rw [Running.eval, hv]
    exact .ok ⟨rfl, rfl⟩
  refine Ends.bind (heval.mono (fun _ _ h => h) fun _ _ h => h.elim) fun a t hat => ?_
  obtain ⟨rfl, rfl⟩ := hat
  exact hy a hT

/-- Output fails only if the writer does not take it. -/
theorem output (hs : ScopesTyped m.scopes types) (piece : Option (List UInt8)) :
    Sound m.sink types (Running.output (Writer.answer piece) m) := by
  unfold Running.output
  cases hr : Writer.answer piece m.sink with
  | ok u after =>
    refine .ok ⟨hs, fun hw => ?_⟩
    obtain ⟨_, hafter, hacc⟩ := hw.answer piece
    cases hr.symm.trans hafter
    exact hacc
  | error cause after =>
    refine .error ⟨⟨cause, rfl⟩, fun hw => ?_⟩
    obtain ⟨_, hafter, -⟩ := hw.answer piece
    cases hr.symm.trans hafter

/-- A run in a scope of its own. -/
theorem inScope {body : Running σ Unit} {name : String} {v : Value} {inner : Scope Ty}
    (hs : ScopesTyped m.scopes types) (hT : HasType v T)
    (hbody : ∀ m', ScopesTyped m'.scopes (types.enterWith name T) →
      Sound m'.sink ⟨inner, types.toList⟩ (body m')) :
    Sound m.sink types (Running.inScope name v body m) := by
  have hend := hbody { m with scopes := m.scopes.enterWith name v } (hs.enterWith name hT)
  unfold Running.inScope
  cases hr : body { m with scopes := m.scopes.enterWith name v } with
  | ok u after =>
    obtain ⟨hs', hw⟩ := hend.of_ok hr
    exact .ok ⟨hs'.exit, hw⟩
  | error e after => exact .error (hend.of_error hr)

/-- A run for every one of some values. -/
theorem forEach {step : Value → Running σ Unit} {values : List Value}
    (hvalues : ∀ v ∈ values, HasType v T)
    (hstep : ∀ v m', HasType v T → ScopesTyped m'.scopes types → Sound m'.sink types (step v m'))
    (hs : ScopesTyped m.scopes types) : Sound m.sink types (Running.forEach step values m) := by
  induction values generalizing m with
  | nil => exact .ok ⟨hs, id⟩
  | cons v rest ih =>
    obtain ⟨hv, hrest⟩ := List.forall_mem_cons.1 hvalues
    exact bind (hstep v m hv hs) fun m' hs' => ih hrest hs'

end Sound

mutual

/-- A statement that the rules allow runs soundly. -/
theorem Stmt.Typed.run : ∀ {stmt : Stmt} {types types' : Scopes Ty} {m : Machine σ},
    Stmt.Typed types stmt types' → ScopesTyped m.scopes types → Sound m.sink types' (stmt.run m)
  | .declare ident e, types, _, m, .declare he hfree, hs => by
    refine Sound.eval hs he fun v hT => ?_
    have hrel := Scopes.Agree.declare? hs (Set.mem_univ ident.name) hT
    rw [Scopes.declare?_of_free hfree] at hrel
    obtain ⟨scopes, hdeclare, hs'⟩ := exists_of_rel_some hrel
    rw [Running.declare, hdeclare]
    exact .ok ⟨hs', id⟩
  | .assign ident e, types, _, m, .assign he hl, hs => by
    refine Sound.eval hs he fun v hT => ?_
    obtain ⟨scopes, hupdate, hs'⟩ := Scopes.Agree.update?_left hs (Set.mem_univ _) hl hT
    rw [Running.assign, hupdate]
    exact .ok ⟨hs', id⟩
  | .print e, types, _, m, .print he, hs => by
    refine Sound.eval hs he fun v _ => ?_
    exact Sound.output hs (some _)
  | .forEach ident e body, types, _, m, .forEach he hbody, hs => by
    refine Sound.eval hs he fun v hT => ?_
    obtain ⟨items, rfl, hitems⟩ := hT.list_inv
    refine Sound.forEach hitems (fun v m' hv hs' => ?_) hs
    exact Sound.inScope hs' hv fun m'' hs'' => hbody.run hs''

theorem Block.Typed.run : ∀ {b : Block} {types types' : Scopes Ty} {m : Machine σ},
    Block.Typed types b types' → ScopesTyped m.scopes types → Sound m.sink types' (b.run m)
  | _, _, _, _, .one h, hs => h.run hs
  | _, _, _, _, .more h hrest, hs => Sound.bind (h.run hs) fun _ hs' => hrest.run hs'

end

theorem Block.Typed.execute {b : Block} (h : Block.Typed types b types')
    (hs : ScopesTyped m.scopes types) : Sound m.sink types' (b.execute m) :=
  Sound.bind (h.run hs) fun _ hs' => Sound.output hs' none

/-! ## Sessions -/

namespace Session

/-- Checks programs one after the other, each with the types that those before it declared. -/
def check : List Block → Checking Unit
  | [] => pure ()
  | program :: rest => do
    program.check
    check rest

/-- Runs programs one after the other, each with the variables that those before it left. The first
run that fails ends the session. -/
def execute : List Block → Running σ Unit
  | [] => pure ()
  | program :: rest => do
    program.execute
    execute rest

theorem sound_execute {programs : List Block} {u : Unit}
    (h : check programs types = .ok u types') (hs : ScopesTyped m.scopes types) :
    Sound m.sink types' (execute programs m) := by
  induction programs generalizing m types with
  | nil => cases h; exact .ok ⟨hs, id⟩
  | cons program rest ih =>
    obtain ⟨_, _, hcheck, hrest⟩ := step_bind_eq_ok.1 h
    exact Sound.bind ((Block.typed_of_check hcheck).execute hs) fun _ hs' => ih hrest hs'

end Session

/-! ## Runs that fail -/

namespace Program

/-- Checking the types of a program gives the program back. -/
theorem checked_eq_ok {typecheck : Bool} {program program' : Block}
    (h : checked typecheck program = .ok program') :
    program' = program ∧ (typecheck = true → ∃ types, program.check Scopes.empty = .ok () types) := by
  unfold checked Block.typing at h
  split at h
  · cases hcheck : program.check Scopes.empty with
    | ok _ types => rw [hcheck] at h; cases h; exact ⟨rfl, fun _ => ⟨types, rfl⟩⟩
    | error e types => rw [hcheck] at h; cases h
  · next hfalse => cases h; exact ⟨rfl, fun htrue => absurd htrue hfalse⟩

theorem checked_eq_error {typecheck : Bool} {program : Block} {e : TypeError}
    (h : checked typecheck program = .error e) :
    ∃ types, program.check Scopes.empty = .error e types := by
  unfold checked Block.typing at h
  split at h
  · cases hcheck : program.check Scopes.empty with
    | ok _ types => rw [hcheck] at h; cases h
    | error e' types => rw [hcheck] at h; cases h; exact ⟨types, rfl⟩
  · cases h

/-- A run that fails has failed to read the program, to check it or to evaluate it. -/
theorem run_eq_error {source : Source} {typecheck : Bool} {w after : σ} {failure : Failure}
    (h : run source typecheck w = .error (.error failure) after) :
    (∃ e s, parse (TokenStream.ofSource Lexicon.standard source) = .error (.error e) s ∧
      failure = .grammar e) ∨
    ∃ program s, parse (TokenStream.ofSource Lexicon.standard source) = .ok program s ∧
      ((∃ e types, program.check Scopes.empty = .error e types ∧ failure = .typing e) ∨
        ∃ e m, program.execute (Machine.ofSink w) = .error e m ∧
          (typecheck = true → ∃ types, program.check Scopes.empty = .ok () types) ∧
          failure = .evaluation e) := by
  unfold run read at h
  cases hparse : parse (TokenStream.ofSource Lexicon.standard source) with
  | error stop s =>
    rw [hparse] at h
    cases stop with
    | defect defect => cases h
    | error e => cases h; exact .inl ⟨e, s, rfl, rfl⟩
  | ok program s =>
    rw [hparse] at h
    refine .inr ⟨program, s, rfl, ?_⟩
    dsimp only at h
    split at h
    · next e hchecked =>
      cases h
      obtain ⟨types, hcheck⟩ := checked_eq_error hchecked
      exact .inl ⟨e, types, hcheck, rfl⟩
    · next program' hchecked =>
      obtain ⟨rfl, htypes⟩ := checked_eq_ok hchecked
      split at h
      · cases h
      · next e m hexecute => cases h; exact .inr ⟨e, m, hexecute, htypes, rfl⟩

/-- The types of a program that is run are checked before. -/
theorem execute_of_run {source : Source} {w after : σ} {e : EvalError}
    (h : run source true w = .error (.error (.evaluation e)) after) :
    ∃ program types m, Block.check program Scopes.empty = .ok () types ∧
      program.execute (Machine.ofSink w) = .error e m := by
  obtain ⟨_, _, -, hfailure⟩ | ⟨program, s, -, hfails⟩ := run_eq_error h
  · cases hfailure
  · obtain ⟨_, _, -, hfailure⟩ | ⟨_, m, hexecute, htypes, hfailure⟩ := hfails <;> cases hfailure
    obtain ⟨types, hcheck⟩ := htypes rfl
    exact ⟨program, types, m, hcheck, hexecute⟩

end Program

/-- After programs that the checker accepted one after the other, exactly the variables with a type
have a value, and it is of that type; only a writer that does not take everything can stop such a
session, and it does so with its own error. This holds after every program, since the programs up
to it are a session of their own. A program whose types are checked before it is run fails in the
run with an error of the writer or not at all. -/
theorem typed_session_sound (w : σ) :
    (∀ programs types, Session.check programs Scopes.empty = .ok () types →
      Ends (fun _ m => ∀ name, Option.Rel HasType (m.scopes.lookup? name) (types.lookup? name))
        (fun e _ => (∃ cause, e = .output cause) ∧ ¬ Writer.Accepts w)
        (Session.execute programs (Machine.ofSink w))) ∧
    ∀ source e after, Program.run source true w = .error (.error (.evaluation e)) after →
      ∃ cause, e = .output cause := by
  constructor
  · intro programs types h
    have hsound := Session.sound_execute (m := Machine.ofSink w) h Scopes.Agree.empty
    refine hsound.mono (fun _ m hm name => ?_) fun _ _ he => he
    exact Scopes.Agree.lookup? hm.1 (Set.mem_univ name)
  · intro source e after h
    obtain ⟨program, types, m, hcheck, hrun⟩ := Program.execute_of_run h
    have hsound := (Block.typed_of_check hcheck).execute (m := Machine.ofSink w) Scopes.Agree.empty
    exact (hsound.of_error hrun).1

/-- Two programs: nested loops with a conjunction, an assignment to an outer variable and a name
that is declared again inside; then a loop over the list that they left. -/
def Session.nestedLoops : List Block :=
  let ident (name : String) : Ident := ⟨name, ⟨1, 1⟩⟩
  let get (name : String) : Expr := .var (ident name)
  let xs : Stmt := .declare (ident "xs") (.binary .cons (.int 1) (.list (.one (.int 2))))
  let inner : Stmt := .forEach (ident "y") (get "xs")
    (.more (.declare (ident "xs") (.binary .and (.binary .equal (get "x") (get "y")) (.bool true)))
      (.one (.print (get "xs"))))
  let outer : Stmt := .forEach (ident "x") (get "xs")
    (.more inner (.one (.assign (ident "xs") (.binary .cons (get "x") (get "xs")))))
  [.more xs (.one outer), .one (.forEach (ident "x") (get "xs") (.one (.print (get "x"))))]

/-- The nested loops run to their end where everything is taken, and a program whose output is not
taken fails for that reason. -/
theorem typed_session_sound_nestedLoops :
    Session.check Session.nestedLoops Scopes.empty = .ok () ⟨[("xs", .list .int)], []⟩ ∧
      (∃ m, Session.execute Session.nestedLoops (Machine.ofSink Sink.unlimited) = .ok () m ∧
        Option.Rel HasType (m.scopes.lookup? "xs") (some (.list .int))) ∧
      Program.run (Source.ofText "print 1") true (⟨#[], some 0, false⟩ : Sink) =
        .error (.error (.evaluation (.output Sink.full))) ⟨#[], some 0, false⟩ ∧
      ∃ cause, EvalError.output Sink.full = .output cause := by
  have hcheck : Session.check Session.nestedLoops Scopes.empty =
    .ok () ⟨[("xs", .list .int)], []⟩ := rfl
  have hends := (typed_session_sound Sink.unlimited).1 _ _ hcheck
  have hfull : Program.run (Source.ofText "print 1") true (⟨#[], some 0, false⟩ : Sink) =
    .error (.error (.evaluation (.output Sink.full))) ⟨#[], some 0, false⟩ := by cbv
  refine ⟨hcheck, ?_, hfull, (typed_session_sound _).2 _ _ _ hfull⟩
  cases hrun : Session.execute Session.nestedLoops (Machine.ofSink Sink.unlimited) with
  | ok u m => exact ⟨m, rfl, hends.of_ok hrun "xs"⟩
  | error e m => exact absurd (Sink.accepts rfl rfl) (hends.of_error hrun).2

end ListScript
