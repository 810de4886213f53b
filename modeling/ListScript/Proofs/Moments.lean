import ListScript.Proofs.ReachableValues

/-!
# The moments of a session

A session runs programs one after the other in one machine, also where some of them fail. It is
followed here one small step at a time, so that what holds between two steps can be said.

* `Job`, `Moment` : something to be done; what is to be done yet, the machine, and the error that is
  on its way to the end of its program;
* `Moment.next` : one step. An error skips the jobs before the next program, but ends the scopes that
  have begun;
* `Moment.Reaches` : one moment comes after another (`Moment.Reaches.trans`);
* `Moment.reaches_stmt`, `Moment.reaches_block`, `Moment.reaches_program`, `Moment.reaches_session` :
  the steps lead where the runs of the machine do;
* `Moment.Solid` : all values at a moment are integers, truth values and lists of such values that
  are not empty. One step keeps this (`Moment.Solid.next`), and so do all (`Moment.Solid.reaches`).
-/

namespace ListScript

/-- Something to be done. -/
inductive Job where
  | program (program : Block)
  | block (block : Block)
  | stmt (stmt : Stmt)
  /-- Runs a block once for every value, each time in a scope of its own. -/
  | rounds (ident : Ident) (values : List Value) (body : Block)
  /-- Ends the innermost scope. -/
  | leave
  | flush

/-- A moment of a session. -/
structure Moment (σ : Type) where
  jobs : List Job
  machine : Machine σ
  /-- The error that is on its way to the end of its program. -/
  error : Option EvalError := none

variable {σ : Type}

/-- The machine after some programs, one after the other, whether they fail or not. -/
def Machine.afterAll [Writer σ] (m : Machine σ) : List Block → Machine σ
  | [] => m
  | program :: rest => (stateAfter program.execute m).afterAll rest

namespace Moment

/-- The moment after a job that is done in one go. -/
def after (rest : List Job) : EStateM.Result EvalError (Machine σ) Unit → Moment σ
  | .ok _ m => ⟨rest, m, none⟩
  | .error e m => ⟨rest, m, some e⟩

/-- The moment after a loop has got its values. -/
def loop (ident : Ident) (body : Block) (rest : List Job) (m : Machine σ) :
    Except EvalError (List Value) → Moment σ
  | .ok values => ⟨.rounds ident values body :: rest, m, none⟩
  | .error e => ⟨rest, m, some e⟩

variable [Writer σ]

/-- The next moment, if nothing has gone wrong. -/
def advance (m : Machine σ) (rest : List Job) : Job → Moment σ
  | .program program => ⟨.block program :: .flush :: rest, m, none⟩
  | .block (.one stmt) => ⟨.stmt stmt :: rest, m, none⟩
  | .block (.more stmt block) => ⟨.stmt stmt :: .block block :: rest, m, none⟩
  | .stmt (.forEach ident items body) =>
    loop ident body rest m (items.eval m.scopes >>= fun list => narrow list.expectList)
  | .stmt stmt => after rest (stmt.run m)
  | .rounds _ [] _ => ⟨rest, m, none⟩
  | .rounds ident (value :: more) body =>
    ⟨.block body :: .leave :: .rounds ident more body :: rest,
      { m with scopes := m.scopes.enterWith ident.name value }, none⟩
  | .leave => ⟨rest, { m with scopes := m.scopes.exit }, none⟩
  | .flush => after rest (Running.output Writer.flush m)

/-- The next moment. -/
def next : Moment σ → Moment σ
  | ⟨[], m, error⟩ => ⟨[], m, error⟩
  | ⟨job :: rest, m, none⟩ => advance m rest job
  | ⟨.program program :: rest, m, some _⟩ => advance m rest (.program program)
  | ⟨.leave :: rest, m, some e⟩ => ⟨rest, { m with scopes := m.scopes.exit }, some e⟩
  | ⟨_ :: rest, m, some e⟩ => ⟨rest, m, some e⟩

/-- Some number of steps leads from one moment to the other. -/
def Reaches (c d : Moment σ) : Prop := ∃ n, next^[n] c = d

/-- The first moment of a session that runs some programs. -/
def start (programs : List Block) (sink : σ) : Moment σ :=
  ⟨programs.map .program, Machine.ofSink sink, none⟩

namespace Reaches

variable {c d e : Moment σ}

theorem refl (c : Moment σ) : Reaches c c := ⟨0, rfl⟩

theorem trans (h : Reaches c d) (h' : Reaches d e) : Reaches c e := by
  obtain ⟨n, rfl⟩ := h
  obtain ⟨k, rfl⟩ := h'
  exact ⟨k + n, Function.iterate_add_apply next k n c⟩

/-- A step, and what comes after it. -/
theorem step (h : Reaches c.next d) : Reaches c d := trans ⟨1, rfl⟩ h

end Reaches

/-! ## The steps of a run -/

variable {rest : List Job} {m : Machine σ}

/-- A run of two parts, if the second is a job that an error skips. -/
theorem reaches_bind {c : Moment σ} {job : Job} {x y : Running σ Unit}
    (hx : Reaches c (after (job :: rest) (x m)))
    (hy : ∀ m, Reaches ⟨job :: rest, m, none⟩ (after rest (y m)))
    (hskip : ∀ (m : Machine σ) e, next ⟨job :: rest, m, some e⟩ = ⟨rest, m, some e⟩) :
    Reaches c (after rest ((x >>= fun _ => y) m)) := by
  apply hx.trans
  show Reaches _ (after rest (EStateM.bind x (fun _ => y) m))
  unfold EStateM.bind
  cases x m with
  | ok u m' => exact hy m'
  | error e m' => exact .step (by rw [after, hskip]; exact .refl _)

/-- A round of a loop leads where a run in a scope of its own does. -/
theorem reaches_inScope {body : Block} (name : String) (v : Value)
    (hbody : ∀ rest (m : Machine σ),
      Reaches ⟨.block body :: rest, m, none⟩ (after rest (body.run m))) :
    Reaches ⟨.block body :: .leave :: rest, { m with scopes := m.scopes.enterWith name v }, none⟩
      (after rest (Running.inScope name v body.run m)) := by
  apply (hbody (.leave :: rest) _).trans
  unfold Running.inScope
  cases body.run { m with scopes := m.scopes.enterWith name v } with
  | ok u m' => exact ⟨1, rfl⟩
  | error e m' => exact ⟨1, rfl⟩

/-- A loop goes through its body for every value. -/
theorem reaches_rounds (ident : Ident) {body : Block}
    (hbody : ∀ rest (m : Machine σ),
      Reaches ⟨.block body :: rest, m, none⟩ (after rest (body.run m)))
    (values : List Value) (m : Machine σ) :
    Reaches ⟨.rounds ident values body :: rest, m, none⟩
      (after rest (Running.forEach (fun v => Running.inScope ident.name v body.run) values m)) := by
  induction values generalizing m with
  | nil => exact .step (.refl _)
  | cons v more ih =>
    apply Reaches.step
    apply reaches_bind _ ih fun _ _ => rfl
    exact reaches_inScope ident.name v hbody

mutual

/-- The steps of a statement lead where its run does. -/
theorem reaches_stmt : ∀ (stmt : Stmt) (rest : List Job) (m : Machine σ),
    Reaches ⟨.stmt stmt :: rest, m, none⟩ (after rest (stmt.run m))
  | .declare _ _, _, _ | .assign _ _, _, _ | .print _, _, _ => .step (.refl _)
  | .forEach ident items body, rest, m => by
    apply Reaches.step
    show Reaches (loop ident body rest m _) (after rest (EStateM.bind _ _ m))
    unfold EStateM.bind Running.eval
    cases items.eval m.scopes with
    | error e => exact .refl _
    | ok list =>
      show Reaches (loop ident body rest m (narrow list.expectList))
        (after rest (EStateM.bind _ _ m))
      cases narrow list.expectList with
      | error e => exact .refl _
      | ok values => exact reaches_rounds ident (reaches_block body) values m

/-- The steps of a block lead where its run does. -/
theorem reaches_block : ∀ (block : Block) (rest : List Job) (m : Machine σ),
    Reaches ⟨.block block :: rest, m, none⟩ (after rest (block.run m))
  | .one stmt, rest, m => .step (reaches_stmt stmt rest m)
  | .more stmt block, rest, m =>
    .step (reaches_bind (reaches_stmt stmt _ m) (reaches_block block rest) fun _ _ => rfl)

end

/-- The steps of a program lead where its execution does. -/
theorem reaches_program (program : Block) (rest : List Job) (m : Machine σ) (error : Option EvalError) :
    Reaches ⟨.program program :: rest, m, error⟩ (after rest (program.execute m)) := by
  have hrun : Reaches ⟨.block program :: .flush :: rest, m, none⟩
      (after rest (program.execute m)) :=
    reaches_bind (reaches_block program _ m) (fun _ => .step (.refl _)) fun _ _ => rfl
  cases error with
  | none => exact .step hrun
  | some e => exact .step hrun

/-- The steps of a session lead to the machine that its programs leave behind, one after the
other. -/
theorem reaches_session (programs : List Block) (m : Machine σ) (error : Option EvalError) :
    ∃ error', Reaches ⟨programs.map .program, m, error⟩
      ⟨[], m.afterAll programs, error'⟩ := by
  induction programs generalizing m error with
  | nil => exact ⟨error, .refl _⟩
  | cons program rest ih =>
    have hprogram := reaches_program program (rest.map .program) m error
    rw [Machine.afterAll, stateAfter]
    cases hr : program.execute m with
    | ok u m' =>
      rw [hr] at hprogram
      obtain ⟨error', hrest⟩ := ih m' none
      exact ⟨error', hprogram.trans hrest⟩
    | error e m' =>
      rw [hr] at hprogram
      obtain ⟨error', hrest⟩ := ih m' (some e)
      exact ⟨error', hprogram.trans hrest⟩

end Moment

/-! ## The values at a moment -/

/-- The values that a job is yet to give to its variable are such values. -/
def Job.Solid : Job → Prop
  | .rounds _ values _ => ∀ v ∈ values, v.Solid
  | _ => True

namespace Moment

/-- All values at a moment are such values, those of the variables and those of the rounds that are
yet to come. -/
structure Solid (c : Moment σ) : Prop where
  scopes : c.machine.scopes.All Value.Solid
  jobs : ∀ job ∈ c.jobs, job.Solid

namespace Solid

variable {rest : List Job} {m : Machine σ}

theorem after {r : EStateM.Result EvalError (Machine σ) Unit} (hr : KeepsSolid r)
    (hrest : ∀ job ∈ rest, job.Solid) : Solid (after rest r) := by
  cases hr with
  | ok hs => exact ⟨hs, hrest⟩
  | error hs => exact ⟨hs, hrest⟩

/-- A loop is to go through the elements of the value of an expression. -/
theorem loop {ident : Ident} {items : Expr} {body : Block} (hs : m.scopes.All Value.Solid)
    (hrest : ∀ job ∈ rest, job.Solid) :
    Solid (loop ident body rest m
      (items.eval m.scopes >>= fun list => narrow list.expectList)) := by
  cases hlist : items.eval m.scopes >>= fun list => narrow list.expectList with
  | error e => exact ⟨hs, hrest⟩
  | ok values =>
    obtain ⟨list, hv, hvalues⟩ := bind_eq_ok.mp hlist
    rw [narrow_eq_ok, Value.expectList_eq_ok] at hvalues
    subst hvalues
    have hlist := (Expr.solid_of_eval hs hv).list_inv
    exact ⟨hs, List.forall_mem_cons.mpr ⟨hlist.2, hrest⟩⟩

/-- A session begins without any values. -/
theorem start (programs : List Block) (sink : σ) : (start programs sink).Solid := by
  refine ⟨Scopes.All.empty, fun job hjob => ?_⟩
  obtain ⟨program, -, rfl⟩ := List.mem_map.mp hjob
  trivial

variable [Writer σ]

/-- A job makes no other values. -/
theorem advance (hs : m.scopes.All Value.Solid) (hrest : ∀ job ∈ rest, job.Solid) :
    ∀ job : Job, job.Solid → Solid (advance m rest job)
  | .program _, _ | .block (.more _ _), _ =>
    ⟨hs, List.forall_mem_cons.mpr ⟨trivial, List.forall_mem_cons.mpr ⟨trivial, hrest⟩⟩⟩
  | .block (.one _), _ => ⟨hs, List.forall_mem_cons.mpr ⟨trivial, hrest⟩⟩
  | .stmt (.declare ident e), _ => after (Stmt.keepsSolid_run (.declare ident e) hs) hrest
  | .stmt (.assign ident e), _ => after (Stmt.keepsSolid_run (.assign ident e) hs) hrest
  | .stmt (.print e), _ => after (Stmt.keepsSolid_run (.print e) hs) hrest
  | .stmt (.forEach _ _ _), _ => loop hs hrest
  | .rounds _ [] _, _ => ⟨hs, hrest⟩
  | .rounds ident (v :: more) body, hjob => by
    obtain ⟨hv, hmore⟩ := List.forall_mem_cons.mp hjob
    have hround : Job.Solid (.rounds ident more body) := hmore
    have hjobs := List.forall_mem_cons.mpr ⟨hround, hrest⟩
    exact ⟨hs.enterWith ident.name hv,
      List.forall_mem_cons.mpr ⟨trivial, List.forall_mem_cons.mpr ⟨trivial, hjobs⟩⟩⟩
  | .leave, _ => ⟨hs.exit, hrest⟩
  | .flush, _ => after (KeepsSolid.output hs _) hrest

/-- A step makes no other values. -/
theorem next {c : Moment σ} (hc : c.Solid) : c.next.Solid := by
  obtain ⟨jobs, m, error⟩ := c
  obtain ⟨hs, hjobs⟩ := hc
  cases jobs with
  | nil => exact ⟨hs, hjobs⟩
  | cons job rest =>
    obtain ⟨hjob, hrest⟩ := List.forall_mem_cons.mp hjobs
    cases error with
    | none => exact advance hs hrest job hjob
    | some e =>
      cases job with
      | program program => exact advance hs hrest (.program program) trivial
      | leave => exact ⟨hs.exit, hrest⟩
      | block | stmt | rounds | flush => exact ⟨hs, hrest⟩

/-- Nor does a number of steps. -/
theorem reaches {c d : Moment σ} (hc : c.Solid) (h : Reaches c d) : d.Solid := by
  obtain ⟨n, rfl⟩ := h
  induction n with
  | zero => exact hc
  | succ n ih => rw [Function.iterate_succ_apply']; exact ih.next

end Solid

/-- A loop with a list to go through begins its body with the first element of the list. -/
theorem next_next_forEach {ident : Ident} {items : Expr} {body : Block} {rest : List Job}
    {m : Machine σ} {v : Value} {more : List Value} [Writer σ]
    (h : items.eval m.scopes = .ok (.list (v :: more))) :
    next (next ⟨.stmt (.forEach ident items body) :: rest, m, none⟩) =
      ⟨.block body :: .leave :: .rounds ident more body :: rest,
        { m with scopes := m.scopes.enterWith ident.name v }, none⟩ := by
  have hloop : next ⟨.stmt (.forEach ident items body) :: rest, m, none⟩ =
      ⟨.rounds ident (v :: more) body :: rest, m, none⟩ := by
    rw [next, advance, h]
    rfl
  rw [hloop]
  rfl

end Moment

/-! ## Sessions -/

section

variable [Writer σ]

/-- At every moment of a session, which ends where its programs lead, the variables have integers,
truth values and lists of such values that are not empty, and so has every expression. So a loop
that has got a list begins its body with the first element of that list. -/
theorem session_values_solid (programs : List Block) (sink : σ) :
    (∃ error, Moment.Reaches (.start programs sink)
      ⟨[], (Machine.ofSink sink).afterAll programs, error⟩) ∧
    ∀ c : Moment σ, Moment.Reaches (.start programs sink) c →
      c.machine.scopes.All Value.Solid ∧
      (∀ (e : Expr) v, e.eval c.machine.scopes = .ok v → v.Solid) ∧
      ∀ ident (items : Expr) body rest list,
        c.jobs = .stmt (.forEach ident items body) :: rest → c.error = none →
        items.eval c.machine.scopes = .ok (.list list) →
        ∃ v more, list = v :: more ∧
          c.next.next = ⟨.block body :: .leave :: .rounds ident more body :: rest,
            { c.machine with scopes := c.machine.scopes.enterWith ident.name v }, none⟩ := by
  refine ⟨Moment.reaches_session programs (Machine.ofSink sink) none, fun c hreach => ?_⟩
  have hc := (Moment.Solid.start programs sink).reaches hreach
  refine ⟨hc.scopes, fun e v hv => Expr.solid_of_eval hc.scopes hv, ?_⟩
  intro ident items body rest list hjobs herror hlist
  obtain ⟨jobs, m, error⟩ := c
  obtain rfl : jobs = _ := hjobs
  obtain rfl : error = none := herror
  obtain ⟨hne, -⟩ := (Expr.solid_of_eval hc.scopes hlist).list_inv
  obtain ⟨v, more, rfl⟩ := List.exists_cons_of_ne_nil hne
  exact ⟨v, more, rfl, Moment.next_next_forEach hlist⟩

end

/-- Declares a list of lists, and fails inside the second of two loops. -/
def Block.stumbling : Block :=
  let one := Expr.list (.one (.int 1))
  let two := Expr.list (.more (.int 2) (.one (.int 3)))
  .more (.declare ⟨"lists", 1, 5⟩ (.list (.more one (.one two))))
    (.one (.forEach ⟨"list", 2, 5⟩ (.var ⟨"lists", 2, 13⟩)
      (.more (.forEach ⟨"n", 3, 5⟩ (.var ⟨"list", 3, 10⟩) (.one (.print (.var ⟨"n", 3, 23⟩))))
        (.one (.print (.var ⟨"missing", 4, 7⟩))))))

/-- The body of a loop that replaces the list it goes through. -/
def Block.replacing : Block :=
  .one (.assign ⟨"lists", 1, 22⟩ (.list (.one (.var ⟨"list", 1, 31⟩))))

/-- After a program that failed, the next one has its lists to go through. -/
theorem session_values_solid_stumbling :
    let lists : Expr := .var ⟨"lists", 1, 13⟩
    let c := Moment.next^[20] (.start
      [.stumbling, .one (.forEach ⟨"list", 1, 5⟩ lists .replacing)] Sink.unlimited)
    c.machine.sink.text = "1\n" ∧
    lists.eval c.machine.scopes = .ok (.list [.list [.int 1], .list [.int 2, .int 3]]) ∧
    ∃ v more, [.list [.int 1], .list [.int 2, .int 3]] = v :: more ∧
      c.next.next.jobs = [.block .replacing, .leave, .rounds ⟨"list", 1, 5⟩ more .replacing, .flush] := by
  intro lists c
  have hmoments := (session_values_solid
    [.stumbling, .one (.forEach ⟨"list", 1, 5⟩ lists .replacing)] Sink.unlimited).2
  obtain ⟨-, -, hloop⟩ := hmoments c ⟨20, rfl⟩
  have hlists : lists.eval c.machine.scopes =
      .ok (.list [.list [.int 1], .list [.int 2, .int 3]]) := rfl
  refine ⟨by decide +kernel, hlists, ?_⟩
  obtain ⟨v, more, hlist, hnext⟩ := hloop ⟨"list", 1, 5⟩ lists .replacing [.flush] _ rfl rfl hlists
  exact ⟨v, more, hlist, by rw [hnext]⟩

end ListScript
