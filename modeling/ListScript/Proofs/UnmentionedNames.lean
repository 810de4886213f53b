import ListScript.Proofs.Relabelling

/-!
# Names that a program does not mention

Two runs of a program that begin with the same values for the names that it mentions go the same way,
step by step, whatever else the scopes bind, and neither of them touches anything else.

* `Scopes.relabels_agree` : scopes that agree on some names;
* `Writer.bytes`, `Sink.written_of_play` : the bytes that a writer has been given;
* `Machine.Alike` : two machines that agree on some names and have written the same;
* `Block.endAlike_run`, `Block.endAlike_check` : two runs and two checks end alike;
* `unmentioned_names` : both for whole programs.
-/

namespace ListScript

variable {N : Set String}

/-! ## Scopes that agree -/

/-- Stacks that agree on some names go on to do so. -/
theorem Scopes.relabels_agree {α : Type} :
    Scopes.Relabels (α := α) id N fun _ => Scopes.Agree N Eq where
  lookup h _ hname := (h.lookup?_eq hname).symm
  declare h _ _ hname := h.declare? hname rfl
  update h _ _ hname := h.update? hname rfl
  enter h ident _ _ := h.enterWith ident.name rfl
  exit h := h.exit

variable {σ τ : Type} [Writer σ] [Writer τ] {m : Machine σ}

/-! ## What has been written -/

namespace Writer

/-- The bytes of some pieces. -/
def bytes (script : List (Option (List UInt8))) : List UInt8 := script.flatMap fun piece => piece.getD []

theorem play_append (script script' : List (Option (List UInt8))) :
    (play (script ++ script') : EStateM String σ Unit) = play script >>= fun _ => play script' := by
  induction script with
  | nil => exact (pure_bind _ _).symm
  | cons piece rest ih => rw [List.cons_append, play, play, ih, bind_assoc]

/-- Writing on. -/
theorem play_concat {script : List (Option (List UInt8))} {piece : Option (List UInt8)} {w v u : σ}
    (h : play script w = .ok () v) (hpiece : answer piece v = .ok () u) :
    play (script ++ [piece]) w = .ok () u := by
  rw [play_append]
  exact step_bind_eq_ok.2 ⟨_, v, h, step_bind_eq_ok.2 ⟨_, u, hpiece, rfl⟩⟩

/-- A writer that takes everything still does so after some of it. -/
theorem Accepts.play {script : List (Option (List UInt8))} {w v : σ} (h : Accepts w)
    (hplay : Writer.play script w = .ok () v) : Accepts v := by
  intro more
  obtain ⟨u, hu⟩ := h (script ++ more)
  rw [play_append] at hu
  obtain ⟨_, v', hv, hmore⟩ := step_bind_eq_ok.1 hu
  cases hplay.symm.trans hv
  exact ⟨u, hmore⟩

end Writer

/-- What a sink has taken grows by the bytes that it has been given. -/
theorem Sink.written_of_play {script : List (Option (List UInt8))} {s t : Sink}
    (h : Writer.play script s = .ok () t) : t.written.toList = s.written.toList ++ Writer.bytes script := by
  induction script generalizing s with
  | nil => cases h; simp [Writer.bytes]
  | cons piece rest ih =>
    obtain ⟨_, u, hpiece, hrest⟩ := step_bind_eq_ok.1 h
    rw [ih hrest]
    cases piece with
    | none =>
      have hu : u = s := by
        unfold Writer.answer at hpiece
        change Sink.flush s = _ at hpiece
        unfold flush at hpiece
        split at hpiece <;> cases hpiece
        rfl
      rw [hu]
      rfl
    | some bytes =>
      have hu : u.written.toList = s.written.toList ++ bytes := by
        change Sink.take bytes s = _ at hpiece
        unfold take at hpiece
        split at hpiece
        · cases hpiece
          simp
        · dsimp only at hpiece
          split at hpiece
          · next hfit =>
            cases hpiece
            simp [List.take_of_length_le hfit]
          · cases hpiece
      rw [hu, List.append_assoc]
      rfl

/-! ## Two runs -/

/-- The two machines agree on some names, their writers take everything, and these have been given
the same since they were `w` and `w'`. -/
structure Machine.Alike (N : Set String) (w : σ) (w' : τ) (m : Machine σ) (m' : Machine τ) : Prop where
  scopes : Scopes.Agree N Eq m.scopes m'.scopes
  left : Writer.Accepts m.sink
  right : Writer.Accepts m'.sink
  written : ∃ script, Writer.play script w = .ok () m.sink ∧ Writer.play script w' = .ok () m'.sink

variable {w : σ} {w' : τ} {m' : Machine τ}

/-- The two writers take everything, and have been given the same since they were `w` and `w'`. -/
structure Writer.Together (w : σ) (w' : τ) (v : σ) (v' : τ) : Prop where
  left : Accepts v
  right : Accepts v'
  written : ∃ script, play script w = .ok () v ∧ play script w' = .ok () v'

/-- Both take the next piece. -/
theorem Writer.alike_together : Writer.Alike (Together w w') := by
  intro piece v v' h
  obtain ⟨u, hu, hleft⟩ := h.left.answer piece
  obtain ⟨u', hu', hright⟩ := h.right.answer piece
  obtain ⟨script, hscript, hscript'⟩ := h.written
  rw [hu, hu']
  exact .ok ⟨hleft, hright, script ++ [piece], play_concat hscript hu, play_concat hscript' hu'⟩

namespace Machine.Alike

theorem refl (h : Scopes.Agree N Eq m.scopes m'.scopes) (left : Writer.Accepts m.sink)
    (right : Writer.Accepts m'.sink) : Alike N m.sink m'.sink m m' :=
  ⟨h, left, right, [], rfl, rfl⟩

theorem related_eq : Machine.Related (Scopes.Agree N Eq) (Writer.Together w w') = Alike N w w' := by
  funext m m'
  apply propext
  constructor
  · exact fun h => ⟨h.scopes, h.sink.left, h.sink.right, h.sink.written⟩
  · exact fun h => ⟨h.scopes, h.left, h.right, h.written⟩

end Machine.Alike

/-- Two runs of a block end alike if the machines agree on its names. -/
theorem Block.endAlike_run {block : Block} (hnames : ∀ name ∈ block.names, name ∈ N)
    (h : Machine.Alike N w w' m m') :
    EndAlike Eq (Machine.Alike N w w') (block.run m) (block.run m') := by
  rw [← Machine.Alike.related_eq] at h ⊢
  have hrun := Block.endAlike_run_relabel (n := 0) Scopes.relabels_agree Writer.alike_together hnames h
  rwa [Block.relabel_eq_self (f := id) (fun _ _ => rfl) hnames, EvalError.isRelabelled_id] at hrun

theorem Block.endAlike_execute {program : Block} (hnames : ∀ name ∈ program.names, name ∈ N)
    (h : Machine.Alike N w w' m m') :
    EndAlike Eq (Machine.Alike N w w') (program.execute m) (program.execute m') := by
  rw [← Machine.Alike.related_eq] at h ⊢
  have hrun :=
    Block.endAlike_execute_relabel (n := 0) Scopes.relabels_agree Writer.alike_together hnames h
  rwa [Block.relabel_eq_self (f := id) (fun _ _ => rfl) hnames, EvalError.isRelabelled_id] at hrun

/-! ## Two checks -/

/-- Two checks of a block end alike if the scopes agree on its names. -/
theorem Block.endAlike_check {block : Block} {s t : Scopes Ty}
    (hnames : ∀ name ∈ block.names, name ∈ N) (h : Scopes.Agree N Eq s t) :
    EndAlike Eq (Scopes.Agree N Eq) (block.check s) (block.check t) := by
  have hcheck := Block.endAlike_check_relabel (n := 0) Scopes.relabels_agree hnames h
  rwa [Block.relabel_eq_self (f := id) (fun _ _ => rfl) hnames, TypeError.isRelabelled_id] at hcheck

/-! ## Programs -/

/-- The results of two runs from `m` and `m'` are the same answer or the same error, with machines
that agree on the names in `N` and have written the same since. Each of the two has left all other
names in every scope as they were. -/
def Machine.RunAlike (N : Set String) (m : Machine σ) (m' : Machine τ) :
    EStateM.Result EvalError (Machine σ) Unit → EStateM.Result EvalError (Machine τ) Unit → Prop :=
  EndAlike Eq fun u u' => Alike N m.sink m'.sink u u' ∧
    Scopes.Agree Nᶜ Eq m.scopes u.scopes ∧ Scopes.Agree Nᶜ Eq m'.scopes u'.scopes

/-- The results of two checks are both acceptance or the same error, with scopes that agree on the
names in `N`. Each of the two has left all other names in every scope as they were. -/
def Scopes.CheckAlike (N : Set String) (s s' : Scopes Ty) :
    EStateM.Result TypeError (Scopes Ty) Unit → EStateM.Result TypeError (Scopes Ty) Unit → Prop :=
  EndAlike Eq fun u u' => Scopes.Agree N Eq u u' ∧ Scopes.Agree Nᶜ Eq s u ∧ Scopes.Agree Nᶜ Eq s' u'

/-- Names that a program does not mention neither matter nor change: two machines that agree, scope
by scope, on the names that occur, with writers that take everything, run it alike, whether the
output is flushed in the end or not, and two checkers check it alike. -/
theorem unmentioned_names (program : Block) (m : Machine σ) (m' : Machine τ)
    (types types' : Scopes Ty) :
    let N := {name | name ∈ program.names}
    (Writer.Accepts m.sink → Writer.Accepts m'.sink → Scopes.Agree N Eq m.scopes m'.scopes →
      Machine.RunAlike N m m' (program.run m) (program.run m') ∧
        Machine.RunAlike N m m' (program.execute m) (program.execute m')) ∧
    (Scopes.Agree N Eq types types' →
      Scopes.CheckAlike N types types' (program.check types) (program.check types')) := by
  intro N
  have hnames : ∀ name ∈ program.names, name ∈ N := fun _ h => h
  constructor
  · intro left right hscopes
    have halike : Machine.Alike N m.sink m'.sink m m' := .refl hscopes left right
    constructor
    · apply (Block.endAlike_run hnames halike).and_ends
      · exact Block.keeps_run hnames
      · exact Block.keeps_run hnames
    · apply (Block.endAlike_execute hnames halike).and_ends
      · exact Block.keeps_execute hnames
      · exact Block.keeps_execute hnames
  · intro hscopes
    apply (Block.endAlike_check hnames hscopes).and_ends
    · exact Block.keeps_check hnames
    · exact Block.keeps_check hnames

/-- A copy of `x`, a loop with a variable of that name in which the copy is assigned and printed, and
then a name that is not declared. -/
def Block.copying : Block :=
  let ident (name : String) : Ident := ⟨name, ⟨1, 1⟩⟩
  let get (name : String) : Expr := .var (ident name)
  let body : Block := .more (.assign (ident "y") (get "x")) (.one (.print (get "y")))
  .more (.declare (ident "y") (get "x"))
    (.more (.forEach (ident "x") (.list (.more (get "y") (.one (.int 2)))) body)
      (.one (.print (get "w"))))

/-- One of the two machines has another variable, the other has a variable of that name in another
scope. Both print two lines and fail at the name that is not declared. -/
theorem unmentioned_names_copying :
    let N := {name | name ∈ Block.copying.names}
    let m : Machine Sink := ⟨⟨[("z", .bool true)], [[("x", .int 1)]]⟩, Sink.unlimited⟩
    let m' : Machine Sink := ⟨⟨[], [[("z", .int 7), ("x", .int 1)]]⟩, Sink.unlimited⟩
    let types : Scopes Ty := ⟨[("z", .bool)], [[("x", .int)]]⟩
    let types' : Scopes Ty := ⟨[], [[("z", .int), ("x", .int)]]⟩
    Writer.Accepts m.sink ∧ Writer.Accepts m'.sink ∧ Scopes.Agree N Eq m.scopes m'.scopes ∧
      Scopes.Agree N Eq types types' ∧
      Machine.RunAlike N m m' (Block.copying.execute m) (Block.copying.execute m') ∧
      Scopes.CheckAlike N types types' (Block.copying.check types) (Block.copying.check types') ∧
      ∃ u, Block.copying.execute m' = .error (.undeclared "w" ⟨1, 1⟩) u ∧ u.sink.text = "1\n2\n" := by
  intro N m m' types types'
  have hmem : ∀ name ∈ N, name ≠ "z" := by
    intro name hname
    have hall : ∀ name ∈ Block.copying.names, name ≠ "z" := by decide
    exact hall name hname
  have hscopes : ∀ {α : Type} (spare spare' one : α),
      Scopes.Agree N Eq ⟨[("z", spare)], [[("x", one)]]⟩ ⟨[], [[("z", spare'), ("x", one)]]⟩ := by
    intro α spare spare' one
    refine .cons ?_ (.cons ?_ .nil)
    · rw [Scope.agree_eq_iff]
      intro name hname
      rw [Scope.find?_cons, if_neg (hmem name hname)]
    · rw [Scope.agree_eq_iff]
      intro name hname
      rw [Scope.find?_cons (_, spare'), if_neg (hmem name hname)]
  have haccepts : Writer.Accepts Sink.unlimited := Sink.accepts rfl rfl
  obtain ⟨hrun, hcheck⟩ := unmentioned_names Block.copying m m' types types'
  refine ⟨haccepts, haccepts, hscopes _ _ _, hscopes _ _ _, ?_, hcheck (hscopes _ _ _), ?_⟩
  · exact (hrun haccepts haccepts (hscopes _ _ _)).2
  · exact ⟨_, rfl, by cbv⟩

end ListScript
