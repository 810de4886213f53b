/-!
# Nested scopes

* `Scope α` : the names that one scope binds, with their values;
* `Scopes α` : the innermost scope and those around it; there is always one, the global scope is
  the outermost (`Scopes.depth`);
* `Scopes.enter`, `Scopes.exit` : begin a scope, end the innermost. The global scope never ends;
* `Scopes.declare?`, `Scopes.lookup?`, `Scopes.update?` : bind a name in the innermost scope if it
  is free there, find the innermost binding of a name, and replace the value of that binding.
  Declaring and updating leave the depth as it is (`depth_of_declare?`, `depth_of_update?`).
-/

namespace ListScript

/-- The names that one scope binds, with their values. -/
abbrev Scope (α : Type) := List (String × α)

namespace Scope

variable {α : Type}

/-- The value of a name. -/
def find? (scope : Scope α) (name : String) : Option α := scope.lookup name

/-- Whether a name is bound. -/
def binds (scope : Scope α) (name : String) : Bool := (scope.find? name).isSome

/-- The scope with another value for a name that it binds. -/
def replace (scope : Scope α) (name : String) (value : α) : Scope α :=
  scope.map fun entry => if entry.1 = name then (entry.1, value) else entry

end Scope

/-- The scopes at one point of a program. -/
structure Scopes (α : Type) where
  inner : Scope α
  outer : List (Scope α)
  deriving Repr

namespace Scopes

variable {α : Type}

/-- One global scope that binds nothing. -/
def empty : Scopes α := ⟨[], []⟩

/-- The scopes, the innermost first. -/
def toList (s : Scopes α) : List (Scope α) := s.inner :: s.outer

/-- How many scopes there are. -/
def depth (s : Scopes α) : Nat := s.toList.length

/-- Begins a scope. -/
def enter (s : Scopes α) : Scopes α := ⟨[], s.toList⟩

/-- Begins a scope that binds one name. -/
def enterWith (s : Scopes α) (name : String) (value : α) : Scopes α :=
  ⟨[(name, value)], s.toList⟩

/-- Ends the innermost scope, unless it is the global one. -/
def exit (s : Scopes α) : Scopes α :=
  match s.outer with
  | [] => s
  | scope :: rest => ⟨scope, rest⟩

/-- Binds a name in the innermost scope; fails if that scope binds it already. -/
def declare? (s : Scopes α) (name : String) (value : α) : Option (Scopes α) :=
  if s.inner.binds name then none else some { s with inner := (name, value) :: s.inner }

/-- The value of a name in the innermost scope that binds it. -/
def lookup? (s : Scopes α) (name : String) : Option α :=
  s.toList.findSome? fun scope => scope.find? name

/-- Replaces the value of a name in the first scope of a list that binds it. -/
def updateFirst (name : String) (value : α) : List (Scope α) → List (Scope α)
  | [] => []
  | scope :: rest =>
    if scope.binds name then scope.replace name value :: rest
    else scope :: updateFirst name value rest

/-- Replaces the value of a name in the innermost scope that binds it; fails if none does. -/
def update? (s : Scopes α) (name : String) (value : α) : Option (Scopes α) :=
  if s.inner.binds name then some { s with inner := s.inner.replace name value }
  else if s.outer.any (·.binds name) then
    some { s with outer := updateFirst name value s.outer }
  else none

@[simp] theorem exit_enter (s : Scopes α) : s.enter.exit = s := rfl

/-- A new scope binds any name. -/
theorem declare?_enter (s : Scopes α) (name : String) (value : α) :
    s.enter.declare? name value = some (s.enterWith name value) := rfl

/-! ## Depth -/

theorem depth_pos (s : Scopes α) : 0 < s.depth := by simp [depth, toList]

@[simp] theorem depth_enter (s : Scopes α) : s.enter.depth = s.depth + 1 := rfl

theorem depth_of_declare? {s t : Scopes α} {name : String} {value : α}
    (h : s.declare? name value = some t) : t.depth = s.depth := by
  unfold declare? at h
  split at h <;> cases h
  rfl

@[simp] theorem length_updateFirst (name : String) (value : α) (scopes : List (Scope α)) :
    (updateFirst name value scopes).length = scopes.length := by
  induction scopes with
  | nil => rfl
  | cons scope rest ih =>
    rw [updateFirst]
    split <;> simp [ih]

theorem depth_of_update? {s t : Scopes α} {name : String} {value : α}
    (h : s.update? name value = some t) : t.depth = s.depth := by
  unfold update? at h
  split at h
  · cases h; rfl
  · split at h <;> cases h
    simp [depth, toList]

/-! ## The binding of a name -/

/-- A name that was declared has its value. -/
theorem lookup?_of_declare? {s t : Scopes α} {name : String} {value : α}
    (h : s.declare? name value = some t) : t.lookup? name = some value := by
  unfold declare? at h
  split at h <;> cases h
  simp [lookup?, toList, Scope.find?]

end Scopes

end ListScript
