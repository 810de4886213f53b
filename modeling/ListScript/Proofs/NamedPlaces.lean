import ListScript.Proofs.FurtherDown
import ListScript.Proofs.TokenRun

/-!
# The names in errors are names of the program

What a run or a check says of a name it says of a name that stands in the program, at its place there.
For a program does not change if only names are moved that do not stand in it, and its errors move with
the names.

* `Ident.StandsIn tokens` : a name at the place of one of the tokens;
* `SeqPhrase.relabel_tree` : a tree does not change with names that do not stand in it;
* `Ident.moveUnless tokens` : moves the names that do not stand in some tokens;
* `SeqPhrase.standsIn_of_execute`, `SeqPhrase.standsIn_of_check` : errors.
-/

namespace ListScript

/-- The name of one of the tokens, with its place. -/
def Ident.StandsIn (tokens : List Token) (ident : Ident) : Prop :=
  ∃ t ∈ tokens, t.kind = .identifier ∧ t.text = ident.name ∧ t.span.start = ident.position

instance (tokens : List Token) (ident : Ident) : Decidable (ident.StandsIn tokens) :=
  inferInstanceAs (Decidable (∃ t ∈ tokens, _))

/-! ## Trees -/

/-- The names in the tokens stand for themselves. -/
def FixesNames (f : Ident → Ident) (tokens : List Token) : Prop :=
  ∀ ident : Ident, ident.StandsIn tokens → f ident = ident

namespace FixesNames

variable {f : Ident → Ident} {t : Token} {ts us : List Token}

theorem mono (h : FixesNames f us) (hsub : ts ⊆ us) : FixesNames f ts :=
  fun ident ⟨t, ht, hname⟩ => h ident ⟨t, hsub ht, hname⟩

theorem left (h : FixesNames f (ts ++ us)) : FixesNames f ts := h.mono (List.subset_append_left ts us)

theorem right (h : FixesNames f (ts ++ us)) : FixesNames f us := h.mono (List.subset_append_right ts us)

theorem tail (h : FixesNames f (t :: ts)) : FixesNames f ts := h.mono (List.subset_cons_self t ts)

theorem head {name : Terminal .identifier} (h : FixesNames f (name.1 :: ts)) :
    f name.ident = name.ident :=
  h name.ident ⟨name.1, List.mem_cons_self, name.2, rfl, rfl⟩

end FixesNames

section Trees

variable {f : Ident → Ident}

mutual

/-- The tree of some tokens does not change as long as the names of the tokens do not. -/
theorem Phrase.relabel_tree : ∀ {l : Level} {e : Phrase l}, FixesNames f e.tokens →
    e.tree.relabel f = e.tree
  | _, .tighter _ e, h => Phrase.relabel_tree (e := e) h
  | _, .binary _ left _ right, h => by
    rw [Phrase.tokens] at h
    rw [Phrase.tree, Expr.relabel, Phrase.relabel_tree h.left, Phrase.relabel_tree h.right.tail]
  | _, .cons left _ right, h => by
    rw [Phrase.tokens] at h
    rw [Phrase.tree, Expr.relabel, Phrase.relabel_tree h.left, Phrase.relabel_tree h.right.tail]
  | _, .negate _ e, h | _, .not _ e, h => by
    rw [Phrase.tokens] at h
    rw [Phrase.tree, Expr.relabel, Phrase.relabel_tree h.tail]
  | _, .number _ _ _, _ => rfl
  | _, .truth _ _ _, _ => rfl
  | _, .name t, h => by
    rw [Phrase.tokens] at h
    rw [Phrase.tree, Expr.relabel, h.head]
  | _, .group _ e _, h => by
    rw [Phrase.tokens] at h
    rw [Phrase.tree, Phrase.relabel_tree h.tail.left]
  | _, .list _ items _, h => by
    rw [Phrase.tokens] at h
    rw [Phrase.tree, Expr.relabel, Items.relabel_tree h.tail.left]

theorem Items.relabel_tree : ∀ {items : Items}, FixesNames f items.tokens →
    items.tree.relabel f = items.tree
  | .one e, h => by
    rw [Items.tokens] at h
    rw [Items.tree, Exprs.relabel, Phrase.relabel_tree h]
  | .more e _ rest, h => by
    rw [Items.tokens] at h
    rw [Items.tree, Exprs.relabel, Phrase.relabel_tree h.left, Items.relabel_tree h.right.tail]

end

mutual

/-- The tree of some tokens does not change as long as the names of the tokens do not. -/
theorem StmtPhrase.relabel_tree : ∀ {stmt : StmtPhrase}, FixesNames f stmt.tokens →
    stmt.tree.relabel f = stmt.tree
  | .declare _ name _ e, h => by
    rw [StmtPhrase.tokens] at h
    rw [StmtPhrase.tree, Stmt.relabel, h.tail.head, Phrase.relabel_tree h.tail.tail.tail]
  | .assign name _ e, h => by
    rw [StmtPhrase.tokens] at h
    rw [StmtPhrase.tree, Stmt.relabel, h.head, Phrase.relabel_tree h.tail.tail]
  | .print _ e, h => by
    rw [StmtPhrase.tokens] at h
    rw [StmtPhrase.tree, Stmt.relabel, Phrase.relabel_tree h.tail]
  | .forEach _ name _ e _ body _, h => by
    rw [StmtPhrase.tokens] at h
    have hrest := h.tail.tail.tail
    rw [StmtPhrase.tree, Stmt.relabel, h.tail.head, Phrase.relabel_tree hrest.left,
      SeqPhrase.relabel_tree hrest.right.tail.left]

theorem SeqPhrase.relabel_tree : ∀ {d : SeqPhrase}, FixesNames f d.tokens →
    d.tree.relabel f = d.tree
  | .one stmt, h => by
    rw [SeqPhrase.tokens] at h
    rw [SeqPhrase.tree, Block.relabel, StmtPhrase.relabel_tree h]
  | .trailing stmt _, h => by
    rw [SeqPhrase.tokens] at h
    rw [SeqPhrase.tree, Block.relabel, StmtPhrase.relabel_tree h.left]
  | .more stmt _ rest, h => by
    rw [SeqPhrase.tokens] at h
    rw [SeqPhrase.tree, Block.relabel, StmtPhrase.relabel_tree h.left,
      SeqPhrase.relabel_tree h.right.tail]

end

end Trees

/-! ## Errors -/

/-- The name that an error is about, with its place. -/
def EvalError.ident? : EvalError → Option Ident
  | .undeclared name position | .alreadyDeclared name position => some ⟨name, position⟩
  | .value _ | .output _ => none

/-- The name that an error is about, with its place. -/
def TypeError.ident? : TypeError → Option Ident
  | .undeclared name position | .alreadyDeclared name position => some ⟨name, position⟩
  | .mismatch _ _ => none

theorem EvalError.ident?_relabel (f : Ident → Ident) (err : EvalError) :
    (err.relabel f).ident? = err.ident?.map f := by
  cases err <;> rfl

theorem TypeError.ident?_relabel (f : Ident → Ident) (err : TypeError) :
    (err.relabel f).ident? = err.ident?.map f := by
  cases err <;> rfl

/-- Moves a name unless it stands in the tokens. -/
def Ident.moveUnless (tokens : List Token) (ident : Ident) : Ident :=
  if ident.StandsIn tokens then ident else ident.down 1

theorem Ident.name_moveUnless (tokens : List Token) (ident : Ident) :
    (ident.moveUnless tokens).name = ident.name := by
  unfold moveUnless
  split <;> rfl

theorem Ident.fixesNames_moveUnless (tokens : List Token) : FixesNames (moveUnless tokens) tokens :=
  fun _ h => if_pos h

/-- A name that is not moved stands in the tokens. -/
theorem Ident.standsIn_of_map_moveUnless {tokens : List Token} {ident : Ident}
    (h : some ident = (some ident).map (moveUnless tokens)) : ident.StandsIn tokens := by
  by_contra hnot
  have hmoved : ident = ident.down 1 := (Option.some.inj h).trans (if_neg hnot)
  have hline : ident.position.line = ident.position.line + 1 :=
    congrArg (fun ident => ident.position.line) hmoved
  exact Nat.succ_ne_self _ hline.symm

variable {d : SeqPhrase} {ident : Ident}

/-- What a run says of a name it says of one that stands in the program. -/
theorem SeqPhrase.standsIn_of_execute {σ : Type} [Writer σ] {m m' : Machine σ} {err : EvalError}
    (h : d.tree.execute m = .error err m') (hident : err.ident? = some ident) :
    ident.StandsIn d.tokens := by
  have hmoved := Block.endAlike_execute_moved (Ident.name_moveUnless d.tokens) d.tree m
  rw [SeqPhrase.relabel_tree (Ident.fixesNames_moveUnless d.tokens)] at hmoved
  obtain ⟨err', _, h', herr, -⟩ := hmoved.of_error h
  cases h.symm.trans h'
  have hsame : err.ident? = err.ident?.map (Ident.moveUnless d.tokens) :=
    (congrArg EvalError.ident? herr).trans (EvalError.ident?_relabel _ err)
  rw [hident] at hsame
  exact Ident.standsIn_of_map_moveUnless hsame

/-- So it is with a check. -/
theorem SeqPhrase.standsIn_of_check {s s' : Scopes Ty} {err : TypeError}
    (h : d.tree.check s = .error err s') (hident : err.ident? = some ident) :
    ident.StandsIn d.tokens := by
  have hmoved := Block.endAlike_check_moved (Ident.name_moveUnless d.tokens) d.tree s
  rw [SeqPhrase.relabel_tree (Ident.fixesNames_moveUnless d.tokens)] at hmoved
  obtain ⟨err', _, h', herr, -⟩ := hmoved.of_error h
  cases h.symm.trans h'
  have hsame : err.ident? = err.ident?.map (Ident.moveUnless d.tokens) :=
    (congrArg TypeError.ident? herr).trans (TypeError.ident?_relabel _ err)
  rw [hident] at hsame
  exact Ident.standsIn_of_map_moveUnless hsame

end ListScript
