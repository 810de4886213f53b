import ListScript.Proofs.Ends
import ListScript.Typing
import Mathlib.Data.List.TakeWhile

/-!
# The names of types

The name of a type is a row of words, the shape behind what it holds. It is read from its end: the last
word says which shape it is, and what stands before that is the name of what the shape holds. So no two
types have one name, and a mismatch, which gives names only, says which types it is about.

* `Ty.append_word_inj` : a text is told from the word behind it;
* `Ty.exists_part` : a name that has a word behind it is that of a shape; `Ty.text_injective` : no two
  types have one name; `Ty.text_ne_listWord` : the word for lists alone is no name;
* `TypeError.Telling` : the errors that say which types they are about, and never the same name twice
  (`TypeError.Telling.ne`);
* `Expr.telling_infer`, `Stmt.tells_check`, `Block.tells_check` : the checker has no others, by
  induction on the tree;
* `mismatch_identifies_types` : whole programs.
-/

namespace ListScript

/-! ## Names -/

namespace Ty

/-- The last word of a text is what stands behind its last space. -/
theorem takeWhile_lastWord {word : String} (hword : ' ' ∉ word.toList) (before : String) :
    (before ++ " " ++ word).toList.reverse.takeWhile (· != ' ') = word.toList.reverse := by
  have hchars : (before ++ " " ++ word).toList.reverse =
      word.toList.reverse ++ ' ' :: before.toList.reverse := by
    simp [String.toList_append]
  have hword : ∀ c ∈ word.toList.reverse, (c != ' ') = true := by
    intro c hc
    rw [bne_iff_ne]
    rintro rfl
    exact hword (List.mem_reverse.mp hc)
  rw [hchars, List.takeWhile_append_of_pos hword]
  simp

/-- A text is told from the word that stands behind it. -/
theorem append_word_inj {before before' word word' : String} (hword : ' ' ∉ word.toList)
    (hword' : ' ' ∉ word'.toList) (h : before ++ " " ++ word = before' ++ " " ++ word') :
    before = before' ∧ word = word' := by
  have hsame : word.toList.reverse = word'.toList.reverse := by
    rw [← takeWhile_lastWord hword before, ← takeWhile_lastWord hword' before', h]
  obtain rfl : word = word' := String.toList_inj.mp (List.reverse_inj.mp hsame)
  refine ⟨?_, rfl⟩
  apply String.toList_inj.mp
  simpa [String.toList_append] using congrArg String.toList h

/-- The name of a shape has a space. -/
theorem space_mem_append (before word : String) : ' ' ∈ (before ++ " " ++ word).toList := by
  simp

/-- The word for lists alone is no name. -/
theorem text_ne_listWord (T : Ty) : T.text ≠ listWord := by
  intro h
  cases T with
  | int | bool | string =>
    revert h
    decide
  | list element | option content =>
    have hspace : ' ' ∈ listWord.toList := by
      rw [← h]
      exact space_mem_append _ _
    exact absurd hspace (by decide)

/-- Only the name of a list type or of an `opt` type has a word behind another name. -/
theorem exists_part {T : Ty} {before word : String} (hword : ' ' ∉ word.toList)
    (h : T.text = before ++ " " ++ word) :
    ∃ part : Ty, part.text = before ∧
      (T = list part ∧ word = listWord ∨ T = option part ∧ word = optionWord) := by
  cases T with
  | int | bool | string =>
    have hspace := space_mem_append before word
    rw [← h] at hspace
    exact absurd hspace (by decide)
  | list element =>
    obtain ⟨htext, hlast⟩ := append_word_inj (by decide) hword h
    exact ⟨element, htext, .inl ⟨rfl, hlast.symm⟩⟩
  | option content =>
    obtain ⟨htext, hlast⟩ := append_word_inj (by decide) hword h
    exact ⟨content, htext, .inr ⟨rfl, hlast.symm⟩⟩

/-- No two types have one name. -/
theorem text_injective : Function.Injective text := by
  intro S T h
  -- the last word says which shape both are, and what stands before it is the name of both parts
  induction S generalizing T with
  | int | bool | string =>
    cases T with
    | int | bool | string =>
      revert h
      decide
    | list element | option content =>
      obtain ⟨_, -, ⟨hshape, -⟩ | ⟨hshape, -⟩⟩ := exists_part (by decide) h <;> cases hshape
  | list element ih =>
    obtain ⟨part, htext, ⟨rfl, -⟩ | ⟨-, hword⟩⟩ := exists_part (by decide) h.symm
    · rw [ih htext.symm]
    · exact absurd hword (by decide)
  | option content ih =>
    obtain ⟨part, htext, ⟨-, hword⟩ | ⟨rfl, -⟩⟩ := exists_part (by decide) h.symm
    · exact absurd hword (by decide)
    · rw [ih htext.symm]

/-- The comparison of two types is one of their names. -/
theorem expect_eq (S T : Ty) :
    S.expect T = if S.text = T.text then .ok S else .error (.mismatch S.text T.text) := by
  simp only [expect, text_injective.eq_iff]

end Ty

/-! ## What a mismatch says -/

/-- The errors that say what they are about: a mismatch names two types, or it names a type that is no
list where a list was expected. -/
inductive TypeError.Telling : TypeError → Prop
  | types {S T : Ty} (ne : S ≠ T) : Telling (.mismatch S.text T.text)
  | noList {T : Ty} (ne : ∀ element, T ≠ .list element) : Telling (.mismatch Ty.listWord T.text)
  | undeclared (name : String) (position : Position) : Telling (.undeclared name position)
  | alreadyDeclared (name : String) (position : Position) : Telling (.alreadyDeclared name position)

/-- It does not name the same twice. -/
theorem TypeError.Telling.ne {expected found : String} (h : Telling (.mismatch expected found)) :
    expected ≠ found := by
  cases h with
  | types ne => exact fun heq => ne (Ty.text_injective heq)
  | noList ne => exact (Ty.text_ne_listWord _).symm

/-- A computation that fails says what its error is about. -/
def FailsTelling {α : Type} (x : Except TypeError α) : Prop := ∀ err, x = .error err → err.Telling

namespace FailsTelling

variable {α β : Type} {x : Except TypeError α}

theorem ok (a : α) : FailsTelling (.ok a) := nofun

theorem bind {f : α → Except TypeError β} (hx : FailsTelling x) (hf : ∀ a, FailsTelling (f a)) :
    FailsTelling (x >>= f) := by
  intro err h
  obtain h | ⟨a, -, h⟩ := bind_eq_error.mp h
  · exact hx err h
  · exact hf a err h

theorem discard (hx : FailsTelling x) : FailsTelling (Functor.discard x) :=
  fun err h => hx err (discard_eq_error.mp h)

theorem expect (S T : Ty) : FailsTelling (S.expect T) := by
  intro err h
  rw [Ty.expect] at h
  split at h
  · cases h
  · next hne =>
    cases h
    exact .types hne

theorem element (T : Ty) : FailsTelling T.element := by
  intro err h
  cases T with
  | list element => cases h
  | int | bool | string | option content =>
    cases h
    exact .noList nofun

end FailsTelling

/-! ## The checker -/

section Checker

variable (scopes : Scopes Ty)

mutual

/-- An expression fails with a name that is not declared, or with one of its comparisons. -/
theorem Expr.telling_infer : ∀ e : Expr, FailsTelling (e.infer scopes)
  | .unary _ operand => by
    rw [Expr.infer]
    exact (Expr.telling_infer operand).bind fun _ => .expect _ _
  | .binary .add left right | .binary .multiply left right | .binary .and left right => by
    rw [Expr.infer]
    refine (Expr.telling_infer left).bind fun _ => (FailsTelling.expect _ _).discard.bind fun _ => ?_
    exact (Expr.telling_infer right).bind fun _ => .expect _ _
  | .binary .equal left right => by
    rw [Expr.infer]
    refine (Expr.telling_infer left).bind fun _ => (Expr.telling_infer right).bind fun _ => ?_
    exact (FailsTelling.expect _ _).discard.bind fun _ => .ok _
  | .binary .cons left right => by
    rw [Expr.infer]
    refine (Expr.telling_infer left).bind fun _ => (Expr.telling_infer right).bind fun _ => ?_
    refine (FailsTelling.element _).bind fun _ => ?_
    exact (FailsTelling.expect _ _).discard.bind fun _ => .ok _
  | .int _ | .bool _ => .ok _
  | .list items => Exprs.telling_infer items
  | .var ident => by
    intro err h
    rw [Expr.infer] at h
    split at h
    · cases h
    · cases h
      exact .undeclared _ _

theorem Exprs.telling_infer : ∀ es : Exprs, FailsTelling (es.infer scopes)
  | .one item => by
    rw [Exprs.infer]
    exact (Expr.telling_infer item).bind fun _ => .ok _
  | .more item rest => by
    rw [Exprs.infer]
    refine (Expr.telling_infer item).bind fun _ => (Exprs.telling_infer rest).bind fun _ => ?_
    refine (FailsTelling.element _).bind fun _ => ?_
    exact (FailsTelling.expect _ _).discard.bind fun _ => .ok _

end

end Checker

/-- A step that fails says what its error is about. -/
def Checking.Tells {α : Type} (x : Checking α) : Prop :=
  ∀ scopes, Ends (fun _ _ => True) (fun err _ => err.Telling) (x scopes)

namespace Checking.Tells

variable {α β : Type} {x : Checking α}

theorem bind {f : α → Checking β} (hx : x.Tells) (hf : ∀ a, (f a).Tells) : (x >>= f).Tells :=
  fun scopes => (hx scopes).bind fun a after _ => hf a after

theorem discard (hx : x.Tells) : Tells (Functor.discard x) := fun scopes => (hx scopes).discard

theorem infer (e : Expr) : (Checking.infer e).Tells := by
  intro scopes
  unfold Checking.infer
  split
  · exact .ok trivial
  · next err h => exact .error (e.telling_infer scopes err h)

theorem ofExcept {result : Except TypeError α} (h : FailsTelling result) :
    (Checking.ofExcept result).Tells := by
  intro scopes
  cases result with
  | ok a => exact .ok trivial
  | error err => exact .error (h err rfl)

theorem declare (ident : Ident) (type : Ty) : (Checking.declare ident type).Tells := by
  intro scopes
  unfold Checking.declare
  split
  · exact .ok trivial
  · exact .error (.alreadyDeclared _ _)

theorem typeOf (ident : Ident) : (Checking.typeOf ident).Tells := by
  intro scopes
  unfold Checking.typeOf
  split
  · exact .ok trivial
  · exact .error (.undeclared _ _)

theorem inScope (name : String) (type : Ty) {body : Checking Unit} (h : body.Tells) :
    (Checking.inScope name type body).Tells := by
  intro scopes
  unfold Checking.inScope
  have hbody := h (scopes.enterWith name type)
  split
  · exact .ok trivial
  · next err after heq => exact .error (hbody.of_error heq)

end Checking.Tells

mutual

theorem Stmt.tells_check : ∀ (stmt : Stmt) (scopes : Scopes Ty),
    Ends (fun _ _ => True) (fun err _ => err.Telling) (stmt.check scopes)
  | .declare ident value, scopes => by
    rw [Stmt.check]
    exact (Checking.Tells.infer value).bind (fun _ => .declare ident _) scopes
  | .assign ident value, scopes => by
    rw [Stmt.check]
    refine (Checking.Tells.infer value).bind (fun _ => ?_) scopes
    refine (Checking.Tells.typeOf ident).bind fun _ => ?_
    exact (Checking.Tells.ofExcept (.expect _ _)).discard
  | .print value, scopes => by
    rw [Stmt.check]
    exact (Checking.Tells.infer value).discard scopes
  | .forEach ident items body, scopes => by
    rw [Stmt.check]
    refine (Checking.Tells.infer items).bind (fun _ => ?_) scopes
    refine (Checking.Tells.ofExcept (.element _)).bind fun _ => ?_
    exact .inScope ident.name _ (Block.tells_check body)

theorem Block.tells_check : ∀ (program : Block) (scopes : Scopes Ty),
    Ends (fun _ _ => True) (fun err _ => err.Telling) (program.check scopes)
  | .one stmt, scopes => by
    rw [Block.check]
    exact Stmt.tells_check stmt scopes
  | .more stmt rest, scopes => by
    rw [Block.check]
    exact Checking.Tells.bind (Stmt.tells_check stmt) (fun _ => Block.tells_check rest) scopes

end

/-- What the checker says of a program says what it is about. -/
theorem Block.failsTelling_typing (program : Block) : FailsTelling program.typing := by
  intro err h
  unfold typing at h
  split at h
  · cases h
  · next after heq =>
    cases h
    exact (program.tells_check Scopes.empty).of_error heq

/-! ## Whole programs -/

/-- The two names in a mismatch are different. One is the name of the type that was found, the other is
the name of the type that was expected, or the word for lists, which is the name of no type, where a list
was expected and no list was found. No two types have one name, so that types are equal if and only if
their names are. -/
theorem mismatch_identifies_types :
    (∀ (program : Block) (expected found : String),
      program.typing = .error (.mismatch expected found) → expected ≠ found ∧
        ∃ T : Ty, found = T.text ∧ ((∃ S : Ty, S ≠ T ∧ expected = S.text) ∨
          ((∀ element, T ≠ .list element) ∧ expected = Ty.listWord))) ∧
    (∀ S T : Ty, S.text = T.text ↔ S = T) ∧ (∀ T : Ty, T.text ≠ Ty.listWord) ∧
    ∀ S T : Ty, S.expect T = if S.text = T.text then .ok S else
      .error (.mismatch S.text T.text) := by
  refine ⟨fun program expected found h => ?_, fun _ _ => Ty.text_injective.eq_iff,
    Ty.text_ne_listWord, Ty.expect_eq⟩
  have htelling := program.failsTelling_typing _ h
  refine ⟨htelling.ne, ?_⟩
  cases htelling with
  | @types S T ne => exact ⟨T, rfl, .inl ⟨S, ne, rfl⟩⟩
  | @noList T ne => exact ⟨T, rfl, .inr ⟨ne, rfl⟩⟩

/-- Lists of different depth that are compared inside a loop. -/
theorem mismatch_identifies_types_nested :
    let one := Expr.list (.one (.int 1))
    let program := Block.one (.forEach ⟨"x", ⟨1, 5⟩⟩ (.list (.one one))
      (.one (.print (.binary .equal (.var ⟨"x", ⟨1, 20⟩⟩) (.list (.one one))))))
    program.typing = .error (.mismatch "int list" "int list list") ∧
      "int list" ≠ "int list list" ∧ ∃ T : Ty, "int list list" = T.text ∧
        ((∃ S : Ty, S ≠ T ∧ "int list" = S.text) ∨
          ((∀ element, T ≠ .list element) ∧ "int list" = Ty.listWord)) := by
  intro one program
  have h : program.typing = .error (.mismatch "int list" "int list list") := by cbv
  exact ⟨h, mismatch_identifies_types.1 program _ _ h⟩

end ListScript
