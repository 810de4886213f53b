import ListScript.Proofs.LineBreaks
import ListScript.Proofs.Recognition
import ListScript.Proofs.Relabelling

/-!
# Programs further down

A program that stands some lines further down differs in the places of its names only. Its derivation
is the same with its tokens further down, and it runs and is checked in the same way: only the places
in its errors are further down.

* `Expr.down`, `Stmt.down`, `Block.down` : the same `n` lines further down; `EvalError.down`,
  `TypeError.down` : so are errors;
* `Block.relabel_down` : the names are the same, in other places;
* `Block.endAlike_execute_down`, `Block.endAlike_check_down` : runs and checks;
* `Phrase.down`, `SeqPhrase.down` : derivations, with the tokens and the trees of these
  (`SeqPhrase.tokens_down`, `SeqPhrase.tree_down`).
-/

namespace ListScript

variable {n : Nat}

/-! ## Trees -/

/-- The same name `n` lines further down. -/
def Ident.down (n : Nat) (ident : Ident) : Ident := { ident with position := ident.position.down n }

@[simp] theorem Ident.name_down (n : Nat) (ident : Ident) : (ident.down n).name = ident.name := rfl

mutual

/-- The same expression `n` lines further down. -/
def Expr.down (n : Nat) : Expr → Expr
  | .unary op operand => .unary op (operand.down n)
  | .binary op left right => .binary op (left.down n) (right.down n)
  | .int value => .int value
  | .bool value => .bool value
  | .list items => .list (items.down n)
  | .var ident => .var (ident.down n)

/-- The same expressions `n` lines further down. -/
def Exprs.down (n : Nat) : Exprs → Exprs
  | .one item => .one (item.down n)
  | .more item rest => .more (item.down n) (rest.down n)

end

mutual

/-- The same statement `n` lines further down. -/
def Stmt.down (n : Nat) : Stmt → Stmt
  | .declare ident value => .declare (ident.down n) (value.down n)
  | .assign ident value => .assign (ident.down n) (value.down n)
  | .print value => .print (value.down n)
  | .forEach ident items body => .forEach (ident.down n) (items.down n) (body.down n)

/-- The same statements `n` lines further down. -/
def Block.down (n : Nat) : Block → Block
  | .one stmt => .one (stmt.down n)
  | .more stmt rest => .more (stmt.down n) (rest.down n)

end

theorem Block.toList_down (n : Nat) (block : Block) :
    (block.down n).toList = block.toList.map (Stmt.down n) := by
  match block with
  | .one stmt => rfl
  | .more stmt rest =>
    rw [Block.down, Block.toList, Block.toList, List.map_cons, Block.toList_down n rest]

/-- The same error `n` lines further down. -/
def EvalError.down (n : Nat) : EvalError → EvalError
  | .value error => .value error
  | .undeclared name position => .undeclared name (position.down n)
  | .alreadyDeclared name position => .alreadyDeclared name (position.down n)
  | .output cause => .output cause

/-- The same error `n` lines further down. -/
def TypeError.down (n : Nat) : TypeError → TypeError
  | .mismatch expected found => .mismatch expected found
  | .undeclared name position => .undeclared name (position.down n)
  | .alreadyDeclared name position => .alreadyDeclared name (position.down n)

mutual

/-- Further down the names are the same, in other places. -/
theorem Expr.relabel_down : ∀ (n : Nat) (e : Expr), e.relabel (Ident.down n) = e.down n
  | n, .unary op e => by rw [Expr.relabel, Expr.down, Expr.relabel_down n e]
  | n, .binary op l r => by
    rw [Expr.relabel, Expr.down, Expr.relabel_down n l, Expr.relabel_down n r]
  | _, .int _ => rfl
  | _, .bool _ => rfl
  | n, .list items => by rw [Expr.relabel, Expr.down, Exprs.relabel_down n items]
  | _, .var _ => rfl

theorem Exprs.relabel_down : ∀ (n : Nat) (es : Exprs), es.relabel (Ident.down n) = es.down n
  | n, .one e => by rw [Exprs.relabel, Exprs.down, Expr.relabel_down n e]
  | n, .more e rest => by
    rw [Exprs.relabel, Exprs.down, Expr.relabel_down n e, Exprs.relabel_down n rest]

end

mutual

/-- Further down the names are the same, in other places. -/
theorem Stmt.relabel_down : ∀ (n : Nat) (stmt : Stmt), stmt.relabel (Ident.down n) = stmt.down n
  | n, .declare ident e => by rw [Stmt.relabel, Stmt.down, Expr.relabel_down n e]
  | n, .assign ident e => by rw [Stmt.relabel, Stmt.down, Expr.relabel_down n e]
  | n, .print e => by rw [Stmt.relabel, Stmt.down, Expr.relabel_down n e]
  | n, .forEach ident e body => by
    rw [Stmt.relabel, Stmt.down, Expr.relabel_down n e, Block.relabel_down n body]

theorem Block.relabel_down : ∀ (n : Nat) (block : Block), block.relabel (Ident.down n) = block.down n
  | n, .one stmt => by rw [Block.relabel, Block.down, Stmt.relabel_down n stmt]
  | n, .more stmt rest => by
    rw [Block.relabel, Block.down, Stmt.relabel_down n stmt, Block.relabel_down n rest]

end

/-! ## Runs and checks -/

/-- The second error is the first one `n` lines further down. -/
def EvalError.IsDown (n : Nat) (err err' : EvalError) : Prop := err' = err.down n

/-- The second error is the first one `n` lines further down. -/
def TypeError.IsDown (n : Nat) (err err' : TypeError) : Prop := err' = err.down n

theorem EvalError.isRelabelled_down : EvalError.IsRelabelled (Ident.down n) = EvalError.IsDown n := by
  funext err err'
  cases err <;> rfl

theorem TypeError.isRelabelled_down : TypeError.IsRelabelled (Ident.down n) = TypeError.IsDown n := by
  funext err err'
  cases err <;> rfl

/-- A program runs as it does elsewhere. -/
theorem Block.endAlike_execute_down {σ : Type} [Writer σ] (n : Nat) (program : Block)
    (m : Machine σ) :
    EndAlike (EvalError.IsDown n) Eq (program.execute m) ((program.down n).execute m) := by
  rw [← Block.relabel_down, ← EvalError.isRelabelled_down]
  exact Block.endAlike_execute_moved (Ident.name_down n) program m

/-- It is checked as it is elsewhere. -/
theorem Block.endAlike_check_down (n : Nat) (block : Block) (s : Scopes Ty) :
    EndAlike (TypeError.IsDown n) Eq (block.check s) ((block.down n).check s) := by
  rw [← Block.relabel_down, ← TypeError.isRelabelled_down]
  exact Block.endAlike_check_moved (Ident.name_down n) block s

/-! ## Derivations -/

/-- The same token `n` lines further down. -/
def Terminal.down {kind : Kind} (n : Nat) (t : Terminal kind) : Terminal kind := ⟨t.1.down n, t.2⟩

mutual

/-- The derivation of the same tokens `n` lines further down. -/
def Phrase.down (n : Nat) : {l : Level} → Phrase l → Phrase l
  | _, .tighter h e => .tighter h (e.down n)
  | _, .binary h left operator right => .binary h (left.down n) (operator.down n) (right.down n)
  | _, .cons left operator right => .cons (left.down n) (operator.down n) (right.down n)
  | _, .negate operator e => .negate (operator.down n) (e.down n)
  | _, .not operator e => .not (operator.down n) (e.down n)
  | _, .number t value h => .number (t.down n) value h
  | _, .truth t value h => .truth (t.down n) value h
  | _, .name t => .name (t.down n)
  | _, .group opening e closing => .group (opening.down n) (e.down n) (closing.down n)
  | _, .list opening items closing => .list (opening.down n) (items.down n) (closing.down n)

/-- The derivation of the same tokens `n` lines further down. -/
def Items.down (n : Nat) : Items → Items
  | .one e => .one (e.down n)
  | .more e comma rest => .more (e.down n) (comma.down n) (rest.down n)

end

mutual

theorem Phrase.tokens_down (n : Nat) : ∀ {l : Level} (e : Phrase l),
    (e.down n).tokens = e.tokens.map (Token.down n)
  | _, .tighter _ e => Phrase.tokens_down n e
  | _, .binary _ left operator right => by
    simp only [Phrase.down, Phrase.tokens, Phrase.tokens_down n left, Phrase.tokens_down n right,
      List.map_append, List.map_cons, Terminal.down]
  | _, .cons left operator right => by
    simp only [Phrase.down, Phrase.tokens, Phrase.tokens_down n left, Phrase.tokens_down n right,
      List.map_append, List.map_cons, Terminal.down]
  | _, .negate operator e => by
    simp only [Phrase.down, Phrase.tokens, Phrase.tokens_down n e, List.map_cons, Terminal.down]
  | _, .not operator e => by
    simp only [Phrase.down, Phrase.tokens, Phrase.tokens_down n e, List.map_cons, Terminal.down]
  | _, .number _ _ _ => rfl
  | _, .truth _ _ _ => rfl
  | _, .name _ => rfl
  | _, .group opening e closing => by
    simp only [Phrase.down, Phrase.tokens, Phrase.tokens_down n e, List.map_append, List.map_cons,
      List.map_nil, Terminal.down]
  | _, .list opening items closing => by
    simp only [Phrase.down, Phrase.tokens, Items.tokens_down n items, List.map_append,
      List.map_cons, List.map_nil, Terminal.down]

theorem Items.tokens_down (n : Nat) : ∀ items : Items,
    (items.down n).tokens = items.tokens.map (Token.down n)
  | .one e => Phrase.tokens_down n e
  | .more e comma rest => by
    simp only [Items.down, Items.tokens, Phrase.tokens_down n e, Items.tokens_down n rest,
      List.map_append, List.map_cons, Terminal.down]

end

mutual

theorem Phrase.tree_down (n : Nat) : ∀ {l : Level} (e : Phrase l), (e.down n).tree = e.tree.down n
  | _, .tighter _ e => Phrase.tree_down n e
  | _, .binary _ left _ right => by
    simp only [Phrase.down, Phrase.tree, Expr.down, Phrase.tree_down n left, Phrase.tree_down n right]
  | _, .cons left _ right => by
    simp only [Phrase.down, Phrase.tree, Expr.down, Phrase.tree_down n left, Phrase.tree_down n right]
  | _, .negate _ e => by simp only [Phrase.down, Phrase.tree, Expr.down, Phrase.tree_down n e]
  | _, .not _ e => by simp only [Phrase.down, Phrase.tree, Expr.down, Phrase.tree_down n e]
  | _, .number _ _ _ => rfl
  | _, .truth _ _ _ => rfl
  | _, .name _ => rfl
  | _, .group _ e _ => Phrase.tree_down n e
  | _, .list _ items _ => by simp only [Phrase.down, Phrase.tree, Expr.down, Items.tree_down n items]

theorem Items.tree_down (n : Nat) : ∀ items : Items, (items.down n).tree = items.tree.down n
  | .one e => by simp only [Items.down, Items.tree, Exprs.down, Phrase.tree_down n e]
  | .more e _ rest => by
    simp only [Items.down, Items.tree, Exprs.down, Phrase.tree_down n e, Items.tree_down n rest]

end

mutual

/-- The derivation of the same tokens `n` lines further down. -/
def StmtPhrase.down (n : Nat) : StmtPhrase → StmtPhrase
  | .declare var name assign e =>
    .declare (var.down n) (name.down n) (assign.down n) (e.down n)
  | .assign name assign e => .assign (name.down n) (assign.down n) (e.down n)
  | .print print e => .print (print.down n) (e.down n)
  | .forEach forWord name colon e opening body closing =>
    .forEach (forWord.down n) (name.down n) (colon.down n) (e.down n) (opening.down n) (body.down n)
      (closing.down n)

/-- The derivation of the same tokens `n` lines further down. -/
def SeqPhrase.down (n : Nat) : SeqPhrase → SeqPhrase
  | .one stmt => .one (stmt.down n)
  | .trailing stmt semicolon => .trailing (stmt.down n) (semicolon.down n)
  | .more stmt semicolon rest => .more (stmt.down n) (semicolon.down n) (rest.down n)

end

mutual

theorem StmtPhrase.tokens_down (n : Nat) : ∀ stmt : StmtPhrase,
    (stmt.down n).tokens = stmt.tokens.map (Token.down n)
  | .declare _ _ _ e => by
    simp only [StmtPhrase.down, StmtPhrase.tokens, Phrase.tokens_down n e, List.map_cons,
      Terminal.down]
  | .assign _ _ e => by
    simp only [StmtPhrase.down, StmtPhrase.tokens, Phrase.tokens_down n e, List.map_cons,
      Terminal.down]
  | .print _ e => by
    simp only [StmtPhrase.down, StmtPhrase.tokens, Phrase.tokens_down n e, List.map_cons,
      Terminal.down]
  | .forEach _ _ _ e _ body _ => by
    simp only [StmtPhrase.down, StmtPhrase.tokens, Phrase.tokens_down n e,
      SeqPhrase.tokens_down n body, List.map_append, List.map_cons, List.map_nil, Terminal.down]

theorem SeqPhrase.tokens_down (n : Nat) : ∀ d : SeqPhrase,
    (d.down n).tokens = d.tokens.map (Token.down n)
  | .one stmt => StmtPhrase.tokens_down n stmt
  | .trailing stmt _ => by
    simp only [SeqPhrase.down, SeqPhrase.tokens, StmtPhrase.tokens_down n stmt, List.map_append,
      List.map_cons, List.map_nil, Terminal.down]
  | .more stmt _ rest => by
    simp only [SeqPhrase.down, SeqPhrase.tokens, StmtPhrase.tokens_down n stmt,
      SeqPhrase.tokens_down n rest, List.map_append, List.map_cons, Terminal.down]

end

mutual

theorem StmtPhrase.tree_down (n : Nat) : ∀ stmt : StmtPhrase, (stmt.down n).tree = stmt.tree.down n
  | .declare _ name _ e => by
    simp only [StmtPhrase.down, StmtPhrase.tree, Stmt.down, Phrase.tree_down n e]
    rfl
  | .assign name _ e => by
    simp only [StmtPhrase.down, StmtPhrase.tree, Stmt.down, Phrase.tree_down n e]
    rfl
  | .print _ e => by simp only [StmtPhrase.down, StmtPhrase.tree, Stmt.down, Phrase.tree_down n e]
  | .forEach _ name _ e _ body _ => by
    simp only [StmtPhrase.down, StmtPhrase.tree, Stmt.down, Phrase.tree_down n e,
      SeqPhrase.tree_down n body]
    rfl

theorem SeqPhrase.tree_down (n : Nat) : ∀ d : SeqPhrase, (d.down n).tree = d.tree.down n
  | .one stmt => by simp only [SeqPhrase.down, SeqPhrase.tree, Block.down, StmtPhrase.tree_down n stmt]
  | .trailing stmt _ => by
    simp only [SeqPhrase.down, SeqPhrase.tree, Block.down, StmtPhrase.tree_down n stmt]
  | .more stmt _ rest => by
    simp only [SeqPhrase.down, SeqPhrase.tree, Block.down, StmtPhrase.tree_down n stmt,
      SeqPhrase.tree_down n rest]

end

end ListScript
