import ListScript.Token.Basic
import ListScript.Tree.Basic

/-!
# Derivations of the grammar

The grammar of the language, with a nonterminal for every strength of operators, and its
derivations as data:

    Prog ::= Seq EOF
    Seq  ::= Stmt | Stmt ';' | Stmt ';' Seq
    Stmt ::= 'var' IDENT '=' E | IDENT '=' E | 'print' E | 'for' IDENT ':' E '{' Seq '}'
    E    ::= A | A '::' E
    A    ::= R | A '&&' R
    R    ::= S | R '==' S
    S    ::= T | S '+' T
    T    ::= U | T '*' U
    U    ::= '-' U | '!' U | NUM | BOOL | IDENT | '(' E ')' | '[' E (',' E)* ']'

* `Terminal kind` : a token of a kind;
* `Level` : the nonterminals from `E` to `U`, with the operators of those from `A` to `T`;
* `Phrase`, `Items`, `StmtPhrase`, `SeqPhrase`, `ProgramPhrase` : the derivations from each
  nonterminal;
* `tokens` : what a derivation derives; `tree` : the tree that it stands for. Every name carries the
  text and the start of its token, and every literal the content of its token.
-/

namespace ListScript

/-- A token of the given kind. -/
abbrev Terminal (kind : Kind) : Type := { token : Token // token.kind = kind }

/-- The name that a token stands for, with its place. -/
def Terminal.ident (t : Terminal .identifier) : Ident := ⟨t.1.text, t.1.span.start⟩

/-- The nonterminals `E`, `A`, `R`, `S`, `T` and `U`. -/
inductive Level where
  | whole
  | conjunction
  | comparison
  | sum
  | product
  | operand
  deriving DecidableEq, Repr

namespace Level

/-- The next nonterminal: what the operators of a level combine. -/
def tighter : Level → Level
  | .whole => .conjunction
  | .conjunction => .comparison
  | .comparison => .sum
  | .sum => .product
  | .product | .operand => .operand

/-- The operator of a level that groups to the left: the kind of its token, and what it stands
for. -/
def operator? : Level → Option (Kind × BinaryOp)
  | .conjunction => some (.and, .and)
  | .comparison => some (.equal, .equal)
  | .sum => some (.plus, .add)
  | .product => some (.times, .multiply)
  | .whole | .operand => none

end Level

/-! ## Expressions -/

mutual

/-- The derivations from a nonterminal for expressions. -/
inductive Phrase : Level → Type
  | tighter {l : Level} (h : l ≠ .operand) (e : Phrase l.tighter) : Phrase l
  | binary {l : Level} {kind : Kind} {op : BinaryOp} (h : l.operator? = some (kind, op))
    (left : Phrase l) (operator : Terminal kind) (right : Phrase l.tighter) : Phrase l
  | cons (left : Phrase .conjunction) (operator : Terminal .cons) (right : Phrase .whole) :
    Phrase .whole
  | negate (operator : Terminal .minus) (e : Phrase .operand) : Phrase .operand
  | not (operator : Terminal .not) (e : Phrase .operand) : Phrase .operand
  | number (t : Terminal .numeral) (value : Int64) (h : t.1.literal = some (.int value)) :
    Phrase .operand
  | truth (t : Terminal .boolean) (value : Bool) (h : t.1.literal = some (.bool value)) :
    Phrase .operand
  | name (t : Terminal .identifier) : Phrase .operand
  | group (opening : Terminal .openParen) (e : Phrase .whole) (closing : Terminal .closeParen) :
    Phrase .operand
  | list (opening : Terminal .openBracket) (items : Items) (closing : Terminal .closeBracket) :
    Phrase .operand

/-- The derivations of one or more expressions between commas. -/
inductive Items : Type
  | one (e : Phrase .whole)
  | more (e : Phrase .whole) (comma : Terminal .comma) (rest : Items)

end

mutual

/-- The tokens that are derived. -/
def Phrase.tokens : {l : Level} → Phrase l → List Token
  | _, .tighter _ e => e.tokens
  | _, .binary _ left operator right => left.tokens ++ operator.1 :: right.tokens
  | _, .cons left operator right => left.tokens ++ operator.1 :: right.tokens
  | _, .negate operator e | _, .not operator e => operator.1 :: e.tokens
  | _, .number t _ _ | _, .truth t _ _ | _, .name t => [t.1]
  | _, .group opening e closing => opening.1 :: (e.tokens ++ [closing.1])
  | _, .list opening items closing => opening.1 :: (items.tokens ++ [closing.1])

/-- The tokens that are derived. -/
def Items.tokens : Items → List Token
  | .one e => e.tokens
  | .more e comma rest => e.tokens ++ comma.1 :: rest.tokens

end

mutual

/-- The tree of a derivation. -/
def Phrase.tree : {l : Level} → Phrase l → Expr
  | _, .tighter _ e => e.tree
  | _, @Phrase.binary _ _ op _ left _ right => .binary op left.tree right.tree
  | _, .cons left _ right => .binary .cons left.tree right.tree
  | _, .negate _ e => .unary .negate e.tree
  | _, .not _ e => .unary .not e.tree
  | _, .number _ value _ => .int value
  | _, .truth _ value _ => .bool value
  | _, .name t => .var t.ident
  | _, .group _ e _ => e.tree
  | _, .list _ items _ => .list items.tree

/-- The trees of expressions between commas. -/
def Items.tree : Items → Exprs
  | .one e => .one e.tree
  | .more e _ rest => .more e.tree rest.tree

end

/-! ## Statements -/

mutual

/-- The derivations of a statement. -/
inductive StmtPhrase : Type
  | declare (var : Terminal .varWord) (name : Terminal .identifier) (assign : Terminal .assign)
    (e : Phrase .whole)
  | assign (name : Terminal .identifier) (assign : Terminal .assign) (e : Phrase .whole)
  | print (print : Terminal .printWord) (e : Phrase .whole)
  | forEach (forWord : Terminal .forWord) (name : Terminal .identifier) (colon : Terminal .colon)
    (e : Phrase .whole) (opening : Terminal .openBrace) (body : SeqPhrase)
    (closing : Terminal .closeBrace)

/-- The derivations of one or more statements between semicolons; one more may stand at the end. -/
inductive SeqPhrase : Type
  | one (stmt : StmtPhrase)
  | trailing (stmt : StmtPhrase) (semicolon : Terminal .semicolon)
  | more (stmt : StmtPhrase) (semicolon : Terminal .semicolon) (rest : SeqPhrase)

end

/-- The derivations of a program. -/
structure ProgramPhrase where
  body : SeqPhrase
  stop : Terminal .endOfText

mutual

/-- The tokens that are derived. -/
def StmtPhrase.tokens : StmtPhrase → List Token
  | .declare var name assign e => var.1 :: name.1 :: assign.1 :: e.tokens
  | .assign name assign e => name.1 :: assign.1 :: e.tokens
  | .print print e => print.1 :: e.tokens
  | .forEach forWord name colon e opening body closing =>
    forWord.1 :: name.1 :: colon.1 :: (e.tokens ++ opening.1 :: (body.tokens ++ [closing.1]))

/-- The tokens that are derived. -/
def SeqPhrase.tokens : SeqPhrase → List Token
  | .one stmt => stmt.tokens
  | .trailing stmt semicolon => stmt.tokens ++ [semicolon.1]
  | .more stmt semicolon rest => stmt.tokens ++ semicolon.1 :: rest.tokens

end

mutual

/-- The tree of a derivation. -/
def StmtPhrase.tree : StmtPhrase → Stmt
  | .declare _ name _ e => .declare name.ident e.tree
  | .assign name _ e => .assign name.ident e.tree
  | .print _ e => .print e.tree
  | .forEach _ name _ e _ body _ => .forEach name.ident e.tree body.tree

/-- The tree of a derivation. -/
def SeqPhrase.tree : SeqPhrase → Block
  | .one stmt | .trailing stmt _ => .one stmt.tree
  | .more stmt _ rest => .more stmt.tree rest.tree

end

namespace ProgramPhrase

/-- The tokens of a program, the end of the text last. -/
def tokens (p : ProgramPhrase) : List Token := p.body.tokens ++ [p.stop.1]

/-- The tree of a program. -/
def tree (p : ProgramPhrase) : Block := p.body.tree

end ProgramPhrase

end ListScript
