import ListScript.Grammar.Error
import ListScript.Grammar.Rules
import ListScript.Token.Stream

/-!
# Reading trees from tokens

* `Parser` : steps over a stream of tokens. What a failed step has read stays read;
* `Parser.current`, `Parser.advance`, `Parser.expect` : the token at hand, the step over it, and
  the step over a token that must have a given kind;
* `Grammar` : the trees that begin at the token at hand, by the rules of a grammar. The first
  number bounds how deeply a tree may nest;
* `Parser.budget` : a bound that no text exceeds whose tokens all use up characters;
* `parse` : the program that a stream holds up to its end.
-/

namespace ListScript

/-- Steps over a stream of tokens. -/
abbrev Parser := EStateM (Stop SyntaxError) TokenStream

namespace Parser

/-- An answer of the stream as a step that leaves the stream as it is. -/
def ofExcept {α : Type} : Except TokenError α → Parser α
  | .ok a => pure a
  | .error e => throw (.error (.token e))

/-- The token at hand. -/
def current : Parser Token := do ofExcept (← get).token

/-- The kind of the token at hand. -/
def currentKind : Parser Kind := do ofExcept (← get).kind

/-- The next token of the stream. -/
def step : Parser Kind := fun s =>
  match s.advance with
  | .ok kind s => .ok kind s
  | .error stop s => .error (stop.map .token) s

/-- Steps over the token at hand and gives it. At the end of the text it stays at hand. -/
def advance : Parser Token := do
  let token ← current
  if (← get).hasNext then discard step
  pure token

/-- What is reported when the token at hand is not what was expected. -/
def unexpectedHere (expected : String) (s : TokenStream) : SyntaxError :=
  match s.token with
  | .ok token =>
    .unexpected (if token.kind = .endOfText then "EOF" else token.text) expected token.span.start
  | .error e => .token e

/-- Fails because the token at hand is not what was expected. -/
def unexpected {α : Type} (expected : String) : Parser α := do
  throw (.error (unexpectedHere expected (← get)))

/-- Steps over the token at hand if it has the given kind. -/
def expect (kind : Kind) : Parser Token := do
  if (← currentKind) = kind then advance else unexpected kind.name

/-- Whether the token at hand has the given kind. -/
def isAt (kind : Kind) : Parser Bool := do
  return (← currentKind) = kind

/-- Moves to the first token unless there is a token at hand. -/
def start : Parser Unit := do
  if (← get).current.isNone then discard step

/-- Steps over a name. -/
def ident : Parser Ident := do
  let token ← expect .identifier
  pure ⟨token.text, token.span.start⟩

/-- A literal or a name. -/
def atom : Parser Expr := do
  match ← currentKind with
  | .numeral => return .int (← ofExcept (← advance).int)
  | .boolean => return .bool (← ofExcept (← advance).bool)
  | .identifier =>
    let token ← advance
    return .var ⟨token.text, token.span.start⟩
  | _ => unexpected "a literal or identifier"

/-- How deeply the trees of a stream may nest. Every token is good for four levels, and there are
no more tokens than characters besides the token at hand. -/
def budget (s : TokenStream) : Nat := 4 * s.reader.size + 8

end Parser

namespace Grammar
open ListScript.Parser

mutual

/-- An expression all of whose operators outside parentheses bind more tightly than `power`. -/
def expr (rules : Rules) : Nat → Power → Parser Expr
  | 0, _ => throw (.defect .endless)
  | n + 1, power => do
    match rules.opening (← currentKind) with
    | some form => proceed rules n power (← opening rules n form)
    | none => unexpected "an expression"

/-- Goes on with an expression as long as an operator follows that binds more tightly than
`power`. -/
def proceed (rules : Rules) : Nat → Power → Expr → Parser Expr
  | 0, _, _ => throw (.defect .endless)
  | n + 1, power, left => do
    match rules.continuation (← currentKind) with
    | some (tight, form) =>
      if power < tight then proceed rules n power (← continuation rules n form left tight)
      else pure left
    | none => pure left

/-- The beginning of an expression in a given form. -/
def opening (rules : Rules) : Nat → Opening → Parser Expr
  | 0, _ => throw (.defect .endless)
  | _ + 1, .atom => atom
  | n + 1, .unary => do
    let operator ← advance
    let operand ← expr rules n .unary
    match operator.kind.unaryOp? with
    | some op => pure (.unary op operand)
    | none => throw (.defect (.notUnary operator.kind))
  | n + 1, .group => do
    discard (expect .openParen)
    let inner ← expr rules n .lowest
    discard (expect .closeParen)
    pure inner
  | n + 1, .list => do
    discard (expect .openBracket)
    let items ← exprs rules n
    discard (expect .closeBracket)
    pure (.list items)

/-- An operator after `left` and its right operand. The operand of an operator that groups to the
left has only tighter operators; that of `::` may have any. -/
def continuation (rules : Rules) : Nat → Continuation → Expr → Power → Parser Expr
  | 0, _, _, _ => throw (.defect .endless)
  | n + 1, .binary, left, power => do
    let operator ← advance
    let right ← expr rules n power
    match operator.kind.binaryOp? with
    | some op => pure (.binary op left right)
    | none => throw (.defect (.notBinary operator.kind))
  | n + 1, .cons, left, _ => do
    discard (expect .cons)
    let right ← expr rules n .lowest
    pure (.binary .cons left right)

/-- One or more expressions, separated by commas. -/
def exprs (rules : Rules) : Nat → Parser Exprs
  | 0 => throw (.defect .endless)
  | n + 1 => do
    let item ← expr rules n .lowest
    if ← isAt .comma then
      discard advance
      return .more item (← exprs rules n)
    else
      return .one item

end

mutual

/-- A statement in the form that its first token asks for. -/
def stmt (rules : Rules) : Nat → Parser Stmt
  | 0 => throw (.defect .endless)
  | n + 1 => do
    match rules.form (← currentKind) with
    | some form => stmtOf rules n form
    | none => unexpected "a statement"

/-- A statement of a given form. -/
def stmtOf (rules : Rules) : Nat → StmtForm → Parser Stmt
  | 0, _ => throw (.defect .endless)
  | n + 1, .declare => do
    discard (expect .varWord)
    let ident ← ident
    discard (expect .assign)
    return .declare ident (← expr rules n .lowest)
  | n + 1, .assign => do
    let ident ← ident
    discard (expect .assign)
    return .assign ident (← expr rules n .lowest)
  | n + 1, .print => do
    discard (expect .printWord)
    return .print (← expr rules n .lowest)
  | n + 1, .forEach => do
    discard (expect .forWord)
    let ident ← ident
    discard (expect .colon)
    let items ← expr rules n .lowest
    discard (expect .openBrace)
    let body ← block rules n
    discard (expect .closeBrace)
    return .forEach ident items body

/-- One or more statements, separated by semicolons. A semicolon may also stand before the end of
the block or of the text. -/
def block (rules : Rules) : Nat → Parser Block
  | 0 => throw (.defect .endless)
  | n + 1 => do
    let first ← stmt rules n
    if ← isAt .semicolon then
      discard advance
      if (← isAt .endOfText) || (← isAt .closeBrace) then return .one first
      else return .more first (← block rules n)
    else
      return .one first

end

end Grammar

namespace Parser

/-- A step that is given the bound for the stream at hand. -/
def withBudget {α : Type} (parser : Nat → Parser α) : Parser α := fun s => parser (budget s) s

/-- A program up to the end of the text. -/
def program (rules : Rules) : Parser Block := do
  start
  let block ← withBudget (Grammar.block rules)
  discard (expect .endOfText)
  pure block

end Parser

/-- The program that a stream holds up to its end, and the stream after it. -/
def parse (s : TokenStream) : EStateM.Result (Stop SyntaxError) TokenStream Block :=
  Parser.program Rules.standard s

end ListScript
