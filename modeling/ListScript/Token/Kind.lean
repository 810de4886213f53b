/-!
# Kinds of tokens

* `Kind` : what a token is to the grammar;
* `Kind.name` : the name of a kind in messages, and `Kind.ofName?`, the kind of that name
  (`ofName?_name`);
* `Kind.all` : every kind once (`mem_all`).
-/

namespace ListScript

/-- What a token is to the grammar: the end of the text, the kinds with a content of their own, the
reserved words, and the symbols. -/
inductive Kind where
  | endOfText | identifier | numeral | boolean
  | forWord | printWord | varWord | ifWord | elseWord | doWord | whileWord | optWord | getWord
  | emptyWord | defWord
  | plus | minus | times | assign | equal | cons | colon
  | openParen | closeParen | semicolon | comma | openBrace | closeBrace | openBracket
  | closeBracket
  | and | not
  deriving DecidableEq, Repr, Inhabited

namespace Kind

/-- The name of a kind in messages. -/
def name : Kind → String
  | .endOfText => "EOF"
  | .identifier => "Ident"
  | .numeral => "Num"
  | .boolean => "Bool"
  | .forWord => "For"
  | .printWord => "Print"
  | .varWord => "Var"
  | .ifWord => "If"
  | .elseWord => "Else"
  | .doWord => "Do"
  | .whileWord => "While"
  | .optWord => "Opt"
  | .getWord => "Get"
  | .emptyWord => "Empty"
  | .defWord => "Def"
  | .plus => "Plus"
  | .minus => "Minus"
  | .times => "Times"
  | .assign => "Assign"
  | .equal => "Eq"
  | .cons => "Prefix"
  | .colon => "In"
  | .openParen => "OpenPar"
  | .closeParen => "ClosePar"
  | .semicolon => "StmtSep"
  | .comma => "ExpSep"
  | .openBrace => "OpenBlock"
  | .closeBrace => "CloseBlock"
  | .openBracket => "OpenList"
  | .closeBracket => "CloseList"
  | .and => "And"
  | .not => "Not"

/-- Every kind. -/
def all : List Kind :=
  [.endOfText, .identifier, .numeral, .boolean,
   .forWord, .printWord, .varWord, .ifWord, .elseWord, .doWord, .whileWord, .optWord, .getWord,
   .emptyWord, .defWord,
   .plus, .minus, .times, .assign, .equal, .cons, .colon,
   .openParen, .closeParen, .semicolon, .comma, .openBrace, .closeBrace, .openBracket,
   .closeBracket,
   .and, .not]

/-- The kind with the given name. -/
def ofName? (name : String) : Option Kind :=
  all.find? fun kind => kind.name == name

/-- The list of kinds is complete. -/
theorem mem_all (kind : Kind) : kind ∈ all := by
  cases kind <;> decide

/-- A kind is found again by its name. -/
theorem ofName?_name (kind : Kind) : ofName? kind.name = some kind := by
  cases kind <;> decide

instance : ToString Kind := ⟨name⟩

end Kind

end ListScript
