import ListScript.Text.Blank

/-!
# What a lexeme looks like

* `Category` : the three categories of lexemes with a spelling of their own, and their spellings
  (`Category.lexeme?`); any other lexeme is a symbol of the pattern at hand;
* `Lexeme` : a stretch of a line with its category, `none` for a symbol;
* `Pattern` : the symbols of a lexical pattern, in the order in which they are tried
  (`Pattern.ofSymbols`, longer ones first);
* `Pattern.lexeme?` : the lexeme with which a text begins;
* `Pattern.regex` : the pattern as a regular expression, in which every category has a named group;
* `Category.group?` : the number of a category's group among the groups of an expression.
-/

namespace ListScript

/-- The categories of lexemes that have a spelling of their own. -/
inductive Category where
  | identifier
  | numeral
  | blank
  deriving DecidableEq, Repr, Inhabited

/-- A stretch of a line. A symbol has no category. -/
structure Lexeme where
  text : List Char
  category : Option Category
  deriving DecidableEq, Repr, Inhabited

/-! ## Classes of characters -/

/-- The letters that a word may hold. -/
def isLetter (c : Char) : Bool := ('a' ≤ c && c ≤ 'z') || ('A' ≤ c && c ≤ 'Z')

/-- The decimal digits. -/
def isDigit (c : Char) : Bool := '0' ≤ c && c ≤ '9'

/-- The binary digits. -/
def isBit (c : Char) : Bool := c == '0' || c == '1'

/-- What may follow the first letter of a word. -/
def isWordChar (c : Char) : Bool := isLetter c || isDigit c

/-! ## Categories -/

namespace Category

/-- The categories in the order in which they are tried. -/
def all : List Category := [.identifier, .numeral, .blank]

/-- The full name of a category. -/
def name : Category → String
  | .identifier => "Identifier"
  | .numeral => "Number"
  | .blank => "Skip"

/-- The name of a category's group in a regular expression. -/
def groupName : Category → String
  | .identifier => "ident"
  | .numeral => "num"
  | .blank => "skip"

/-- The spelling of a category as a regular expression. -/
def regex : Category → String
  | .identifier => "[a-zA-Z][a-zA-Z0-9]*"
  | .numeral => "[1-9][0-9]*|0[bB][01]+|0"
  | .blank => "(?-u:\\s)+|//.*"

/-- The word with which a text begins: a letter, then letters and digits. -/
def word? : List Char → Option (List Char)
  | [] => none
  | c :: rest => if isLetter c then some (c :: rest.takeWhile isWordChar) else none

/-- The numeral with which a text begins. A zero stands alone unless it opens a binary numeral,
which needs a digit after its `b`. -/
def numeral? : List Char → Option (List Char)
  | [] => none
  | '0' :: rest =>
    match rest with
    | b :: c :: more =>
      if (b == 'b' || b == 'B') && isBit c then some ('0' :: b :: c :: more.takeWhile isBit)
      else some ['0']
    | _ => some ['0']
  | c :: rest => if isDigit c then some (c :: rest.takeWhile isDigit) else none

/-- What a text begins with that separates other lexemes: a run of blanks, or a comment up to the
end of the line. -/
def blank? : List Char → Option (List Char)
  | '/' :: '/' :: rest => some ('/' :: '/' :: rest.takeWhile (· != '\n'))
  | c :: rest => if Text.isSpace c then some (c :: rest.takeWhile Text.isSpace) else none
  | [] => none

/-- A separator is never empty. -/
theorem length_pos_of_blank? {text found : List Char} (h : blank? text = some found) :
    0 < found.length := by
  unfold blank? at h
  split at h
  · simp only [Option.some.injEq] at h; subst h; simp
  · split at h
    · simp only [Option.some.injEq] at h; subst h; simp
    · exact absurd h (by simp)
  · exact absurd h (by simp)

/-- The lexeme of a category with which a text begins. -/
def lexeme? : Category → List Char → Option (List Char)
  | .identifier => word?
  | .numeral => numeral?
  | .blank => blank?

/-- The number of the category's group in an expression whose groups have the given names, in that
order; the whole match is number zero. -/
def group? (names : List (Option String)) (category : Category) : Option Nat :=
  (names.findIdx? (· == some category.groupName)).map (· + 1)

end Category

/-! ## Patterns -/

/-- The symbols of a lexical pattern in the order in which they are tried. -/
structure Pattern where
  symbols : List String
  deriving DecidableEq, Repr, Inhabited

namespace Pattern

/-- Whether symbol `a` is tried no later than `b`: longer symbols come first, counted in bytes, and
symbols of one length in their order as texts. -/
def triedBefore (a b : String) : Bool :=
  b.utf8ByteSize < a.utf8ByteSize || (a.utf8ByteSize == b.utf8ByteSize && decide (a ≤ b))

/-- The pattern of some symbols, listed in any order. -/
def ofSymbols (symbols : List String) : Pattern :=
  ⟨symbols.mergeSort triedBefore⟩

/-- The lexeme with which a text begins: the first category that fits, else the first symbol. -/
def lexeme? (p : Pattern) (text : List Char) : Option Lexeme :=
  match Category.word? text with
  | some found => some ⟨found, some .identifier⟩
  | none =>
    match Category.numeral? text with
    | some found => some ⟨found, some .numeral⟩
    | none =>
      match Category.blank? text with
      | some found => some ⟨found, some .blank⟩
      | none =>
        match p.symbols.find? fun symbol => symbol.toList.isPrefixOf text with
        | some symbol => some ⟨symbol.toList, none⟩
        | none => none

/-- A lexeme that separates others is not empty. -/
theorem length_pos_of_lexeme? {p : Pattern} {text : List Char} {lexeme : Lexeme}
    (h : p.lexeme? text = some lexeme) (blank : lexeme.category = some .blank) :
    0 < lexeme.text.length := by
  unfold lexeme? at h
  split at h
  · simp only [Option.some.injEq] at h; subst h; simp at blank
  · split at h
    · simp only [Option.some.injEq] at h; subst h; simp at blank
    · split at h
      · next found hb =>
        simp only [Option.some.injEq] at h; subst h; exact Category.length_pos_of_blank? hb
      · split at h
        · simp only [Option.some.injEq] at h; subst h; simp at blank
        · exact absurd h (by simp)

/-- No category begins with the end of a text. -/
theorem category_of_lexeme?_nil {p : Pattern} {lexeme : Lexeme} (h : p.lexeme? [] = some lexeme) :
    lexeme.category = none := by
  simp only [lexeme?, Category.word?, Category.numeral?, Category.blank?] at h
  split at h
  · simp only [Option.some.injEq] at h; subst h; rfl
  · exact absurd h (by simp)

/-- The characters that have a meaning of their own in a regular expression. -/
def isSpecial (c : Char) : Bool :=
  "\\.+*?()|[]\x7b\x7d^$#&-~".toList.contains c

/-- A symbol as a regular expression that matches it and nothing else. -/
def escaped (symbol : String) : String :=
  String.ofList (symbol.toList.flatMap fun c => if isSpecial c then ['\\', c] else [c])

/-- The pattern as a regular expression, anchored at its start. -/
def regex (p : Pattern) : String :=
  let groups := Category.all.map fun c => "(?P<" ++ c.groupName ++ ">" ++ c.regex ++ ")"
  "^(?:" ++ "|".intercalate (groups ++ p.symbols.map escaped) ++ ")"

end Pattern

end ListScript
