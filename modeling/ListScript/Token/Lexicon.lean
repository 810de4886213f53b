import ListScript.Defect
import ListScript.Lexeme.Reader
import ListScript.Token.Basic
import ListScript.Token.Numeral

/-!
# From lexemes to tokens

* `Lexicon` : the reserved words and the symbols, with the kinds of their tokens;
* `Lexicon.standard` : those of the language;
* `Lexicon.token` : the token of the lexeme that a reader read last.
-/

namespace ListScript

/-- The reserved words and the symbols of a language. -/
structure Lexicon where
  keywords : List (String × Kind)
  symbols : List (String × Kind)
  deriving DecidableEq, Repr

namespace Lexicon

/-- The reserved words of the language. -/
def standardKeywords : List (String × Kind) :=
  [("false", .boolean), ("true", .boolean), ("for", .forWord), ("print", .printWord),
   ("var", .varWord), ("if", .ifWord), ("else", .elseWord), ("do", .doWord), ("while", .whileWord),
   ("opt", .optWord), ("get", .getWord), ("empty", .emptyWord), ("def", .defWord)]

/-- The symbols of the language. -/
def standardSymbols : List (String × Kind) :=
  [("+", .plus), ("-", .minus), ("*", .times), ("=", .assign), ("==", .equal), ("::", .cons),
   (":", .colon), ("(", .openParen), (")", .closeParen), (";", .semicolon), (",", .comma),
   ("\x7b", .openBrace), ("\x7d", .closeBrace), ("[", .openBracket), ("]", .closeBracket),
   ("&&", .and), ("!", .not)]

/-- The lexicon of the language. -/
def standard : Lexicon := ⟨standardKeywords, standardSymbols⟩

/-- The kind of a reserved word. -/
def keyword? (lexicon : Lexicon) (text : String) : Option Kind := lexicon.keywords.lookup text

/-- The kind of a symbol. -/
def symbol? (lexicon : Lexicon) (text : String) : Option Kind := lexicon.symbols.lookup text

/-- The pattern of the lexemes that belong to the lexicon. -/
def pattern (lexicon : Lexicon) : Pattern := Pattern.ofSymbols (lexicon.symbols.map Prod.fst)

/-- The token of a word: a reserved word, or an identifier. A reserved word that is a truth value
is true if it is spelled so. -/
def wordToken (lexicon : Lexicon) (text : String) (span : Span) : Token :=
  match lexicon.keyword? text with
  | some .boolean => ⟨.boolean, text, span, some (.bool (text == "true"))⟩
  | some kind => ⟨kind, text, span, none⟩
  | none => ⟨.identifier, text, span, none⟩

/-- The token of a numeral. -/
def numeralToken (text : String) (span : Span) : Except (Stop TokenError) Token :=
  match Numeral.denoted? text.toList with
  | none => .error (.defect (.unreadableNumeral text))
  | some n =>
    if n < Numeral.limit then .ok ⟨.numeral, text, span, some (.int (Int64.ofNat n))⟩
    else .error (.error (.outOfRange text span.start))

/-- The token of a symbol. -/
def symbolToken (lexicon : Lexicon) (text : String) (span : Span) :
    Except (Stop TokenError) Token :=
  match lexicon.symbol? text with
  | some kind => .ok ⟨kind, text, span, none⟩
  | none => .error (.defect (.unknownSymbol text))

/-- The token of the lexeme that a reader read last. -/
def token (lexicon : Lexicon) (r : Reader) : Except (Stop TokenError) Token :=
  match r.category with
  | some .identifier => .ok (lexicon.wordToken r.text r.span)
  | some .numeral => numeralToken r.text r.span
  | _ => lexicon.symbolToken r.text r.span

end Lexicon

end ListScript
