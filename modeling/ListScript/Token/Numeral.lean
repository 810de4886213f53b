import ListScript.Lexeme.Pattern

/-!
# What numerals denote

* `Numeral.value? base digits` : the number that some digits denote in a base, `none` if there is
  no digit or one that the base lacks;
* `Numeral.denoted?` : the number that a numeral denotes, binary after `0b` or `0B`, else decimal;
* `Numeral.limit` : what an integer literal stays below.
-/

namespace ListScript.Numeral

/-- The value of a digit in a base. -/
def digit? (base : Nat) (c : Char) : Option Nat :=
  if isDigit c && c.toNat - '0'.toNat < base then some (c.toNat - '0'.toNat) else none

/-- The number that some digits denote. -/
def value? (base : Nat) (digits : List Char) : Option Nat :=
  if digits.isEmpty then none
  else digits.foldlM (fun n c => (digit? base c).map fun d => n * base + d) 0

/-- The number that a numeral denotes. -/
def denoted? (text : List Char) : Option Nat :=
  match text with
  | first :: second :: digits =>
    if second == 'b' || second == 'B' then value? 2 digits
    else value? 10 (first :: second :: digits)
  | text => value? 10 text

/-- The first number that is no integer literal, the sixty-third power of two. -/
def limit : Nat := 9223372036854775808

end ListScript.Numeral
