import ListScript.Text.Graphic

/-!
# Text in quotes

`quote s` : `s` between double quotes, written so that every character of it can be seen. The quote
itself, the backslash and the common controls have short escapes (`escape`); any other character
that shows no mark of its own is written by its code point in hexadecimal. A single quote stands
for itself.
-/

namespace ListScript.Text

/-- The lower-case hexadecimal digits of `n`, without leading zeros. -/
def hexadecimal (n : Nat) : List Char :=
  Nat.toDigits 16 n

/-- How one character is written between the quotes. -/
def escape (c : Char) : List Char :=
  match c with
  | '"' => ['\\', '"']
  | '\\' => ['\\', '\\']
  | '\n' => ['\\', 'n']
  | '\r' => ['\\', 'r']
  | '\t' => ['\\', 't']
  | '\x00' => ['\\', '0']
  | c =>
    if isGraphic c then [c]
    else '\\' :: 'u' :: '\x7b' :: hexadecimal c.toNat ++ ['\x7d']

/-- The text between double quotes, each character as `escape` writes it. -/
def quote (s : String) : String :=
  String.ofList ('"' :: s.toList.flatMap escape ++ ['"'])

end ListScript.Text
