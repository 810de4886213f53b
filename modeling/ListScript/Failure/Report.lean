import ListScript.Defect
import ListScript.Failure.Basic
import ListScript.Source
import ListScript.Text.Blank
import ListScript.Text.Lines

/-!
# Reports to the author of a program

A report names the failure and its place, and shows the line of the file with a caret under the
place:

    Error: VariableNotDeclared (Variable `y` not declared)
    -> prog.txt:20:9
       |
    20 | var a = y;
       | --------^

* `SourceFile` : a file's name with its bytes, if there is such a file; `SourceFile.line?` a line of
  it;
* `excerpt` : the lines below the place. A caret too far to the right cannot be drawn;
* `Failure.report` : the whole report.
-/

namespace ListScript

/-- A file that a program was read from. -/
structure SourceFile where
  name : String
  /-- The bytes of the file, `none` if there is no such file. -/
  bytes : Option (List UInt8)
  deriving Repr

/-- The line of a file with the given number, if all of the file is text. -/
def SourceFile.line? (file : SourceFile) (number : Nat) : Option (List Char) := do
  let text ← Source.decode (← file.bytes)
  Text.line? text number

/-- How many spaces a line begins with. -/
def indentation (line : List Char) : Nat := (line.takeWhile (· == ' ')).length

/-- What ends the gap between the line numbers and the text. -/
def margin (number : Nat) : String :=
  String.ofList (List.replicate ((toString number).length + 1) ' ') ++ "|"

/-- The text of a line without its indentation and without the blanks at its end. -/
def shownText (line : List Char) : List Char := Text.trimRight (line.drop (indentation line))

/-- The column of the caret, counted from the first character of the text that is shown. A place in
the indentation has the caret under the first character. -/
def caretColumn (line : List Char) (column : Nat) : Nat := max (column - indentation line) 1

/-- The last column in which a caret can be drawn. -/
def lastCaretColumn : Nat := 65535

/-- Dashes, and a caret in the given column. -/
def caret (column : Nat) : String :=
  String.ofList (List.replicate (column - 1) '-' ++ ['^'])

/-- The lines of a report that show a line of the program. -/
def shownLine (line : List Char) (number : Nat) : String :=
  margin number ++ "\n" ++ toString number ++ " | " ++ String.ofList (shownText line) ++ "\n"

/-- The line of a report with the caret. -/
def caretLine (line : List Char) (position : Position) : String :=
  margin position.line ++ " " ++ caret (caretColumn line position.column) ++ "\n"

/-- What is written about a failure, and the defect that cut it short, if there was one. -/
structure Report where
  text : String
  defect : Option Defect
  deriving DecidableEq, Repr

/-- The report that begins with some more text. -/
def Report.after (r : Report) (text : String) : Report := { r with text := text ++ r.text }

/-- A line of the program with a caret under the given place. -/
def excerpt (line : List Char) (position : Position) : Report :=
  if caretColumn line position.column ≤ lastCaretColumn then
    ⟨shownLine line position.line ++ caretLine line position, none⟩
  else ⟨shownLine line position.line, some .caretTooFar⟩

/-- The name of the input where it comes from no file. -/
def standardInput : String := "<stdin>"

namespace Failure

/-- The first line of a report. -/
def headline (failure : Failure) : String :=
  match failure.tip? with
  | none => "Error: " ++ failure.name ++ "\n"
  | some tip => "Error: " ++ failure.name ++ " (" ++ tip ++ ")\n"

/-- The report of a failure of the program in a file, or of one that comes from no file. -/
def report (failure : Failure) (file : Option SourceFile) : Report :=
  let name := (file.map SourceFile.name).getD standardInput
  match failure.position? with
  | none => ⟨failure.headline ++ "-> " ++ name ++ "\n", none⟩
  | some position =>
    let place := "-> " ++ name ++ ":" ++ toString position ++ "\n"
    match file.bind fun file => file.line? position.line with
    | none => ⟨failure.headline ++ place, none⟩
    | some line => (excerpt line position).after (failure.headline ++ place)

end Failure

end ListScript
