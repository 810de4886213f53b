import ListScript.Failure.Report
import ListScript.Program

/-!
# The command line

* `Invocation` : what a run of the command is asked to do, and `Invocation.ofArgs?`;
* `Outcome` : the status and what is written to standard output and standard error;
* `Invocation.perform` : what the command does with the bytes of its input.
-/

namespace ListScript

/-- What a run of the command is asked to do. -/
structure Invocation where
  /-- The program's file; standard input if `none`. -/
  file : Option String
  /-- Whether the tokens are listed instead of running the program. -/
  tokens : Bool
  /-- Whether types are checked before the program is run. -/
  typecheck : Bool
  deriving DecidableEq, Repr

/-- What a run of the command leaves behind. -/
structure Outcome where
  status : Nat
  stdout : String
  stderr : String
  deriving DecidableEq, Repr

namespace Invocation

/-- The request without any argument: to run standard input with its types checked. -/
def standard : Invocation := ⟨none, false, true⟩

/-- Adds one argument. There are two options, and at most one file. -/
def add? (i : Invocation) (arg : String) : Option Invocation :=
  if arg = "--tokens" then some { i with tokens := true }
  else if arg = "--no-typecheck" then some { i with typecheck := false }
  else if (arg.toList.head? = some '-' && arg ≠ "-") || i.file.isSome then none
  else some { i with file := some arg }

/-- What the arguments ask for. -/
def ofArgs? (args : List String) : Option Invocation :=
  args.foldlM add? standard

/-- The outcome for a file that does not exist. -/
def fileMissing (name : String) : Outcome :=
  ⟨1, "", "Failed to read the input file '" ++ name ++
    "': No such file or directory (os error 2)\n"⟩

/-- The outcome of a defect, after `stdout` and `stderr` were written. -/
def defective (defect : Defect) (stdout stderr : String) : Outcome :=
  ⟨101, stdout, stderr ++ defect.message ++ "\n"⟩

/-- Adds a report to what has been written. A report that was cut short ends the run. -/
def addReport (status : Nat) (written : Outcome) (report : Report) : Except Outcome Outcome :=
  match report.defect with
  | none => .ok ⟨status, written.stdout, written.stderr ++ report.text⟩
  | some defect => .error (defective defect written.stdout (written.stderr ++ report.text))

/-- The outcome of a run that went on to its end or was ended before. -/
def settled : Except Outcome Outcome → Outcome
  | .ok outcome => outcome
  | .error outcome => outcome

/-- Runs the program in some bytes. -/
def runProgram (typecheck : Bool) (bytes : List UInt8) (file : Option SourceFile) : Outcome :=
  match Program.run (Source.ofBytes bytes none) typecheck Sink.unlimited with
  | .ok () sink => ⟨0, sink.text, ""⟩
  | .error (.error failure) sink =>
    settled (addReport 1 ⟨0, sink.text, ""⟩ (failure.report file))
  | .error (.defect defect) sink => defective defect sink.text ""

/-- The line that shows a token in a listing. -/
def tokenLine (token : Token) : String :=
  "\"" ++ token.text ++ "\" of kind " ++ token.kind.name ++ "\n"

/-- Adds one step through the tokens to a listing. An error that ends the tokens makes the listing
fail; any other is only reported. -/
def listItem (file : Option SourceFile) (listing : Outcome) :
    Except (Stop TokenError) Token → Except Outcome Outcome
  | .ok token => .ok { listing with stdout := listing.stdout ++ tokenLine token }
  | .error (.error e) =>
    addReport (if e.isFatal then 1 else listing.status) listing ((Failure.token e).report file)
  | .error (.defect defect) => .error (defective defect listing.stdout listing.stderr)

/-- Lists the tokens in some bytes. -/
def listTokens (bytes : List UInt8) (file : Option SourceFile) : Outcome :=
  let stream := TokenStream.ofSource Lexicon.standard (Source.ofBytes bytes none)
  settled (stream.items.foldlM (listItem file) ⟨0, "", ""⟩)

/-- What the command does with the bytes of its file, or of standard input if no file is named;
`none` stands for a file that does not exist. -/
def perform (i : Invocation) (input : Option (List UInt8)) : Outcome :=
  let file := i.file.map fun name => ⟨name, input⟩
  match input, i.file with
  | none, some name => fileMissing name
  | _, _ =>
    let bytes := input.getD []
    if i.tokens then listTokens bytes file else runProgram i.typecheck bytes file

end Invocation

end ListScript
