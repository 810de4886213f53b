import ListScript.Evaluation
import ListScript.Failure.Basic
import ListScript.Grammar.Parser
import ListScript.Typing

/-!
# Running a program from its source

* `Program.read` : the program that a source holds;
* `Program.checked` : the program again, once its types have been checked;
* `Program.run` : reads a program, checks its types if asked to, and evaluates it. The output
  stays in the sink, also when the run fails.
-/

namespace ListScript.Program

/-- The program that a source holds. -/
def read (source : Source) : Except (Stop SyntaxError) Block :=
  match parse (TokenStream.ofSource Lexicon.standard source) with
  | .ok program _ => .ok program
  | .error stop _ => .error stop

/-- Checks the types of a program if asked to. -/
def checked (typecheck : Bool) (program : Block) : Except TypeError Block :=
  if typecheck then do
    discard program.typing
    return program
  else .ok program

/-- Runs the program that a source holds. -/
def run {σ : Type} [Writer σ] (source : Source) (typecheck : Bool) :
    EStateM (Stop Failure) σ Unit := fun sink =>
  match read source with
  | .error stop => .error (stop.map .grammar) sink
  | .ok program =>
    match checked typecheck program with
    | .error e => .error (.error (.typing e)) sink
    | .ok program =>
      match program.execute (Machine.ofSink sink) with
      | .ok () m => .ok () m.sink
      | .error e m => .error (.error (.evaluation e)) m.sink

end ListScript.Program
