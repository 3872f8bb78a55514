import BinaryMachine.Catalogue
import BinaryMachine.CommandLine.Options

/-!
Carrying out a request: loading the program, running it and printing what was
asked for.
-/

namespace BinaryMachine.CommandLine

/-! ## Loading -/

structure Environment where
  readFile : String → Except FileFault String
  input : Except FileFault String
  /-- Standard input is a terminal, so nothing is piped into it. -/
  inputIsTerminal : Bool

def Environment.loadInput (env : Environment) : Except Failure Program :=
  match env.input with
  | .ok text => Program.load text
  | .error fault => .error (.unreadableInput fault)

def Source.load (source : Source) (env : Environment) : Except Failure Program :=
  match source with
  | .file path => Program.loadRead path (env.readFile path)
  | .input => env.loadInput
  | .builtin name => Catalogue.byName name
  | .inline program => .ok program
  | .unnamed => if env.inputIsTerminal then .error .noSource else env.loadInput

/-! ## Printing -/

def padLeft (width : Nat) (text : String) : String :=
  String.ofList (List.replicate (width - text.length) ' ') ++ text

def marker (snapshot : Snapshot) : String :=
  if snapshot.headIndex < snapshot.tape.length then
    String.ofList (List.replicate snapshot.headIndex ' ') ++ "^"
  else
    ""

def printSnapshot (number : Nat) (snapshot : Snapshot) : String :=
  padLeft 4 (toString number) ++ ". " ++ snapshot.tape ++ "  " ++
    (snapshot.instruction.map Instruction.text).getD "" ++ "\n      " ++ marker snapshot ++ "\n"

def printHistory (history : History) : String :=
  String.join (history.toList.zipIdx.map fun (snapshot, number) =>
    printSnapshot number snapshot)

def printOutcome (steps : Nat) : Outcome → String
  | .halt => "\nMachine halted after " ++ toString steps ++ " steps.\n"
  | .proceed => "\nMachine still running after " ++ toString steps ++ " steps.\n"

def printRun (machine : Machine) (outcome : Outcome) : Display → String
  | .plain => machine.tapeText ++ "\n"
  | .debug =>
      printHistory machine.history ++ printOutcome machine.steps outcome ++ "\nFinal tape:\n" ++
        machine.tapeText ++ "\n"
  | .json => Json.pretty machine.history.toTokens ++ "\n"

def printCatalogue : String :=
  String.join (Catalogue.names.zipIdx.map fun (name, index) =>
    toString index ++ ": " ++ name ++ "\n")

/-! ## Reports -/

/-- What a command line leaves behind: the exit code, the standard output and
the error report.  The report is what a failed request writes to the error output
last; log lines may be written there before it and are no part of it. -/
structure Report where
  exitCode : Nat
  output : String
  failure : String
  deriving DecidableEq, Repr

def Report.of : Except Failure String → Report
  | .ok output => ⟨0, output, ""⟩
  | .error failure => ⟨1, "", "Error: " ++ failure.message⟩

def Request.output (request : Request) (env : Environment) : Except Failure String := do
  match request with
  | .list => return printCatalogue
  | .run source bound display =>
      let machine ← Machine.ofProgram (← source.load env)
      let (machine, outcome) := machine.run bound
      return printRun machine outcome display

/-- Nothing is reported on a command line that makes no request. -/
def run? (words : List String) (env : Environment) : Option Report :=
  (readRequest? words).map fun request => .of (request.output env)

end BinaryMachine.CommandLine
