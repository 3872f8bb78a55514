import BinaryMachine.CommandLine.Run

/-!
The command line program.  Only reading and printing happens here.
-/

namespace BinaryMachine.CommandLine

def faultOf : IO.Error → FileFault
  | .noFileOrDirectory .. => .notFound
  | .inappropriateType _ 20 _ => .notADirectory
  | .inappropriateType _ 21 _ => .isADirectory
  | .invalidArgument _ 36 _ => .nameTooLong
  | error => .other (toString error)

def decode (bytes : ByteArray) : Except FileFault String :=
  match String.fromUTF8? bytes with
  | some text => .ok text
  | none => .error .notUtf8

def readFile (path : String) : IO (Except FileFault String) := do
  try
    return decode (← IO.FS.readBinFile path)
  catch error =>
    return .error (faultOf error)

def readInput (stdin : IO.FS.Stream) : IO (Except FileFault String) := do
  try
    let mut bytes := ByteArray.empty
    let mut done := false
    while !done do
      let chunk ← stdin.read 65536
      bytes := bytes ++ chunk
      done := chunk.isEmpty
    return decode bytes
  catch error =>
    return .error (faultOf error)

/-- Reads what the source of a request needs, and nothing else. -/
def environment (request : Request) : IO Environment := do
  let stdin ← IO.getStdin
  let inputIsTerminal ← stdin.isTty
  let nothing : Except FileFault String := .ok ""
  match request with
  | .run (.file path) _ _ =>
      let text ← readFile path
      return ⟨fun _ => text, nothing, inputIsTerminal⟩
  | .run .input _ _ => return ⟨fun _ => nothing, ← readInput stdin, inputIsTerminal⟩
  | .run .unnamed _ _ =>
      let text ← if inputIsTerminal then pure nothing else readInput stdin
      return ⟨fun _ => nothing, text, inputIsTerminal⟩
  | _ => return ⟨fun _ => nothing, nothing, inputIsTerminal⟩

/-- A reminder of the words there are, for a person to read.  Its wording is free, and
nothing is claimed of it. -/
def usage : String :=
  "Usage: --program FILE | --stdin | --builtin NAME | --list | " ++
    "--instructions TEXT --initial ID [--tape TEXT] [--separator TEXT] " ++
    "[--max-steps N] [--debug | --json]"

/-- The exit code is 2 if the command line makes no request. -/
def execute (words : List String) : IO UInt32 := do
  match readRequest? words with
  | none =>
      IO.eprintln usage
      return 2
  | some request =>
      let report := Report.of (request.output (← environment request))
      IO.print report.output
      unless report.failure.isEmpty do
        IO.eprintln report.failure
      return report.exitCode.toUInt32

end BinaryMachine.CommandLine

def main (words : List String) : IO UInt32 :=
  BinaryMachine.CommandLine.execute words
