import BinaryMachine.Instruction

/-!
Everything that can go wrong, by cause, and the wording of each cause.
-/

namespace BinaryMachine

/-! ## Files -/

/-- Why the content of a path cannot be had. -/
inductive FileFault where
  | notFound
  | notADirectory
  | isADirectory
  | nameTooLong
  | nulInName
  | notUtf8
  | other (detail : String)
  deriving DecidableEq, Repr

def FileFault.message : FileFault → String
  | notFound => "No such file or directory (os error 2)"
  | notADirectory => "Not a directory (os error 20)"
  | isADirectory => "Is a directory (os error 21)"
  | nameTooLong => "File name too long (os error 36)"
  | nulInName => "file name contained an unexpected NUL byte"
  | notUtf8 => "stream did not contain valid UTF-8"
  | other detail => detail

/-! ## JSON texts -/

/-- Why a JSON text is not read as a value of the wanted type. -/
inductive ReadFault where
  | missingField (field : String)
  | duplicateField (field : String)
  | malformedId (text : String)
  | malformed
  deriving DecidableEq, Repr

def malformedIdMessage (text : String) : String :=
  "\"" ++ text ++ "\" is not a valid instruction id"

/-- The first three causes are worded by the fields and ids that are read.  How any other
is worded, and which line and column are added to each of the four, is up to the
reader of the JSON text and differs from one to the next.  Both are left out, and a
star stands for the wording. -/
def ReadFault.message : ReadFault → String
  | missingField field => "missing field `" ++ field ++ "`"
  | duplicateField field => "duplicate field `" ++ field ++ "`"
  | malformedId text => malformedIdMessage text
  | malformed => "*"

/-! ## Failures -/

/-- The largest program text that is read, in bytes of UTF-8. -/
def programSizeLimit : Nat := 65536

inductive Failure where
  | malformedInstruction (text : String)
  | collision (first second : Instruction)
  | unknownInitial (id : StateId)
  | malformedId (text : String)
  | malformedTape (text : String)
  | badSymbol (c : Char)
  | badAction (c : Char)
  | alreadyHalted
  | emptySeparator
  | unreadableFile (path : String) (fault : FileFault)
  | unreadableInput (fault : FileFault)
  | oversizedProgram (bytes : Nat)
  | malformedProgram (fault : ReadFault)
  | missingDirectory (path : String)
  | unreadableDirectory (path : String) (fault : FileFault)
  | failedEntry (path : String) (cause : Failure)
  | noProgramAt (index : Nat)
  | noProgramTextAt (index : Nat)
  | noProgramNamed (name : String)
  | noSource
  deriving DecidableEq, Repr

def Failure.message : Failure → String
  | malformedInstruction text => "Instruction \"" ++ text ++ "\" is not valid"
  | collision first second =>
      "Collision between instructions: \"" ++ first.text ++ "\" and \"" ++ second.text ++ "\""
  | unknownInitial id =>
      "Initial instruction id " ++ id.text ++ " is not contained in the instruction set"
  | malformedId text => malformedIdMessage text
  | malformedTape text => "Tape input \"" ++ text ++ "\" is not valid"
  | badSymbol c => "Cannot write the symbol '" ++ c.toString ++ "' to the tape"
  | badAction c => "'" ++ c.toString ++ "' is not an acceptable action"
  | alreadyHalted => "Machine has already halted"
  | emptySeparator => "Instruction separator must not be empty"
  | unreadableFile path fault =>
      "File error: Failed to read file " ++ path ++ ": " ++ fault.message
  | unreadableInput fault => "File error: Failed to read from stdin: " ++ fault.message
  | oversizedProgram bytes =>
      "File error: Program is " ++ toString bytes ++ " bytes, the limit is " ++
        toString programSizeLimit ++ " bytes"
  | malformedProgram fault => "File error: Invalid program: " ++ fault.message
  | missingDirectory path => "File error: Directory " ++ path ++ " does not exist"
  | unreadableDirectory path fault =>
      "File error: Failed to read directory " ++ path ++ ": " ++ fault.message
  | failedEntry path cause =>
      "File error: Failed to load program from " ++ path ++ ": " ++ cause.message
  | noProgramAt index => "Validation error: Program index " ++ toString index ++ " out of range"
  | noProgramTextAt index =>
      "Validation error: Program text index " ++ toString index ++ " out of range"
  | noProgramNamed name => "Validation error: Program '" ++ name ++ "' not found"
  | noSource =>
      "Validation error: One of --program, --stdin, --builtin or --instructions is required"

end BinaryMachine
