import BinaryMachine.Files
import BinaryMachine.Json.History
import BinaryMachine.Json.Program
import BinaryMachine.Machine

/-!
Loading programs from JSON texts, files and directories.  A program is loaded
only if a machine can be built from it, so every loaded program can be run.
-/

namespace BinaryMachine.Program

/-! ## Single programs -/

def ofJson (text : String) : Except ReadFault Program :=
  ofTokens (Json.scan text)

def toJson (program : Program) : String :=
  Json.compact program.toTokens

/-- Of several faults the size counts first, then what is wrong with the JSON
text, then what keeps a machine from being built. -/
def load (text : String) : Except Failure Program :=
  if programSizeLimit < text.utf8ByteSize then
    .error (.oversizedProgram text.utf8ByteSize)
  else
    match ofJson text with
    | .error fault => .error (.malformedProgram fault)
    | .ok program =>
        match Machine.ofProgram program with
        | .error failure => .error failure
        | .ok _ => .ok program

def loadRead (path : String) : Except FileFault String → Except Failure Program
  | .ok text => load text
  | .error fault => .error (.unreadableFile path fault)

def loadFile (root : Node) (path : String) : Except Failure Program :=
  loadRead path (root.readText path)

/-! ## Directories -/

/-- An entry is given with its path, also in the failure to load it. -/
def loadEntry (root : Node) (path : String) : Except Failure (String × Program) :=
  match loadFile root path with
  | .ok program => .ok (path, program)
  | .error failure => .error (.failedEntry path failure)

/-- The paths of the programs in a directory, in order.  An entry is passed over
if its path leads to a directory. -/
def programPaths (root : Node) (path : String) (entries : List (String × Node)) : List String :=
  ((Node.programNames entries).map (Node.childPath path)).filter fun child =>
    !root.isDirectoryAt child

/-- One result for every program in a directory, in the order of their paths,
or the one failure to list it. -/
def loadDirectory (root : Node) (path : String) : List (Except Failure (String × Program)) :=
  match root.resolve path with
  | .error _ => [.error (.missingDirectory path)]
  | .ok (.file _) => [.error (.unreadableDirectory path .notADirectory)]
  | .ok (.directory entries) =>
      (programPaths root path entries).map (loadEntry root)

end BinaryMachine.Program
