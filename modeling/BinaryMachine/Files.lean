import BinaryMachine.Failure
import BinaryMachine.Segments

/-!
A tree of files and directories, and how paths are followed in it.  Paths start
in the directory at the root of the tree; what lies outside of the tree is not
known and taken to be empty.
-/

namespace BinaryMachine

/-- A file holds its text, or nothing if its bytes are no text in UTF-8. -/
inductive Node where
  | file (text : Option String)
  | directory (entries : List (String × Node))

namespace Node

/-! ## Building a tree -/

def empty : Node :=
  directory []

def entries : Node → List (String × Node)
  | directory entries => entries
  | file _ => []

def entry? (node : Node) (name : String) : Option Node :=
  node.entries.lookup name

def setEntry (node : Node) (name : String) (child : Node) : Node :=
  directory (node.entries.filter (fun entry => entry.1 != name) ++ [(name, child)])

/-- Puts a file, and the directories that it lies in. -/
def putFile (text : Option String) : List String → Node → Node
  | [], _ => file text
  | name :: path, node =>
      node.setEntry name (putFile text path ((node.entry? name).getD empty))

/-- Puts a directory, and the directories that it lies in. -/
def putDirectory : List String → Node → Node
  | [], node => node
  | name :: path, node =>
      node.setEntry name (putDirectory path ((node.entry? name).getD empty))

/-! ## Following paths -/

def pathParts (path : String) : List String :=
  (cutAt ['/'] path.toList).map String.ofList

/-- The longest name of a file, and one more than the longest path, in bytes. -/
def nameLimit : Nat := 255

def pathLimit : Nat := 4096

/-- The directories from the current place up to the root of the tree; none
are left outside of the tree. -/
abbrev Trail := List Node

def here (trail : Trail) : Node :=
  trail.headD empty

/-- Follows one part of a path.  Only a directory has parts below it, and it
contains itself under the name `.` and under the empty name. -/
def follow (trail : Trail) (part : String) : Except FileFault Trail :=
  match here trail with
  | file _ => .error .notADirectory
  | directory entries =>
      if part = "" ∨ part = "." then
        .ok trail
      else if part = ".." then
        .ok trail.tail
      else if nameLimit < part.utf8ByteSize then
        .error .nameTooLong
      else
        match entries.lookup part with
        | some node => .ok (node :: trail)
        | none => .error .notFound

def followAll (trail : Trail) : List String → Except FileFault Trail
  | [] => .ok trail
  | part :: parts => do
      followAll (← follow trail part) parts

def resolve (root : Node) (path : String) : Except FileFault Node :=
  if '\x00' ∈ path.toList then
    .error .nulInName
  else if path = "" then
    .error .notFound
  else if pathLimit ≤ path.utf8ByteSize then
    .error .nameTooLong
  else do
    let start := if path.toList.head? = some '/' then [] else [root]
    return here (← followAll start (pathParts path))

def readText (root : Node) (path : String) : Except FileFault String := do
  match ← root.resolve path with
  | file (some text) => .ok text
  | file none => .error .notUtf8
  | directory _ => .error .isADirectory

/-- Whether a path leads to a directory.  A path that cannot be followed leads
to none, even if there is one. -/
def isDirectoryAt (root : Node) (path : String) : Bool :=
  match root.resolve path with
  | .ok (directory _) => true
  | _ => false

/-! ## Names -/

def childPath (directory name : String) : String :=
  if directory.toList.getLast? = some '/' then
    directory ++ name
  else
    directory ++ "/" ++ name

/-- What stands behind the last dot of a name, unless nothing stands before it. -/
def extension? (name : List Char) : Option (List Char) :=
  match name.reverse.dropWhile (· != '.') with
  | '.' :: _ :: _ => some (name.reverse.takeWhile (· != '.')).reverse
  | _ => none

def isProgramName (name : String) : Bool :=
  extension? name.toList == some ['j', 's', 'o', 'n']

/-- The names among the entries of a directory that are names of programs, in
the order of their characters. -/
def programNames (entries : List (String × Node)) : List String :=
  ((entries.map Prod.fst).filter isProgramName).mergeSort

end Node

end BinaryMachine
