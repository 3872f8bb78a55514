import BinaryMachine.Loading

/-!
The built-in programs.
-/

namespace BinaryMachine.Catalogue

/-! ## The programs -/

/-- Writes one mark after another to the right and never halts. -/
def unaryCounter : Program where
  name := "Unary Counter"
  tape := "1"
  instructions := "1,1,R,1;1,0,1,1"
  initialId := .ofNat 1
  separator := inlineSeparator

/-- Appends one mark to a run of marks. -/
def unarySuccessor : Program where
  name := "Unary Successor"
  tape := "111"
  instructions := "0,1,R,0\n0,0,1,1"
  initialId := .ofNat 0
  separator := defaultSeparator

/-- Joins two runs of marks by filling the gap and taking the last mark away. -/
def unaryAddition : Program where
  name := "Unary Addition"
  tape := "11011"
  instructions := "0,1,R,0\n0,0,1,1\n1,1,R,1\n1,0,L,2\n2,1,0,3"
  initialId := .ofNat 0
  separator := defaultSeparator

/-- Puts one mark in front of a run of marks. -/
def unaryPrepend : Program where
  name := "Unary Prepend"
  tape := "11"
  instructions := "0,1,L,0;0,0,1,1"
  initialId := .ofNat 0
  separator := inlineSeparator

def programs : List Program :=
  [unaryCounter, unarySuccessor, unaryAddition, unaryPrepend]

def names : List String :=
  programs.map Program.name

/-! ## Looking up -/

def byIndex (index : Nat) : Except Failure Program :=
  match programs[index]? with
  | some program => .ok program
  | none => .error (.noProgramAt index)

/-- Two names that differ only in the case of ASCII letters. -/
def sameName (a b : String) : Bool :=
  a.toList.map Char.toLower == b.toList.map Char.toLower

def byName (name : String) : Except Failure Program :=
  match programs.find? fun program => sameName program.name name with
  | some program => .ok program
  | none => .error (.noProgramNamed name)

/-! ## Information -/

structure Info where
  index : Nat
  name : String
  initialId : StateId
  initialTape : String
  stateCount : Nat
  instructionCount : Nat
  deriving DecidableEq, Repr

def info (index : Nat) : Except Failure Info := do
  let program ← byIndex index
  let machine ← Machine.ofProgram program
  return {
    index
    name := program.name
    initialId := program.initialId
    initialTape := program.tape
    stateCount := machine.table.stateCount
    instructionCount := machine.table.size }

/-- The file of a program: its id is a number, and its separator is left out if
it is the default one. -/
def fileText (program : Program) : String :=
  let separator :=
    if program.separator = defaultSeparator then [] else
      [(Program.Field.label .separator, [Json.Token.text program.separator])]
  Json.pretty (Json.object
    ([(Program.Field.label .name, [Json.Token.text program.name]),
      (Program.Field.label .tape, [.text program.tape]),
      (Program.Field.label .instructions, [.text program.instructions]),
      (Program.Field.label .initialId, [.number program.initialId.text])] ++ separator)) ++ "\n"

def textAt (index : Nat) : Except Failure String :=
  match programs[index]? with
  | some program => .ok (fileText program)
  | none => .error (.noProgramTextAt index)

end BinaryMachine.Catalogue
