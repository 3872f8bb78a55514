import BinaryMachine.Tape.Basic

/-!
Heads.  A head is a place on a tape; the tape is handed to every operation, so
any number of heads can stand on one tape.  A move off either end extends the
tape by one blank cell; no other operation creates cells.
-/

namespace BinaryMachine

structure Head where
  cell : CellId
  deriving DecidableEq, Repr

namespace Head

def atRoot (tape : Tape) : Head :=
  ⟨tape.root⟩

/-! ## Looking -/

def read (head : Head) (tape : Tape) : Symbol :=
  tape.symbolAt head.cell

def serial (head : Head) (tape : Tape) : Nat :=
  tape.serialAt head.cell

def index (head : Head) (tape : Tape) : Nat :=
  tape.indexOf head.cell

def isAtLeftEnd (head : Head) (tape : Tape) : Bool :=
  (tape.leftOf head.cell).isNone

def isAtRightEnd (head : Head) (tape : Tape) : Bool :=
  (tape.rightOf head.cell).isNone

/-! ## Going along the existing cells -/

def goToLeftEnd (head : Head) (tape : Tape) : Head :=
  ⟨tape.leftEndOf head.cell⟩

def advanceRight? (head : Head) (tape : Tape) : Option Head :=
  (tape.rightOf head.cell).map Head.mk

/-! ## Changing the tape -/

def write (head : Head) (tape : Tape) (symbol : Symbol) : Tape :=
  tape.writeAt head.cell symbol

def writeChar (head : Head) (tape : Tape) (c : Char) : Except Failure Tape := do
  return head.write tape (← Symbol.parse c)

def moveLeft (head : Head) (tape : Tape) : Tape × Head :=
  match tape.leftOf head.cell with
  | some left => (tape, ⟨left⟩)
  | none =>
      let created := tape.width
      (tape.extendLeft head.cell, ⟨created⟩)

def moveRight (head : Head) (tape : Tape) : Tape × Head :=
  match tape.rightOf head.cell with
  | some right => (tape, ⟨right⟩)
  | none =>
      let created := tape.width
      (tape.extendRight head.cell, ⟨created⟩)

def move (head : Head) (tape : Tape) : Direction → Tape × Head
  | .left => head.moveLeft tape
  | .right => head.moveRight tape

def act (head : Head) (tape : Tape) : Action → Tape × Head
  | .write symbol => (head.write tape symbol, head)
  | .move direction => head.move tape direction

end Head

namespace Tape

/-! ## Tapes with a given content -/

/-- Writes the symbols from the root to the right. -/
def ofSymbols : List Symbol → Tape
  | [] => blank
  | symbol :: rest =>
      (rest.foldl (fun (tape, head) symbol =>
          let (tape, head) := Head.moveRight head tape
          (head.write tape symbol, head))
        ((Head.atRoot blank).write blank symbol, Head.atRoot blank)).1

def ofText (text : String) : Except Failure Tape := do
  return ofSymbols (← parseTape text)

end Tape

end BinaryMachine
