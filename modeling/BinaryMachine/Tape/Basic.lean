import BinaryMachine.Encoding

/-!
The tape: cells in the order of their creation, each linked to its neighbours.
A missing link means that the tape has not been extended to that side yet.
Links are only ever filled in, so the cells form one chain from the left end to
the right end, and every walk along it is bounded by the number of cells.
-/

namespace BinaryMachine

/-- The place of a cell in the order of creation. -/
abbrev CellId := Nat

structure Cell where
  symbol : Symbol
  left : Option CellId
  right : Option CellId
  serial : Nat
  deriving DecidableEq, Repr

structure Tape where
  cells : Array Cell
  root : CellId
  count : Nat
  deriving DecidableEq, Repr

namespace Tape

/-! ## Cells -/

def blank : Tape where
  cells := #[⟨.zero, none, none, 0⟩]
  root := 0
  count := 1

def width (tape : Tape) : Nat :=
  tape.cells.size

def cell? (tape : Tape) (id : CellId) : Option Cell :=
  tape.cells[id]?

def symbolAt (tape : Tape) (id : CellId) : Symbol :=
  match tape.cell? id with
  | some cell => cell.symbol
  | none => .zero

def serialAt (tape : Tape) (id : CellId) : Nat :=
  match tape.cell? id with
  | some cell => cell.serial
  | none => 0

def leftOf (tape : Tape) (id : CellId) : Option CellId :=
  tape.cell? id >>= Cell.left

def rightOf (tape : Tape) (id : CellId) : Option CellId :=
  tape.cell? id >>= Cell.right

/-! ## Changes -/

def writeAt (tape : Tape) (id : CellId) (symbol : Symbol) : Tape :=
  { tape with cells := tape.cells.modify id fun cell => { cell with symbol } }

/-- A blank cell on the left of the cell `id`, which must have no left link. -/
def extendLeft (tape : Tape) (id : CellId) : Tape where
  cells := (tape.cells.modify id fun cell => { cell with left := some tape.cells.size }).push
    ⟨.zero, none, some id, tape.count⟩
  root := tape.root
  count := tape.count + 1

/-- A blank cell on the right of the cell `id`, which must have no right link. -/
def extendRight (tape : Tape) (id : CellId) : Tape where
  cells := (tape.cells.modify id fun cell => { cell with right := some tape.cells.size }).push
    ⟨.zero, some id, none, tape.count⟩
  root := tape.root
  count := tape.count + 1

@[simp] theorem width_writeAt (tape : Tape) (id : CellId) (symbol : Symbol) :
    (tape.writeAt id symbol).width = tape.width := by
  simp [width, writeAt]

@[simp] theorem width_extendLeft (tape : Tape) (id : CellId) :
    (tape.extendLeft id).width = tape.width + 1 := by
  simp [width, extendLeft]

@[simp] theorem width_extendRight (tape : Tape) (id : CellId) :
    (tape.extendRight id).width = tape.width + 1 := by
  simp [width, extendRight]

theorem cell?_writeAt (tape : Tape) (id other : CellId) (symbol : Symbol) :
    (tape.writeAt id symbol).cell? other =
      if id = other then (tape.cell? other).map fun cell => { cell with symbol }
      else tape.cell? other := by
  simp [cell?, writeAt, Array.getElem?_modify]

theorem cell?_extendLeft (tape : Tape) (id other : CellId) :
    (tape.extendLeft id).cell? other =
      if other = tape.width then some ⟨.zero, none, some id, tape.count⟩
      else if id = other then
        (tape.cell? other).map fun cell => { cell with left := some tape.width }
      else tape.cell? other := by
  unfold cell? width extendLeft
  rw [Array.getElem?_push, Array.getElem?_modify, Array.size_modify]

theorem cell?_extendRight (tape : Tape) (id other : CellId) :
    (tape.extendRight id).cell? other =
      if other = tape.width then some ⟨.zero, some id, none, tape.count⟩
      else if id = other then
        (tape.cell? other).map fun cell => { cell with right := some tape.width }
      else tape.cell? other := by
  unfold cell? width extendRight
  rw [Array.getElem?_push, Array.getElem?_modify, Array.size_modify]

/-! ## Walks -/

/-- Follows at most `bound` left links. -/
def walkLeft (tape : Tape) : Nat → CellId → CellId
  | 0, id => id
  | bound + 1, id =>
      match tape.leftOf id with
      | some left => tape.walkLeft bound left
      | none => id

def leftEndOf (tape : Tape) (id : CellId) : CellId :=
  tape.walkLeft tape.width id

/-- Appends the symbols from `id` on, following at most `bound` right links. -/
def appendFrom (tape : Tape) (text : String) : Nat → CellId → String
  | 0, id => text.push (tape.symbolAt id).char
  | bound + 1, id =>
      let text := text.push (tape.symbolAt id).char
      match tape.rightOf id with
      | some right => tape.appendFrom text bound right
      | none => text

def text (tape : Tape) : String :=
  tape.appendFrom "" tape.width (tape.leftEndOf tape.root)

/-- The number of right links from `id` to the cell with the serial number
`target`, or to the right end if there is none, added to `passed`. -/
def distanceTo (tape : Tape) (target passed : Nat) : Nat → CellId → Nat
  | 0, _ => passed
  | bound + 1, id =>
      if tape.serialAt id = target then
        passed
      else
        match tape.rightOf id with
        | some right => tape.distanceTo target (passed + 1) bound right
        | none => passed

def indexOf (tape : Tape) (id : CellId) : Nat :=
  tape.distanceTo (tape.serialAt id) 0 tape.width (tape.leftEndOf tape.root)

end Tape

end BinaryMachine
