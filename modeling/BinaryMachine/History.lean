import BinaryMachine.Instruction

/-!
The history of a run: one snapshot for the start and one for every step.
Snapshots are only ever added.
-/

namespace BinaryMachine

/-- A machine between two steps: the whole tape, the current instruction and
the position of the head, counted from the left end. -/
structure Snapshot where
  tape : String
  instruction : Option Instruction
  headIndex : Nat
  deriving DecidableEq, Repr

structure History where
  newestFirst : List Snapshot
  deriving DecidableEq, Repr

namespace History

def empty : History :=
  ⟨[]⟩

def push (history : History) (snapshot : Snapshot) : History :=
  ⟨snapshot :: history.newestFirst⟩

/-- The snapshots in the order in which they were taken. -/
def toList (history : History) : List Snapshot :=
  history.newestFirst.reverse

def size (history : History) : Nat :=
  history.newestFirst.length

def last? (history : History) : Option Snapshot :=
  history.newestFirst.head?

def get? (history : History) (i : Nat) : Option Snapshot :=
  history.toList[i]?

@[simp] theorem toList_empty : empty.toList = [] := rfl

@[simp] theorem toList_push (history : History) (snapshot : Snapshot) :
    (history.push snapshot).toList = history.toList ++ [snapshot] := by
  simp [toList, push]

@[simp] theorem size_push (history : History) (snapshot : Snapshot) :
    (history.push snapshot).size = history.size + 1 := rfl

theorem size_eq_length (history : History) : history.size = history.toList.length := by
  simp [size, toList]

theorem last?_eq_getLast? (history : History) : history.last? = history.toList.getLast? := by
  simp [last?, toList]

end History

end BinaryMachine
