import BinaryMachine.History
import BinaryMachine.Program
import BinaryMachine.Tape.Head
import BinaryMachine.TransitionTable

/-!
A machine in the course of a run.  A step does what the current instruction
says, takes a snapshot and only then looks the next instruction up, under the
symbol that the head has come to stand on.  If there is none the machine halts
and keeps the instruction it executed last.
-/

namespace BinaryMachine

structure Machine where
  tape : Tape
  head : Head
  table : TransitionTable
  initialId : StateId
  current : Option Instruction
  status : Status
  history : History
  steps : Nat

namespace Machine

/-! ## Looking -/

def tapeText (m : Machine) : String :=
  m.tape.text

def headIndex (m : Machine) : Nat :=
  m.head.index m.tape

def isHalted (m : Machine) : Bool :=
  m.status == .halted

def currentText (m : Machine) : String :=
  (m.current.map Instruction.text).getD ""

def snapshot (m : Machine) : Snapshot :=
  ⟨m.tapeText, m.current, m.headIndex⟩

def record (m : Machine) : Machine :=
  { m with history := m.history.push m.snapshot }

/-! ## Starting -/

/-- The first snapshot is taken before the first instruction is looked up, so
it carries none.  That nothing is found for the first symbol is no failure: the
machine then halts in its first step. -/
def start (tape : Tape) (table : TransitionTable) (initialId : StateId) :
    Except Failure Machine :=
  if table.hasState initialId then
    let head := Head.atRoot tape
    let waiting : Machine := ⟨tape, head, table, initialId, none, .running, .empty, 0⟩
    .ok { waiting.record with current := table.find? initialId (head.read tape) }
  else
    .error (.unknownInitial initialId)

/-- Of several faults the tape's counts first, then the instructions', then the
initial id's. -/
def ofTexts (tape instructions separator : String) (initialId : StateId) :
    Except Failure Machine := do
  let tape ← Tape.ofText tape
  let table ← TransitionTable.parse instructions separator
  start tape table initialId

def ofProgram (program : Program) : Except Failure Machine :=
  ofTexts program.tape program.instructions program.separator program.initialId

/-! ## Running -/

def execute (m : Machine) (i : Instruction) : Machine :=
  let (tape, head) := m.head.act m.tape i.action
  record { m with tape, head, steps := m.steps + 1 }

def goOn (m : Machine) (i : Instruction) : Machine × Outcome :=
  match m.table.find? i.next (m.head.read m.tape) with
  | some next => ({ m with current := some next }, .proceed)
  | none => ({ m with status := .halted }, .halt)

/-- A machine without a first instruction executes nothing, but its halt is
recorded.  A halted machine refuses before anything in it is changed, so there is
no machine to return with the failure: the caller still has the one it had. -/
def step (m : Machine) : Except Failure (Machine × Outcome) :=
  match m.status, m.current with
  | .halted, _ => .error .alreadyHalted
  | .running, none => .ok ({ m.record with status := .halted }, .halt)
  | .running, some i => .ok ((m.execute i).goOn i)

/-- At most `bound` steps, fewer if the machine halts. -/
def run (m : Machine) : Nat → Machine × Outcome
  | 0 => (m, if m.isHalted then .halt else .proceed)
  | bound + 1 =>
      match m.step with
      | .ok (next, .proceed) => next.run bound
      | .ok (next, .halt) => (next, .halt)
      | .error _ => (m, .halt)

end Machine

end BinaryMachine
