import BinaryMachine.History
import BinaryMachine.Json.Instruction

/-!
Histories as JSON values: arrays of snapshots in the order in which they were taken.
-/

namespace BinaryMachine

open Json (Token)

def Snapshot.toTokens (snapshot : Snapshot) : List Token :=
  Json.object
    [("tape", [.text snapshot.tape]),
      ("instruction", (snapshot.instruction.map Instruction.toTokens).getD [.null]),
      ("head_index", [.number (toString snapshot.headIndex)])]

def History.toTokens (history : History) : List Token :=
  Json.array (history.toList.map Snapshot.toTokens)

end BinaryMachine
