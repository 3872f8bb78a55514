import BinaryMachine.Json.Form
import BinaryMachine.Json.Scalar

/-!
Instructions as JSON values: records of four fields, none of which may be missing.
-/

namespace BinaryMachine

open Json (Token Form)

namespace Instruction

inductive Field where
  | id
  | condition
  | action
  | next
  deriving DecidableEq, Repr

def Field.label : Field → String
  | id => "id"
  | condition => "condition"
  | action => "action"
  | next => "next_id"

structure Draft where
  id : Option StateId
  condition : Option Symbol
  action : Option Action
  next : Option StateId

namespace Draft

def holds (draft : Draft) : Field → Bool
  | .id => draft.id.isSome
  | .condition => draft.condition.isSome
  | .action => draft.action.isSome
  | .next => draft.next.isSome

def put (draft : Draft) (field : Field) (value : List Token) : Except ReadFault Draft :=
  match field with
  | .id => (StateId.ofTokens value).map fun id => { draft with id }
  | .condition => (Symbol.ofTokens value).map fun condition => { draft with condition }
  | .action => (Action.ofTokens value).map fun action => { draft with action }
  | .next => (StateId.ofTokens value).map fun next => { draft with next }

def finish (draft : Draft) : Except Field Instruction :=
  match draft with
  | ⟨some id, some condition, some action, some next⟩ => .ok ⟨id, condition, action, next⟩
  | ⟨none, _, _, _⟩ => .error .id
  | ⟨_, none, _, _⟩ => .error .condition
  | ⟨_, _, none, _⟩ => .error .action
  | ⟨_, _, _, none⟩ => .error .next

end Draft

def form : Form Field Draft Instruction where
  fields := [.id, .condition, .action, .next]
  label := Field.label
  empty := ⟨none, none, none, none⟩
  holds := Draft.holds
  put := Draft.put
  finish := Draft.finish

def ofTokens (tokens : List Token) : Except ReadFault Instruction :=
  form.read tokens

def toTokens (i : Instruction) : List Token :=
  Json.object
    [(Field.label .id, i.id.toTokens), (Field.label .condition, i.condition.toTokens),
      (Field.label .action, i.action.toTokens), (Field.label .next, i.next.toTokens)]

end Instruction

end BinaryMachine
