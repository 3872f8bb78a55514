import BinaryMachine.Json.Form
import BinaryMachine.Json.Scalar
import BinaryMachine.Program

/-!
Programs as JSON values: records of five fields, of which the tape and the
separator may be missing.
-/

namespace BinaryMachine

open Json (Token Form)

namespace Program

inductive Field where
  | name
  | tape
  | instructions
  | initialId
  | separator
  deriving DecidableEq, Repr

def Field.label : Field → String
  | name => "name"
  | tape => "tape"
  | instructions => "instructions"
  | initialId => "initial_id"
  | separator => "separator"

structure Draft where
  name : Option String
  tape : Option String
  instructions : Option String
  initialId : Option StateId
  separator : Option String

namespace Draft

def holds (draft : Draft) : Field → Bool
  | .name => draft.name.isSome
  | .tape => draft.tape.isSome
  | .instructions => draft.instructions.isSome
  | .initialId => draft.initialId.isSome
  | .separator => draft.separator.isSome

def put (draft : Draft) (field : Field) (value : List Token) : Except ReadFault Draft :=
  match field with
  | .name => (Json.stringValue value).map fun name => { draft with name }
  | .tape => (Json.stringValue value).map fun tape => { draft with tape }
  | .instructions => (Json.stringValue value).map fun instructions => { draft with instructions }
  | .initialId => (StateId.ofTokens value).map fun initialId => { draft with initialId }
  | .separator => (Json.stringValue value).map fun separator => { draft with separator }

/-- A program without a tape starts on the blank one, and a program without a
separator has one instruction on each line. -/
def finish (draft : Draft) : Except Field Program :=
  match draft.name, draft.instructions, draft.initialId with
  | some name, some instructions, some initialId =>
      .ok ⟨name, draft.tape.getD "", instructions, initialId,
        draft.separator.getD defaultSeparator⟩
  | none, _, _ => .error .name
  | _, none, _ => .error .instructions
  | _, _, none => .error .initialId

end Draft

def form : Form Field Draft Program where
  fields := [.name, .tape, .instructions, .initialId, .separator]
  label := Field.label
  empty := ⟨none, none, none, none, none⟩
  holds := Draft.holds
  put := Draft.put
  finish := Draft.finish

def ofTokens (tokens : List Token) : Except ReadFault Program :=
  form.read tokens

def toTokens (p : Program) : List Token :=
  Json.object
    [(Field.label .name, [.text p.name]), (Field.label .tape, [.text p.tape]),
      (Field.label .instructions, [.text p.instructions]),
      (Field.label .initialId, p.initialId.toTokens),
      (Field.label .separator, [.text p.separator])]

end Program

end BinaryMachine
