import BinaryMachine.Failure
import BinaryMachine.Json.Shape

/-!
Ids, symbols, directions, actions and statuses as JSON values.  A choice
without a content is a string, or an object that maps the string to null; a
choice with a content is an object with the one member that maps its name to
the content.  An id is a string of digits, or a number that 64 bits can hold.
-/

namespace BinaryMachine

open Json (Token)

namespace Json

/-- The name of a choice without a content. -/
def choice? : List Token → Option String
  | [.text name] => some name
  | [.openBrace, .text name, .colon, .null, .closeBrace] => some name
  | _ => none

/-- The name and the content of a choice with one. -/
def tagged? : List Token → Option (String × List Token)
  | .openBrace :: .text name :: .colon :: rest =>
      match rest.getLast? with
      | some .closeBrace => some (name, rest.dropLast)
      | _ => none
  | _ => none

def orMalformed {α : Type} : Option α → Except ReadFault α
  | some a => .ok a
  | none => .error .malformed

end Json

open Json (choice? tagged? orMalformed)

/-! ## Symbols, directions and statuses -/

namespace Symbol

def name : Symbol → String
  | zero => "Zero"
  | one => "One"

def ofName? : String → Option Symbol
  | "Zero" => some zero
  | "One" => some one
  | _ => none

def toTokens (symbol : Symbol) : List Token :=
  [.text symbol.name]

def ofTokens (tokens : List Token) : Except ReadFault Symbol :=
  orMalformed (choice? tokens >>= ofName?)

theorem ofTokens_toTokens (symbol : Symbol) : ofTokens symbol.toTokens = .ok symbol := by
  cases symbol <;> rfl

end Symbol

namespace Direction

def name : Direction → String
  | left => "Left"
  | right => "Right"

def ofName? : String → Option Direction
  | "Left" => some left
  | "Right" => some right
  | _ => none

def toTokens (direction : Direction) : List Token :=
  [.text direction.name]

def ofTokens (tokens : List Token) : Except ReadFault Direction :=
  orMalformed (choice? tokens >>= ofName?)

theorem ofTokens_toTokens (direction : Direction) :
    ofTokens direction.toTokens = .ok direction := by
  cases direction <;> rfl

end Direction

namespace Status

def name : Status → String
  | running => "Running"
  | halted => "Halted"

def ofName? : String → Option Status
  | "Running" => some running
  | "Halted" => some halted
  | _ => none

def toTokens (status : Status) : List Token :=
  [.text status.name]

def ofTokens (tokens : List Token) : Except ReadFault Status :=
  orMalformed (choice? tokens >>= ofName?)

theorem ofTokens_toTokens (status : Status) : ofTokens status.toTokens = .ok status := by
  cases status <;> rfl

end Status

/-! ## Actions -/

namespace Action

def toTokens (action : Action) : List Token :=
  let (name, content) := match action with
    | write symbol => ("Write", symbol.toTokens)
    | move direction => ("Move", direction.toTokens)
  .openBrace :: .text name :: .colon :: (content ++ [.closeBrace])

def ofTokens (tokens : List Token) : Except ReadFault Action :=
  match tagged? tokens with
  | some ("Write", content) => (Symbol.ofTokens content).map write
  | some ("Move", content) => (Direction.ofTokens content).map move
  | _ => .error .malformed

theorem ofTokens_toTokens (action : Action) : ofTokens action.toTokens = .ok action := by
  rcases action with (_ | _) | (_ | _) <;> rfl

end Action

/-! ## Ids -/

namespace StateId

def toTokens (id : StateId) : List Token :=
  [.text id.text]

/-- A number has no sign, no fraction and no exponent, so its digits are those
of the id. -/
def ofTokens : List Token → Except ReadFault StateId
  | [.text text] =>
      match ofText? text with
      | some id => .ok id
      | none => .error (.malformedId text)
  | [.number literal] =>
      match ofText? literal with
      | some id => if id.value64?.isSome then .ok id else .error .malformed
      | none => .error .malformed
  | _ => .error .malformed

theorem ofTokens_toTokens (id : StateId) : ofTokens id.toTokens = .ok id := by
  simp [ofTokens, toTokens, ofText?_text]

end StateId

end BinaryMachine
