import BinaryMachine.Failure
import BinaryMachine.Json.Shape

/-!
Records.  A record is written as an object with its fields in their fixed
order.  It is read from an object, whose members may come in any order, or from
an array of its fields in their fixed order.  Members with unknown keys are
passed over.  Faults count in reading order: that a key was seen before shows at
the key, a bad value at the value, and a missing member at the closing brace.
-/

namespace BinaryMachine.Json

/-! ## Writing -/

def commaSeparated (parts : List (List Token)) : List Token :=
  [Token.comma].intercalate parts

def object (members : List (String × List Token)) : List Token :=
  .openBrace ::
    commaSeparated (members.map fun (key, value) => .text key :: .colon :: value) ++
      [.closeBrace]

def array (elements : List (List Token)) : List Token :=
  .openBracket :: commaSeparated elements ++ [.closeBracket]

/-! ## Reading -/

def stringValue : List Token → Except ReadFault String
  | [.text content] => .ok content
  | _ => .error .malformed

/-- How records of one type are read.  A draft collects the values read so far. -/
structure Form (Field Draft Record : Type) where
  /-- All fields, in the order of the array form. -/
  fields : List Field
  label : Field → String
  empty : Draft
  holds : Draft → Field → Bool
  put : Draft → Field → List Token → Except ReadFault Draft
  /-- The record, or the first field that is missing. -/
  finish : Draft → Except Field Record

namespace Form

variable {Field Draft Record : Type}

def field? (form : Form Field Draft Record) (key : String) : Option Field :=
  form.fields.find? fun field => form.label field == key

/-! ### Objects -/

def keyed? : List Token → Option (List Token × List Token)
  | .colon :: tokens => value? tokens
  | _ => none

theorem keyed?_length {tokens value rest : List Token}
    (h : keyed? tokens = some (value, rest)) : rest.length < tokens.length := by
  unfold keyed? at h
  split at h
  · have := value?_length h
    simp only [List.length_cons]
    omega
  · cases h

/-- A key that may stand here, with the field that it names. -/
def checkKey (form : Form Field Draft Record) (draft : Draft) (key : String) :
    Except ReadFault (Option Field) :=
  match form.field? key with
  | none => .ok none
  | some field =>
      if form.holds draft field then .error (.duplicateField key) else .ok (some field)

def putMember (form : Form Field Draft Record) (draft : Draft) (value : List Token) :
    Option Field → Except ReadFault Draft
  | none => .ok draft
  | some field => form.put draft field value

/-- The members of an object from a key on, and the tokens behind its brace. -/
def readMembers (form : Form Field Draft Record) (draft : Draft) :
    List Token → Except ReadFault (Draft × List Token)
  | .text key :: tokens =>
      match form.checkKey draft key with
      | .error fault => .error fault
      | .ok field =>
          match _h : keyed? tokens with
          | none => .error .malformed
          | some (value, rest) =>
              match form.putMember draft value field with
              | .error fault => .error fault
              | .ok draft =>
                  match rest with
                  | .closeBrace :: rest => .ok (draft, rest)
                  | .comma :: rest => readMembers form draft rest
                  | _ => .error .malformed
  | _ => .error .malformed
termination_by tokens => tokens.length
decreasing_by
  have := keyed?_length _h
  simp only [List.length_cons] at this ⊢
  omega

def readObject (form : Form Field Draft Record) :
    List Token → Except ReadFault (Draft × List Token)
  | .closeBrace :: rest => .ok (form.empty, rest)
  | tokens => form.readMembers form.empty tokens

/-! ### Arrays -/

/-- The elements of an array, one for every field left, and the tokens behind
its bracket. -/
def readElements (form : Form Field Draft Record) (draft : Draft) :
    List Field → List Token → Except ReadFault (Draft × List Token)
  | [], _ => .error .malformed
  | field :: fields, tokens =>
      match value? tokens with
      | none => .error .malformed
      | some (value, rest) =>
          match form.put draft field value with
          | .error fault => .error fault
          | .ok draft =>
              match rest with
              | .closeBracket :: rest => .ok (draft, rest)
              | .comma :: rest => readElements form draft fields rest
              | _ => .error .malformed

def readArray (form : Form Field Draft Record) :
    List Token → Except ReadFault (Draft × List Token)
  | .closeBracket :: rest => .ok (form.empty, rest)
  | tokens => form.readElements form.empty form.fields tokens

/-! ### Whole texts -/

def finishObject (form : Form Field Draft Record) (draft : Draft) : Except ReadFault Record :=
  match form.finish draft with
  | .ok record => .ok record
  | .error field => .error (.missingField (form.label field))

/-- An array that is too short has no name for what is missing. -/
def finishArray (form : Form Field Draft Record) (draft : Draft) : Except ReadFault Record :=
  match form.finish draft with
  | .ok record => .ok record
  | .error _ => .error .malformed

/-- Nothing may stand behind the record. -/
def endText (record : Record) : List Token → Except ReadFault Record
  | [] => .ok record
  | _ => .error .malformed

def read (form : Form Field Draft Record) : List Token → Except ReadFault Record
  | .openBrace :: tokens => do
      let (draft, rest) ← form.readObject tokens
      endText (← form.finishObject draft) rest
  | .openBracket :: tokens => do
      let (draft, rest) ← form.readArray tokens
      endText (← form.finishArray draft) rest
  | _ => .error .malformed

end Form

end BinaryMachine.Json
