import BinaryMachine.Json.Token

/-!
Passing over one JSON value.  A stack of open brackets and what may come next
are all that has to be known, so values nest as deeply as they like.
-/

namespace BinaryMachine.Json

inductive Bracket where
  | array
  | object
  deriving DecidableEq, Repr

inductive Expected where
  | value
  /-- A first element, or the end of an empty array. -/
  | element
  /-- A first key, or the end of an empty object. -/
  | member
  | key
  | colon
  /-- A comma or a closing bracket. -/
  | separator
  deriving DecidableEq, Repr

/-- How far a value has been read; the innermost open bracket comes first. -/
structure Place where
  brackets : List Bracket
  expected : Expected
  deriving DecidableEq, Repr

namespace Place

def start : Place :=
  ⟨[], .value⟩

def isEnd (place : Place) : Bool :=
  place.brackets.isEmpty && place.expected == .separator

def startValue? (brackets : List Bracket) : Token → Option Place
  | .openBracket => some ⟨.array :: brackets, .element⟩
  | .openBrace => some ⟨.object :: brackets, .member⟩
  | .null | .bool _ | .number _ | .text _ | .brokenText => some ⟨brackets, .separator⟩
  | _ => none

def startMember? (brackets : List Bracket) : Token → Option Place
  | .text _ | .brokenText => some ⟨brackets, .colon⟩
  | _ => none

def next? (place : Place) (token : Token) : Option Place :=
  match place.expected, place.brackets, token with
  | .value, brackets, token => startValue? brackets token
  | .element, .array :: brackets, .closeBracket => some ⟨brackets, .separator⟩
  | .element, brackets, token => startValue? brackets token
  | .member, .object :: brackets, .closeBrace => some ⟨brackets, .separator⟩
  | .member, brackets, token => startMember? brackets token
  | .key, brackets, token => startMember? brackets token
  | .colon, brackets, .colon => some ⟨brackets, .value⟩
  | .separator, .array :: brackets, .closeBracket => some ⟨brackets, .separator⟩
  | .separator, .array :: brackets, .comma => some ⟨.array :: brackets, .value⟩
  | .separator, .object :: brackets, .closeBrace => some ⟨brackets, .separator⟩
  | .separator, .object :: brackets, .comma => some ⟨.object :: brackets, .key⟩
  | _, _, _ => none

end Place

/-- The tokens up to the end of the value that is being read, and those behind
it.  `passed` holds the tokens already read, the last one first. -/
def passValue? (place : Place) (passed : List Token) :
    List Token → Option (List Token × List Token)
  | [] => none
  | token :: tokens =>
      match place.next? token with
      | none => none
      | some place =>
          if place.isEnd then
            some ((token :: passed).reverse, tokens)
          else
            passValue? place (token :: passed) tokens

def value? (tokens : List Token) : Option (List Token × List Token) :=
  passValue? .start [] tokens

theorem passValue?_length {place : Place} {passed tokens value rest : List Token}
    (h : passValue? place passed tokens = some (value, rest)) : rest.length < tokens.length := by
  induction tokens generalizing place passed with
  | nil => cases h
  | cons token tokens ih =>
      rw [List.length_cons]
      unfold passValue? at h
      split at h
      · cases h
      · split at h
        · cases h
          exact Nat.lt_succ_self _
        · exact Nat.lt_succ_of_lt (ih h)

theorem value?_length {tokens value rest : List Token}
    (h : value? tokens = some (value, rest)) : rest.length < tokens.length :=
  passValue?_length h

end BinaryMachine.Json
