import BinaryMachine.StateId

/-!
A single transition rule and its text form `id,condition,action,next`.  The
main statements say that reading accepts exactly what writing produces, so the
text form of an instruction is unique and keeps both ids digit for digit.
-/

namespace BinaryMachine

/-- In state `id` with `condition` under the head: do `action`, go on in state `next`. -/
structure Instruction where
  id : StateId
  condition : Symbol
  action : Action
  next : StateId
  deriving DecidableEq, Repr

/-- What a transition is looked up by: a state, given by the digits of its id
without leading zeros, and the symbol under the head. -/
structure TransitionKey where
  state : List Char
  condition : Symbol
  deriving DecidableEq, Repr

instance : Hashable TransitionKey where
  hash key := mixHash (hash (String.ofList key.state)) (hash key.condition)

def StateId.key (id : StateId) (condition : Symbol) : TransitionKey :=
  ⟨id.canonical, condition⟩

namespace Instruction

/-! ## Text form -/

def chars (i : Instruction) : List Char :=
  i.id.digits ++ ',' :: i.condition.char :: ',' :: i.action.char :: ',' :: i.next.digits

def text (i : Instruction) : String :=
  String.ofList i.chars

/-- Everything up to the first character that is no digit is the id; behind it
stand the condition and the action, one character each, and the next id. -/
def ofChars? (s : List Char) : Option Instruction :=
  match s.dropWhile Char.isDigit with
  | ',' :: condition :: ',' :: action :: ',' :: next => do
      let id ← StateId.ofDigits? (s.takeWhile Char.isDigit)
      let condition ← Symbol.ofChar? condition
      let action ← Action.ofChar? action
      let next ← StateId.ofDigits? next
      return ⟨id, condition, action, next⟩
  | _ => none

def ofText? (text : String) : Option Instruction :=
  ofChars? text.toList

theorem ofChars?_chars (i : Instruction) : ofChars? i.chars = some i := by
  have htake : i.chars.takeWhile Char.isDigit = i.id.digits := by
    rw [chars, List.takeWhile_append_of_pos i.id.isDigit_of_mem]
    simp
  have hdrop : i.chars.dropWhile Char.isDigit =
      ',' :: i.condition.char :: ',' :: i.action.char :: ',' :: i.next.digits := by
    rw [chars, List.dropWhile_append_of_pos i.id.isDigit_of_mem]
    simp
  simp [ofChars?, htake, hdrop, StateId.ofDigits?_digits]

theorem chars_of_ofChars? {s : List Char} {i : Instruction}
    (h : ofChars? s = some i) : i.chars = s := by
  unfold ofChars? at h
  split at h
  · next condition action next hdrop =>
      simp only [Option.bind_eq_bind, Option.bind_eq_some_iff, Option.pure_def,
        Option.some.injEq] at h
      obtain ⟨id, hid, symbol, hsymbol, act, hact, nextId, hnext, rfl⟩ := h
      have hsplit := List.takeWhile_append_dropWhile (p := Char.isDigit) (l := s)
      rw [hdrop] at hsplit
      simp [chars, StateId.digits_of_ofDigits? hid, StateId.digits_of_ofDigits? hnext,
        ← Symbol.ofChar?_eq_some_iff.1 hsymbol, ← Action.ofChar?_eq_some_iff.1 hact, hsplit]
  · cases h

theorem ofText?_text (i : Instruction) : ofText? i.text = some i := by
  simp [ofText?, text, ofChars?_chars]

theorem text_of_ofText? {text : String} {i : Instruction}
    (h : ofText? text = some i) : i.text = text := by
  simp [Instruction.text, chars_of_ofChars? h]

/-! ## Keys -/

def key (i : Instruction) : TransitionKey :=
  i.id.key i.condition

/-- Two instructions apply in the same situation. -/
def Collides (a b : Instruction) : Prop :=
  a.id.Same b.id ∧ a.condition = b.condition

instance (a b : Instruction) : Decidable (Collides a b) :=
  inferInstanceAs (Decidable (_ ∧ _))

theorem collides_iff_key_eq {a b : Instruction} : a.Collides b ↔ a.key = b.key := by
  simp [Collides, key, StateId.key, StateId.Same]

/-- Ids first, then conditions. -/
def cmpKey (a b : Instruction) : Ordering :=
  (a.id.cmp b.id).then (a.condition.cmp b.condition)

/-- Two instructions mean the same, whatever the leading zeros of their ids. -/
def Same (a b : Instruction) : Prop :=
  a.id.Same b.id ∧ a.condition = b.condition ∧ a.action = b.action ∧ a.next.Same b.next

instance (a b : Instruction) : Decidable (Same a b) :=
  inferInstanceAs (Decidable (_ ∧ _))

end Instruction

end BinaryMachine
