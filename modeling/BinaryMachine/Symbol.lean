/-!
The two-letter tape alphabet, the two ways a head can go, and what one
instruction does to the tape.  Each of them is written as a single character.
-/

namespace BinaryMachine

/-! ## Symbols -/

/-- The content of a tape cell.  `zero` is the blank. -/
inductive Symbol where
  | zero
  | one
  deriving DecidableEq, Repr, Hashable, Inhabited

namespace Symbol

def char : Symbol → Char
  | zero => '0'
  | one => '1'

def ofChar? : Char → Option Symbol
  | '0' => some zero
  | '1' => some one
  | _ => none

/-- The blank comes before the mark. -/
def cmp : Symbol → Symbol → Ordering
  | zero, one => .lt
  | one, zero => .gt
  | _, _ => .eq

@[simp] theorem ofChar?_char (symbol : Symbol) : ofChar? symbol.char = some symbol := by
  cases symbol <;> rfl

theorem ofChar?_eq_some_iff {c : Char} {symbol : Symbol} :
    ofChar? c = some symbol ↔ c = symbol.char := by
  constructor
  · intro h
    unfold ofChar? at h
    split at h <;> cases h <;> rfl
  · rintro rfl
    exact ofChar?_char symbol

theorem char_injective {a b : Symbol} (h : a.char = b.char) : a = b := by
  have := ofChar?_eq_some_iff.2 h
  rw [ofChar?_char] at this
  exact Option.some.inj this

end Symbol

/-! ## Directions and actions -/

inductive Direction where
  | left
  | right
  deriving DecidableEq, Repr

/-- One instruction either writes or moves, never both. -/
inductive Action where
  | write (symbol : Symbol)
  | move (direction : Direction)
  deriving DecidableEq, Repr

namespace Action

def char : Action → Char
  | write symbol => symbol.char
  | move .left => 'L'
  | move .right => 'R'

def ofChar? : Char → Option Action
  | '0' => some (write .zero)
  | '1' => some (write .one)
  | 'L' => some (move .left)
  | 'R' => some (move .right)
  | _ => none

@[simp] theorem ofChar?_char (action : Action) : ofChar? action.char = some action := by
  rcases action with (_ | _) | (_ | _) <;> rfl

theorem ofChar?_eq_some_iff {c : Char} {action : Action} :
    ofChar? c = some action ↔ c = action.char := by
  constructor
  · intro h
    unfold ofChar? at h
    split at h <;> cases h <;> rfl
  · rintro rfl
    exact ofChar?_char action

end Action

/-! ## The state of a run -/

/-- `halted` is final. -/
inductive Status where
  | running
  | halted
  deriving DecidableEq, Repr

def Status.text : Status → String
  | running => "running"
  | halted => "halted"

/-- What a completed step reports: another instruction is ready, or the machine has come to a halt. -/
inductive Outcome where
  | proceed
  | halt
  deriving DecidableEq, Repr

end BinaryMachine
