import BinaryMachine.Symbol

/-!
State ids are non-empty strings of decimal digits of any length.  The digits
are kept as written, so an id prints back exactly as it was given, while two
ids name the same state when they are numerals of the same number.
-/

namespace BinaryMachine

/-- A decimal numeral, leading zeros included. -/
structure StateId where
  digits : List Char
  digits_ne_nil : digits ≠ []
  isDigit_of_mem : ∀ c ∈ digits, c.isDigit = true
  deriving DecidableEq, Repr

namespace StateId

/-! ## Reading and writing -/

def ofDigits? (digits : List Char) : Option StateId :=
  if h : digits ≠ [] ∧ digits.all Char.isDigit = true then
    some ⟨digits, h.1, List.all_eq_true.1 h.2⟩
  else
    none

def ofText? (text : String) : Option StateId :=
  ofDigits? text.toList

def text (id : StateId) : String :=
  String.ofList id.digits

def ofNat (n : Nat) : StateId where
  digits := Nat.toDigits 10 n
  digits_ne_nil := Nat.toDigits_ne_nil
  isDigit_of_mem := fun _ hc => Nat.isDigit_of_mem_toDigits (by decide) (by decide) hc

theorem ofDigits?_digits (id : StateId) : ofDigits? id.digits = some id :=
  dif_pos ⟨id.digits_ne_nil, List.all_eq_true.2 id.isDigit_of_mem⟩

theorem digits_of_ofDigits? {digits : List Char} {id : StateId}
    (h : ofDigits? digits = some id) : id.digits = digits := by
  unfold ofDigits? at h
  split at h <;> cases h
  rfl

theorem ofText?_text (id : StateId) : ofText? id.text = some id := by
  simp [ofText?, text, ofDigits?_digits]

theorem text_of_ofText? {text : String} {id : StateId}
    (h : ofText? text = some id) : id.text = text := by
  simp [StateId.text, digits_of_ofDigits? h]

/-! ## The number an id stands for -/

def value (id : StateId) : Nat :=
  Nat.ofDigitChars 10 id.digits 0

/-- The digits without leading zeros; a single zero is left of an all-zero id. -/
def canonical (id : StateId) : List Char :=
  match id.digits.dropWhile (· == '0') with
  | [] => ['0']
  | digits => digits

/-- One more digit behind a number, as long as the result fits into 64 bits. -/
def shiftIn? (n : Nat) (digit : Char) : Option Nat :=
  let shifted := 10 * n + (digit.toNat - '0'.toNat)
  if shifted < UInt64.size then some shifted else none

/-- The value if it fits into 64 bits.  Leading zeros do not count, and reading ends
at the first digit that makes the number too large. -/
def value64? (id : StateId) : Option Nat :=
  id.canonical.foldlM shiftIn? 0

@[simp] theorem value_ofNat (n : Nat) : (ofNat n).value = n := by
  simp [value, ofNat]

theorem value_eq_ofDigitChars_canonical (id : StateId) :
    id.value = Nat.ofDigitChars 10 id.canonical 0 := by
  have drop : ∀ digits : List Char,
      Nat.ofDigitChars 10 (digits.dropWhile (· == '0')) 0 = Nat.ofDigitChars 10 digits 0 := by
    intro digits
    induction digits with
    | nil => rfl
    | cons c digits ih =>
        by_cases hc : c = '0'
        · simp [hc, ih, Nat.ofDigitChars_cons]
        · simp [hc]
  rw [value, ← drop, canonical]
  split
  · next h => rw [h]; rfl
  · rfl

/-! ## Comparison by value -/

/-- Two ids name the same state, whatever their leading zeros. -/
def Same (a b : StateId) : Prop :=
  a.canonical = b.canonical

instance (a b : StateId) : Decidable (Same a b) :=
  inferInstanceAs (Decidable (a.canonical = b.canonical))

/-- Without leading zeros a longer numeral is a larger one, and numerals of one
length are ordered digit by digit. -/
def cmp (a b : StateId) : Ordering :=
  (compare a.canonical.length b.canonical.length).then
    (compare a.canonical b.canonical)

/-! ## Lists of ids -/

/-- Keeps the input order among ids of the same value. -/
def sort (ids : List StateId) : List StateId :=
  ids.mergeSort fun a b => (cmp a b).isLE

/-- Of every run of ids of the same value only the first stays. -/
def dedup : List StateId → List StateId
  | [] => []
  | id :: rest => id :: go id rest
where
  go (last : StateId) : List StateId → List StateId
    | [] => []
    | id :: rest => if Same last id then go last rest else id :: go id rest

def countDistinct (ids : List StateId) : Nat :=
  (dedup (sort ids)).length

end StateId

end BinaryMachine
