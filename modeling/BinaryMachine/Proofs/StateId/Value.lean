import BinaryMachine.StateId

/-!
# Numerals and the numbers they stand for

Without its leading zeros a numeral is the one that is written for its value.
Two ids therefore have the same canonical digits exactly if they have the same
value.
-/

namespace BinaryMachine.StateId

theorem exists_digitChar {c : Char} (h : c.isDigit = true) :
    ∃ d < 10, c = Nat.digitChar d := by
  have hrange : 48 ≤ c.toNat ∧ c.toNat ≤ 57 := by
    simpa [Char.isDigit, UInt32.le_iff_toNat_le] using h
  refine ⟨c.toNat - 48, by omega, ?_⟩
  apply Char.ext
  apply UInt32.toNat_inj.1
  change c.toNat = (Nat.digitChar (c.toNat - 48)).toNat
  rw [Nat.toNat_digitChar_of_lt_ten (by omega)]
  omega

theorem toDigits_ofDigitChars (digits : List Char) :
    ∀ init : Nat, 0 < init → (∀ c ∈ digits, c.isDigit = true) →
      Nat.toDigits 10 (Nat.ofDigitChars 10 digits init) = Nat.toDigits 10 init ++ digits := by
  induction digits with
  | nil => simp
  | cons c digits ih =>
      intro init hinit hdigits
      obtain ⟨d, hd, rfl⟩ := exists_digitChar (hdigits c (by simp))
      rw [Nat.ofDigitChars_cons_digitChar_of_lt_ten hd,
        ih (10 * init + d) (by omega) (fun c hc => hdigits c (by simp [hc])),
        ← Nat.toDigits_append_toDigits (by decide) hinit hd, Nat.toDigits_of_lt_base hd]
      simp

theorem canonical_eq_toDigits (id : StateId) : id.canonical = Nat.toDigits 10 id.value := by
  rw [value_eq_ofDigitChars_canonical, canonical]
  cases hdrop : id.digits.dropWhile (· == '0') with
  | nil => rfl
  | cons c digits =>
      have hmem : ∀ x ∈ c :: digits, x.isDigit = true := by
        intro x hx
        apply id.isDigit_of_mem
        apply (List.dropWhile_suffix (· == '0')).subset
        rw [hdrop]
        exact hx
      have hzero : c ≠ '0' := by
        have hhead := List.head_dropWhile_not (· == '0') (l := id.digits) (by simp [hdrop])
        simpa [hdrop] using hhead
      obtain ⟨d, hd, rfl⟩ := exists_digitChar (hmem c (by simp))
      have hpos : 0 < d := by
        rcases Nat.eq_zero_or_pos d with rfl | hpos
        · exact absurd rfl hzero
        · exact hpos
      simp only []
      rw [Nat.ofDigitChars_cons_digitChar_of_lt_ten hd, Nat.mul_zero, Nat.zero_add,
        toDigits_ofDigitChars digits d hpos (fun x hx => hmem x (by simp [hx])),
        Nat.toDigits_of_lt_base hd]
      rfl

theorem canonical_ofNat (n : Nat) : (ofNat n).canonical = (ofNat n).digits := by
  rw [canonical_eq_toDigits, value_ofNat]
  rfl

/-- A numeral without leading zeros that begins with a zero is this zero. -/
theorem eq_nil_of_digits_eq_zero_cons {id : StateId} (hcanonical : id.canonical = id.digits)
    {digits : List Char} (h : id.digits = '0' :: digits) : digits = [] := by
  have hshorter := (List.dropWhile_suffix (l := digits) (· == '0')).length_le
  rw [canonical, h, List.dropWhile_cons] at hcanonical
  cases hdrop : digits.dropWhile (· == '0') with
  | nil => simpa [hdrop, eq_comm] using hcanonical
  | cons c rest =>
      -- What is left of the digits would be longer than they are.
      have hlength := congrArg List.length hcanonical
      simp [hdrop] at hlength hshorter
      omega

theorem same_iff_value_eq {a b : StateId} : a.Same b ↔ a.value = b.value := by
  rw [Same, canonical_eq_toDigits, canonical_eq_toDigits]
  constructor
  · intro h
    have hvalue := congrArg (fun digits => Nat.ofDigitChars 10 digits 0) h
    simpa using hvalue
  · intro h
    rw [h]

/-- In front of anything but a digit all the digits of an id are found again. -/
theorem takeWhile_isDigit_append (id : StateId) {rest : List Char}
    (hrest : ∀ c ∈ rest.head?, c.isDigit = false) :
    (id.digits ++ rest).takeWhile Char.isDigit = id.digits ∧
      (id.digits ++ rest).dropWhile Char.isDigit = rest := by
  rw [List.takeWhile_append_of_pos id.isDigit_of_mem,
    List.dropWhile_append_of_pos id.isDigit_of_mem]
  cases rest with
  | nil => simp
  | cons c rest => simp [hrest c rfl]

theorem text_ofNat (n : Nat) : (ofNat n).text = toString n := by
  simp [StateId.text, ofNat, toString, Nat.repr]

theorem toList_toString (n : Nat) : (toString n).toList = (ofNat n).digits := by
  rw [← text_ofNat, StateId.text, String.toList_ofList]

/-- Reads a number from a numeral, with or without leading zeros. -/
def numeral? (text : String) : Option Nat :=
  (ofText? text).map value

theorem numeral?_toString (n : Nat) : numeral? (toString n) = some n := by
  rw [numeral?, ← text_ofNat, ofText?_text, Option.map_some, value_ofNat]

end BinaryMachine.StateId
