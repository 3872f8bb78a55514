import Mathlib.Algebra.Group.Nat.Defs
import Mathlib.Data.List.TakeWhile
import BinaryMachine.Proofs.Encoding.Grammar
import BinaryMachine.Proofs.StateId.Value

/-!
# The order of numerals

Among numerals of one length the first digit that differs decides, and without
leading zeros the longer of two numerals stands for the larger number.  So the order
by length and then by digits is the order of the numbers, and what is read into 64
bits digit by digit is the number or nothing.
-/

namespace BinaryMachine.StateId

/-! ## Numerals of one length -/

theorem compare_digitChar :
    ∀ d < 10, ∀ e < 10, compare (Nat.digitChar d) (Nat.digitChar e) = compare d e := by
  decide

theorem compare_shift {a b d e : Nat} (hd : d < 10) (he : e < 10) :
    compare (10 * a + d) (10 * b + e) = (compare a b).then (compare d e) := by
  rcases Nat.lt_trichotomy a b with hlt | rfl | hgt
  · rw [Nat.compare_eq_lt.2 hlt, Nat.compare_eq_lt.2 (by omega)]
    rfl
  · rw [Nat.compare_eq_eq.2 rfl, Nat.compare_eq_ite_lt, Nat.compare_eq_ite_lt]
    simp
  · rw [Nat.compare_eq_gt.2 hgt, Nat.compare_eq_gt.2 (by omega)]
    rfl

/-- What is in front of the digits counts first. -/
theorem compare_ofDigitChars (xs : List Char) :
    ∀ (ys : List Char) (a b : Nat), xs.length = ys.length →
      (∀ c ∈ xs, c.isDigit = true) → (∀ c ∈ ys, c.isDigit = true) →
      compare (Nat.ofDigitChars 10 xs a) (Nat.ofDigitChars 10 ys b) =
        (compare a b).then (compare xs ys) := by
  induction xs with
  | nil =>
      intro ys a b hlength _ _
      obtain rfl := List.length_eq_zero_iff.1 hlength.symm
      simp
  | cons x xs ih =>
      intro ys a b hlength hxs hys
      cases ys with
      | nil => cases hlength
      | cons y ys =>
          rw [List.forall_mem_cons] at hxs hys
          obtain ⟨d, hd, rfl⟩ := exists_digitChar hxs.1
          obtain ⟨e, he, rfl⟩ := exists_digitChar hys.1
          rw [Nat.ofDigitChars_cons_digitChar_of_lt_ten hd,
            Nat.ofDigitChars_cons_digitChar_of_lt_ten he,
            ih ys _ _ (Nat.succ.inj hlength) hxs.2 hys.2, compare_shift hd he,
            List.compare_cons_cons, compare_digitChar d hd e he, Ordering.then_assoc]

/-! ## Numerals without leading zeros -/

theorem lt_of_length_toDigits_lt {m n : Nat}
    (h : (Nat.toDigits 10 m).length < (Nat.toDigits 10 n).length) : m < n := by
  have hpos : 0 < (Nat.toDigits 10 m).length := Nat.length_toDigits_pos
  have hm : m < 10 ^ (Nat.toDigits 10 m).length :=
    (Nat.length_toDigits_le_iff (by decide) hpos).1 (Nat.le_refl _)
  have hn : ¬ n < 10 ^ (Nat.toDigits 10 m).length := fun hlt =>
    absurd ((Nat.length_toDigits_le_iff (by decide) hpos).2 hlt) (Nat.not_le.2 h)
  omega

theorem compare_toDigits (m n : Nat) :
    (compare (Nat.toDigits 10 m).length (Nat.toDigits 10 n).length).then
      (compare (Nat.toDigits 10 m) (Nat.toDigits 10 n)) = compare m n := by
  rcases Nat.lt_trichotomy (Nat.toDigits 10 m).length (Nat.toDigits 10 n).length with
    hlt | heq | hgt
  · rw [Nat.compare_eq_lt.2 hlt, Nat.compare_eq_lt.2 (lt_of_length_toDigits_lt hlt)]
    rfl
  · have hdigits : ∀ k, ∀ c ∈ Nat.toDigits 10 k, c.isDigit = true := fun k c hc =>
      Nat.isDigit_of_mem_toDigits (by decide) (by decide) hc
    have hcompare := compare_ofDigitChars _ _ 0 0 heq (hdigits m) (hdigits n)
    rw [Nat.ofDigitChars_ten_toDigits, Nat.ofDigitChars_ten_toDigits] at hcompare
    rw [hcompare, heq]
    simp
  · rw [Nat.compare_eq_gt.2 hgt, Nat.compare_eq_gt.2 (lt_of_length_toDigits_lt hgt)]
    rfl

theorem cmp_eq_compare_value (a b : StateId) : a.cmp b = compare a.value b.value := by
  rw [cmp, canonical_eq_toDigits, canonical_eq_toDigits, compare_toDigits]

theorem canonical_eq_iff {a b : StateId} : a.canonical = b.canonical ↔ a.value = b.value :=
  same_iff_value_eq

theorem key_eq_iff {a b : StateId} {symbol : Symbol} :
    a.key symbol = b.key symbol ↔ a.value = b.value := by
  rw [key, key, TransitionKey.mk.injEq, canonical_eq_iff, and_iff_left rfl]

/-- The digits without leading zeros are an id of the same number, which has none to lose. -/
theorem ofDigits?_canonical (id : StateId) :
    ofDigits? id.canonical = some (ofNat id.value) := by
  rw [canonical_eq_toDigits]
  exact ofDigits?_digits (ofNat id.value)

theorem canonical_eq_zero_iff {id : StateId} :
    id.canonical = ['0'] ↔ ∀ c ∈ id.digits, c = '0' := by
  have hdrop : id.digits.dropWhile (· == '0') = [] ↔ ∀ c ∈ id.digits, c = '0' := by
    simp [List.dropWhile_eq_nil_iff]
  rw [← hdrop, canonical]
  constructor
  · intro h
    split at h
    · assumption
    · next hne =>
        -- What is left begins with a digit that is no zero.
        have hhead := List.head_dropWhile_not (· == '0') (l := id.digits) hne
        simp [h] at hhead
  · intro h
    split
    · rfl
    · next hne => exact absurd h hne

theorem eq_zero_of_head?_canonical {id : StateId} (h : id.canonical.head? = some '0') :
    id.canonical = ['0'] := by
  rcases List.head?_eq_some_iff.1 h with ⟨digits, hdigits⟩
  have hnumeral : (ofNat id.value).digits = '0' :: digits := by
    rw [← hdigits, canonical_eq_toDigits]
    rfl
  rw [hdigits, eq_nil_of_digits_eq_zero_cons (canonical_ofNat _) hnumeral]

/-! ## Numbers of 64 bits -/

theorem le_ofDigitChars (digits : List Char) : ∀ n, n ≤ Nat.ofDigitChars 10 digits n := by
  induction digits with
  | nil => exact fun n => Nat.le_refl n
  | cons c digits ih =>
      intro n
      rw [Nat.ofDigitChars_cons]
      exact Nat.le_trans (by omega) (ih _)

/-- A number that has become too large stays so. -/
theorem foldlM_shiftIn? (digits : List Char) :
    ∀ n < UInt64.size, digits.foldlM shiftIn? n =
      if Nat.ofDigitChars 10 digits n < UInt64.size then some (Nat.ofDigitChars 10 digits n)
      else none := by
  induction digits with
  | nil =>
      intro n hn
      exact (if_pos hn).symm
  | cons c digits ih =>
      intro n hn
      have hle := le_ofDigitChars digits (10 * n + (c.toNat - '0'.toNat))
      simp only [List.foldlM_cons, Nat.ofDigitChars_cons, shiftIn?]
      by_cases hfits : 10 * n + (c.toNat - '0'.toNat) < UInt64.size
      · rw [if_pos hfits]
        exact ih _ hfits
      · rw [if_neg hfits, if_neg (by omega)]
        rfl

theorem value64?_eq (id : StateId) :
    id.value64? = if id.value < UInt64.size then some id.value else none := by
  rw [value64?, foldlM_shiftIn? _ 0 (by decide), ← value_eq_ofDigitChars_canonical]

theorem value64?_eq_some_iff {id : StateId} {v : Nat} :
    id.value64? = some v ↔ id.value = v ∧ v ≤ 2 ^ 64 - 1 := by
  rw [value64?_eq, UInt64.size]
  split
  · simp; omega
  · simp; omega

theorem value64?_eq_none_iff {id : StateId} : id.value64? = none ↔ 2 ^ 64 - 1 < id.value := by
  rw [value64?_eq, UInt64.size]
  split
  · simp; omega
  · simp; omega

end StateId

/-! ## Keys -/

theorem Symbol.cmp_eq_eq_iff {a b : Symbol} : a.cmp b = .eq ↔ a = b := by
  cases a <;> cases b <;> decide

theorem Instruction.cmpKey_eq_eq_iff {i j : Instruction} :
    i.cmpKey j = .eq ↔ i.Collides j := by
  rw [cmpKey, Ordering.then_eq_eq, StateId.cmp_eq_compare_value, Nat.compare_eq_eq,
    Symbol.cmp_eq_eq_iff, Collides, StateId.same_iff_value_eq]

/-! ## Ids as numbers -/

/-- All that is read off a numeral is read off the number that it stands for. -/
structure StateId.Denotes (id : StateId) (n : Nat) : Prop where
  value_eq : id.value = n
  canonical_eq : id.canonical = Nat.toDigits 10 n
  zero : (∀ c ∈ id.digits, c = '0') ↔ id.canonical = ['0']
  leading : id.canonical.head? = some '0' → id.canonical = ['0']
  again : ∃ other, StateId.parse (String.ofList id.canonical) = .ok other ∧
    other.value = n ∧ other.canonical = id.canonical
  fits : ∀ v, id.value64? = some v ↔ n = v ∧ v ≤ 2 ^ 64 - 1
  too_large : id.value64? = none ↔ 2 ^ 64 - 1 < n

theorem StateId.denotes_value (id : StateId) : id.Denotes id.value where
  value_eq := rfl
  canonical_eq := id.canonical_eq_toDigits
  zero := canonical_eq_zero_iff.symm
  leading := eq_zero_of_head?_canonical
  again := by
    refine ⟨ofNat id.value, ?_, value_ofNat _, ?_⟩
    · simp only [StateId.parse, ofText?, String.toList_ofList, ofDigits?_canonical]
    · rw [canonical_ofNat, canonical_eq_toDigits]
      rfl
  fits _ := value64?_eq_some_iff
  too_large := value64?_eq_none_iff

/-- The number that is written with these digits. -/
def decimal (s : String) : Nat :=
  Nat.ofDigitChars 10 s.toList 0

theorem StateId.parse_of_digits {s : String} (h : IsNumber s.toList) :
    ∃ id, StateId.parse s = .ok id ∧ id.text = s ∧ id.value = decimal s := by
  rcases StateId.parse_of_isNumber h with ⟨id, hid, hdigits⟩
  rw [String.ofList_toList] at hid
  refine ⟨id, hid, ?_, ?_⟩
  · rw [StateId.text, hdigits, String.ofList_toList]
  · rw [StateId.value, hdigits, decimal]

/-- Ids are natural numbers of any size.  Every numeral is read as one; ids are ordered,
told apart and looked up by their numbers, and 64 bits hold an id exactly if they hold
its number. -/
theorem ids_denote_numbers :
    (∀ s t : String, IsNumber s.toList → IsNumber t.toList →
      ∃ a b, StateId.parse s = .ok a ∧ StateId.parse t = .ok b ∧
        a.text = s ∧ a.Denotes (decimal s) ∧ b.text = t ∧ b.Denotes (decimal t) ∧
        a.cmp b = compare (decimal s) (decimal t) ∧
        (a.Same b ↔ decimal s = decimal t) ∧
        (a.canonical = b.canonical ↔ decimal s = decimal t) ∧
        ∀ symbol, a.key symbol = b.key symbol ↔ decimal s = decimal t) ∧
    (∀ n : UInt64, (StateId.ofNat n.toNat).Denotes n.toNat ∧
      (StateId.ofNat n.toNat).canonical = (StateId.ofNat n.toNat).digits ∧
      (StateId.ofNat n.toNat).value64? = some n.toNat) ∧
    ∀ i j : Instruction, i.Collides j ↔ i.cmpKey j = .eq := by
  refine ⟨?_, ?_, fun i j => Instruction.cmpKey_eq_eq_iff.symm⟩
  · intro s t hs ht
    rcases StateId.parse_of_digits hs with ⟨a, ha, htext, hvalue⟩
    rcases StateId.parse_of_digits ht with ⟨b, hb, htext', hvalue'⟩
    rw [← hvalue, ← hvalue']
    exact ⟨a, b, ha, hb, htext, a.denotes_value, htext', b.denotes_value,
      StateId.cmp_eq_compare_value a b, StateId.same_iff_value_eq, StateId.canonical_eq_iff,
      fun _ => StateId.key_eq_iff⟩
  · intro n
    have hdenotes := (StateId.ofNat n.toNat).denotes_value
    rw [StateId.value_ofNat] at hdenotes
    have hle : n.toNat ≤ 2 ^ 64 - 1 := Nat.le_sub_one_of_lt n.toNat_lt
    exact ⟨hdenotes, StateId.canonical_ofNat _, (hdenotes.fits _).2 ⟨rfl, hle⟩⟩

/-- The largest number of 64 bits behind leading zeros, and the number after it. -/
theorem ids_denote_numbers_around_two_to_64 :
    ∃ a b, StateId.parse "0000018446744073709551615" = .ok a ∧
      StateId.parse "18446744073709551616" = .ok b ∧
      a.value64? = some 18446744073709551615 ∧ b.value64? = none ∧
      a.cmp b = .lt ∧ ¬ a.Same b ∧ String.ofList a.canonical = "18446744073709551615" := by
  obtain ⟨a, b, ha, hb, -, hdenotes, -, hdenotes', hcmp, hsame, -⟩ :=
    ids_denote_numbers.1 "0000018446744073709551615" "18446744073709551616"
      ⟨by decide, List.all_eq_true.1 rfl⟩ ⟨by decide, List.all_eq_true.1 rfl⟩
  have hvalue : decimal "0000018446744073709551615" = 18446744073709551615 := by decide
  have hvalue' : decimal "18446744073709551616" = 18446744073709551616 := by decide
  rw [hvalue] at hdenotes hcmp hsame
  rw [hvalue'] at hdenotes' hcmp hsame
  refine ⟨a, b, ha, hb, (hdenotes.fits _).2 ⟨rfl, by decide⟩, hdenotes'.too_large.2 (by decide),
    hcmp, by simp [hsame], ?_⟩
  rw [hdenotes.canonical_eq]
  decide

end BinaryMachine
