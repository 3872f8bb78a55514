import BinaryMachine.Loading
import BinaryMachine.Proofs.Json.Exchange
import BinaryMachine.Proofs.Json.Lexing
import BinaryMachine.Proofs.Json.RoundTrip
import BinaryMachine.Proofs.StateId.Order

/-!
# Ids in JSON texts

An id is read from a number without sign, fraction and exponent that 64 bits can hold,
or from a string of digits, and from no other text.  A number has no leading zeros, so
as far as 64 bits go the number and the string of its digits are read to the same id.
What two values do alike in one field they do alike in a whole record, and so a program
does not show which of the two its initial id was.
-/

namespace BinaryMachine

open Json (Token Passes Grammatical Spells)

/-! ## Ids -/

namespace StateId

theorem eq_of_digits_eq {a b : StateId} (h : a.digits = b.digits) : a = b := by
  cases a
  cases b
  cases h
  rfl

theorem isNumber_text (id : StateId) : IsNumber id.text.toList := by
  rw [text, String.toList_ofList]
  exact ⟨id.digits_ne_nil, id.isDigit_of_mem⟩

theorem decimal_text (id : StateId) : decimal id.text = id.value := by
  rw [decimal, text, String.toList_ofList, value]

theorem exists_text_eq {s : String} (h : IsNumber s.toList) : ∃ id : StateId, id.text = s :=
  ⟨⟨s.toList, h.1, h.2⟩, String.ofList_toList⟩

/-- A numeral of digits only has no sign, no fraction and no exponent. -/
theorem isWholePart_of_isNumeral {id : StateId} (h : Json.IsNumeral id.digits) :
    Json.IsWholePart id.digits := by
  rcases h with ⟨s, whole, fraction, exponent, hs, hwhole, hfraction, hexponent, hdigits⟩
  have hdigit := id.isDigit_of_mem
  simp only [hdigits, List.forall_mem_append] at hdigit
  rcases hdigit with ⟨⟨⟨hsign, -⟩, hpoint⟩, hmark⟩
  have hnoSign : s = [] := by
    rcases hs with rfl | rfl
    · rfl
    · exact absurd (hsign '-' List.mem_cons_self) (by decide)
  have hnoFraction : fraction = [] := by
    rcases hfraction with rfl | ⟨digits, -, rfl⟩
    · rfl
    · exact absurd (hpoint '.' List.mem_cons_self) (by decide)
  have hnoExponent : exponent = [] := by
    rcases hexponent with rfl | ⟨mark, s, digits, hletter, -, -, rfl⟩
    · rfl
    · have hdigit := hmark mark List.mem_cons_self
      rcases hletter with rfl | rfl <;> contradiction
  rw [hdigits, hnoSign, hnoFraction, hnoExponent]
  simpa using hwhole

theorem canonical_eq_of_isWholePart {id : StateId} (h : Json.IsWholePart id.digits) :
    id.canonical = id.digits := by
  rcases List.exists_cons_of_ne_nil id.digits_ne_nil with ⟨c, digits, hdigits⟩
  rw [hdigits] at h
  by_cases hzero : c = '0'
  · have hall := h.2 (by rw [hzero]; rfl)
    rw [canonical, hdigits, hall]
    rfl
  · rw [canonical, hdigits, List.dropWhile_cons_of_neg (by simpa using hzero)]

/-- The digits of a number are those that are written for it. -/
theorem eq_ofNat_of_isNumeral {id : StateId} (h : Json.IsNumeral id.digits) :
    id = ofNat id.value := by
  apply eq_of_digits_eq
  rw [← canonical_eq_of_isWholePart (isWholePart_of_isNumeral h), canonical_eq_toDigits]
  rfl

theorem isSome_value64?_iff {id : StateId} :
    id.value64?.isSome = true ↔ id.value ≤ 2 ^ 64 - 1 := by
  rw [Option.isSome_iff_exists]
  constructor
  · rintro ⟨v, hv⟩
    rcases value64?_eq_some_iff.1 hv with ⟨rfl, hle⟩
    exact hle
  · exact fun hle => ⟨id.value, value64?_eq_some_iff.2 ⟨rfl, hle⟩⟩

theorem ofTokens_number (id : StateId) :
    ofTokens [.number id.text] = if id.value ≤ 2 ^ 64 - 1 then .ok id else .error .malformed := by
  simp only [ofTokens, ofText?_text, isSome_value64?_iff]

theorem ofTokens_eq_ok_iff {tokens : List Token} {id : StateId} :
    ofTokens tokens = .ok id ↔
      tokens = [.text id.text] ∨ tokens = [.number id.text] ∧ id.value ≤ 2 ^ 64 - 1 := by
  constructor
  · intro h
    unfold ofTokens at h
    split at h
    · next content =>
        split at h
        · next hcontent =>
            cases h
            rw [text_of_ofText? hcontent]
            exact .inl rfl
        · contradiction
    · next literal =>
        split at h
        · next hliteral =>
            split at h
            · next hfits =>
                cases h
                rw [text_of_ofText? hliteral]
                exact .inr ⟨rfl, isSome_value64?_iff.1 hfits⟩
            · contradiction
        · contradiction
    · contradiction
  · rintro (rfl | ⟨rfl, hle⟩)
    · exact ofTokens_toTokens id
    · rw [ofTokens_number, if_pos hle]

theorem ofTokens_scan_eq_ok_iff {text : String} {id : StateId} :
    ofTokens (Json.scan text) = .ok id ↔
      Spells text [.text id.text] ∨ Spells text [.number id.text] ∧ id.value ≤ 2 ^ 64 - 1 := by
  rw [ofTokens_eq_ok_iff, Json.spells_iff_scan_eq, Json.spells_iff_scan_eq,
    and_iff_right (Grammatical.text _), and_iff_right (Grammatical.number _)]

theorem spells_text_iff {text : String} {id : StateId} :
    Spells text [.text id.text] ↔
      ∃ content, IsNumber content.toList ∧ Spells text [.text content] ∧
        id.digits = content.toList := by
  constructor
  · intro h
    exact ⟨id.text, id.isNumber_text, h, String.toList_ofList.symm⟩
  · rintro ⟨content, -, h, hdigits⟩
    rwa [StateId.text, hdigits, String.ofList_toList]

theorem spells_number_iff {text : String} {id : StateId} :
    Spells text [.number id.text] ∧ id.value ≤ 2 ^ 64 - 1 ↔
      ∃ literal, IsNumber literal.toList ∧ decimal literal ≤ 2 ^ 64 - 1 ∧
        Spells text [.number literal] ∧ id.digits = (toString (decimal literal)).toList := by
  have hnumeral : ∀ {id : StateId}, Spells text [.number id.text] → id = ofNat id.value := by
    intro id h
    have hnumeral := h.isNumeral
    rw [StateId.text, String.toList_ofList] at hnumeral
    exact eq_ofNat_of_isNumeral hnumeral
  constructor
  · rintro ⟨h, hle⟩
    rw [← decimal_text] at hle
    refine ⟨id.text, id.isNumber_text, hle, h, ?_⟩
    rw [toList_toString, decimal_text, ← hnumeral h]
  · rintro ⟨literal, hliteral, hle, h, hdigits⟩
    rcases exists_text_eq hliteral with ⟨number, rfl⟩
    rw [decimal_text] at hle
    have hid : id = number := by
      apply eq_of_digits_eq
      rw [hdigits, toList_toString, decimal_text, ← hnumeral h]
    rw [hid]
    exact ⟨h, hle⟩

end StateId

/-! ## Programs -/

namespace Program

/-- The tokens of two programs that differ in nothing but how their initial id is given:
as a number, and as the string of its digits. -/
inductive GivenEitherWay (n : Nat) : List Token → List Token → Prop
  | object {front : List (String × List Token)} (hfront : ∀ m ∈ front, Grammatical m.2)
      (back : List (String × List Token)) :
      GivenEitherWay n (Json.object (front ++ ("initial_id", [.number (toString n)]) :: back))
        (Json.object (front ++ ("initial_id", [.text (toString n)]) :: back))
  | array {name tape instructions : List Token} (hname : Grammatical name)
      (htape : Grammatical tape) (hinstructions : Grammatical instructions)
      (back : List (List Token)) :
      GivenEitherWay n
        (Json.array (name :: tape :: instructions :: [.number (toString n)] :: back))
        (Json.array (name :: tape :: instructions :: [.text (toString n)] :: back))

theorem alike_initialId {n : Nat} (h : n ≤ 2 ^ 64 - 1) :
    form.Alike .initialId [.number (toString n)] [.text (toString n)] where
  passes := (Grammatical.number _).passes
  passes' := (Grammatical.text _).passes
  put_eq := by
    intro draft
    have hnumber := StateId.ofTokens_number (StateId.ofNat n)
    rw [StateId.value_ofNat, if_pos h, ← (StateId.ofNat n).ofTokens_toTokens, StateId.toTokens,
      StateId.text_ofNat] at hnumber
    change Draft.put draft .initialId _ = Draft.put draft .initialId _
    rw [Draft.put, Draft.put, hnumber]

theorem GivenEitherWay.ofTokens_eq {n : Nat} {number string : List Token}
    (h : GivenEitherWay n number string) (hn : n ≤ 2 ^ 64 - 1) :
    ofTokens number = ofTokens string := by
  cases h with
  | object hfront back =>
      exact Json.Form.read_object_congr (alike_initialId hn) (field?_label .initialId)
        (fun m hm => (hfront m hm).passes) back
  | @array name tape instructions hname htape hinstructions back =>
      have hfront : ∀ element ∈ [name, tape, instructions], Passes element := by
        simp only [List.forall_mem_cons]
        exact ⟨hname.passes, htape.passes, hinstructions.passes, nofun⟩
      have hfields : form.fields =
          [.name, .tape, .instructions] ++ .initialId :: [.separator] := rfl
      exact Json.Form.read_array_congr (alike_initialId hn) hfields rfl hfront back

end Program

/-- An id is read from a number of 64 bits and from a string of digits, and from nothing
else; what both can give they give alike, to an id and to a program. -/
theorem ids_have_two_spellings :
    (∀ text id, StateId.ofTokens (Json.scan text) = .ok id ↔
      (∃ content, IsNumber content.toList ∧ Spells text [.text content] ∧
        id.digits = content.toList) ∨
      ∃ literal, IsNumber literal.toList ∧ decimal literal ≤ 2 ^ 64 - 1 ∧
        Spells text [.number literal] ∧ id.digits = (toString (decimal literal)).toList) ∧
    (∀ n number string, Spells number [.number (toString n)] →
      Spells string [.text (toString n)] →
      StateId.ofTokens (Json.scan string) = .ok (.ofNat n) ∧
        StateId.ofTokens (Json.scan number) =
          if n ≤ 2 ^ 64 - 1 then .ok (.ofNat n) else .error .malformed) ∧
    ∀ n ≤ 2 ^ 64 - 1, ∀ numberTokens stringTokens,
      Program.GivenEitherWay n numberTokens stringTokens → ∀ number string,
      Spells number numberTokens → Spells string stringTokens →
      Program.ofJson number = Program.ofJson string ∧
        ∀ program : Program, stringTokens = program.toTokens →
          Program.ofJson number = .ok program := by
  refine ⟨?_, ?_, ?_⟩
  · intro text id
    rw [StateId.ofTokens_scan_eq_ok_iff, StateId.spells_text_iff, StateId.spells_number_iff]
  · intro n number string hnumber hstring
    rw [hnumber.scan_eq, hstring.scan_eq, ← StateId.text_ofNat, StateId.ofTokens_number,
      StateId.value_ofNat]
    exact ⟨(StateId.ofNat n).ofTokens_toTokens, rfl⟩
  · intro n hn numberTokens stringTokens htokens number string hnumber hstring
    have heq : Program.ofJson number = Program.ofJson string := by
      rw [Program.ofJson, Program.ofJson, hnumber.scan_eq, hstring.scan_eq, htokens.ofTokens_eq hn]
    refine ⟨heq, ?_⟩
    rintro program rfl
    rw [heq, Program.ofJson, hstring.scan_eq, Program.ofTokens_toTokens]

/-- The largest number of 64 bits and the number after it, and a program. -/
theorem ids_have_two_spellings_up_to_two_to_64 :
    let program : Program := ⟨"p", "1", "7,1,R,7", .ofNat 7, ";"⟩
    let front := "\x7b \"name\":\"p\",\"tape\":\"1\",\"instructions\":\"7,1,R,7\","
    let back := ",\"separator\":\";\" \x7d"
    StateId.ofTokens (Json.scan " 18446744073709551615 ") = .ok (.ofNat 18446744073709551615) ∧
    StateId.ofTokens (Json.scan "\"1844674407370955161\\u0035\"") =
      .ok (.ofNat 18446744073709551615) ∧
    StateId.ofTokens (Json.scan "18446744073709551616") = .error .malformed ∧
    StateId.ofTokens (Json.scan "\"18446744073709551616\"") =
      .ok (.ofNat 18446744073709551616) ∧
    Program.ofJson (front ++ "\"initial_id\": 7" ++ back) = .ok program ∧
    Program.ofJson (front ++ "\"initial_id\": \"\\u0037\"" ++ back) = .ok program := by
  intro program front back
  rcases ids_have_two_spellings with ⟨-, hids, hprograms⟩
  have hlargest := hids 18446744073709551615 " 18446744073709551615 "
    "\"1844674407370955161\\u0035\""
    (Json.spells_iff_scan_eq.2 ⟨.number _, by decide +kernel⟩)
    (Json.spells_iff_scan_eq.2 ⟨.text _, by decide +kernel⟩)
  have htooLarge := hids 18446744073709551616 "18446744073709551616" "\"18446744073709551616\""
    (Json.spells_iff_scan_eq.2 ⟨.number _, by decide +kernel⟩)
    (Json.spells_iff_scan_eq.2 ⟨.text _, by decide +kernel⟩)
  let before : List (String × List Token) :=
    [("name", [.text "p"]), ("tape", [.text "1"]), ("instructions", [.text "7,1,R,7"])]
  have hbefore : ∀ m ∈ before, Grammatical m.2 := by
    simp only [before, List.forall_mem_cons]
    exact ⟨.text _, .text _, .text _, nofun⟩
  have hvalue : ∀ id, Grammatical id → Grammatical
      (Json.object (before ++ ("initial_id", id) :: [("separator", [.text ";"])])) := by
    intro id hid
    apply Grammatical.object
    refine List.forall_mem_append.2 ⟨hbefore, ?_⟩
    rw [List.forall_mem_cons, List.forall_mem_singleton]
    exact ⟨hid, .text _⟩
  have hread := hprograms 7 (by decide) _ _ (.object hbefore [("separator", [.text ";"])])
    (front ++ "\"initial_id\": 7" ++ back) (front ++ "\"initial_id\": \"\\u0037\"" ++ back)
    (Json.spells_iff_scan_eq.2 ⟨hvalue _ (.number _), by decide +kernel⟩)
    (Json.spells_iff_scan_eq.2 ⟨hvalue _ (.text _), by decide +kernel⟩)
  have hprogram := hread.2 program (by decide +kernel)
  exact ⟨hlargest.2, hlargest.1, htooLarge.2, htooLarge.1, hprogram, hread.1 ▸ hprogram⟩

end BinaryMachine
