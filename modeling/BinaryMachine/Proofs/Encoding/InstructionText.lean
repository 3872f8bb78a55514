import BinaryMachine.Proofs.Encoding.Grammar

/-!
# Instruction texts

Reading an instruction takes two things: the text is cut into its parts, and
every part is read for what it says.  A text that can be cut has parts that are
never refused, so it makes no difference which reader would refuse them and how.
What is read is written as it was read, and the other way round.
-/

namespace BinaryMachine.Instruction

/-! ## Cutting -/

/-- A text cut at its commas, before anything in it is read. -/
structure Parts where
  id : List Char
  condition : Char
  action : Char
  next : List Char
  deriving DecidableEq, Repr

def oneOf? (allowed : List Char) : List Char → Option (Char × List Char)
  | [] => none
  | c :: s => if c ∈ allowed then some (c, s) else none

theorem oneOf?_eq_some_iff {allowed s rest : List Char} {c : Char} :
    oneOf? allowed s = some (c, rest) ↔ c ∈ allowed ∧ s = c :: rest := by
  cases s with
  | nil => simp [oneOf?]
  | cons d s =>
      by_cases hd : d ∈ allowed
      · simp only [oneOf?, if_pos hd, Option.some.injEq, Prod.mk.injEq, List.cons.injEq]
        constructor
        · rintro ⟨rfl, rfl⟩
          exact ⟨hd, rfl, rfl⟩
        · rintro ⟨-, rfl, rfl⟩
          exact ⟨rfl, rfl⟩
      · simp only [oneOf?, if_neg hd, List.cons.injEq]
        constructor
        · intro h
          cases h
        · rintro ⟨hc, rfl, -⟩
          exact absurd hc hd

namespace Parts

def chars (parts : Parts) : List Char :=
  parts.id ++ [',', parts.condition, ',', parts.action, ','] ++ parts.next

def ofChars? (s : List Char) : Option Parts := do
  let (id, s) ← Json.digits? s
  let (_, s) ← oneOf? [','] s
  let (condition, s) ← oneOf? ['0', '1'] s
  let (_, s) ← oneOf? [','] s
  let (action, s) ← oneOf? ['0', '1', 'L', 'R'] s
  let (_, s) ← oneOf? [','] s
  let (next, s) ← Json.digits? s
  if s = [] then some ⟨id, condition, action, next⟩ else none

structure WellFormed (parts : Parts) : Prop where
  id : IsNumber parts.id
  condition : parts.condition = '0' ∨ parts.condition = '1'
  action : parts.action = '0' ∨ parts.action = '1' ∨ parts.action = 'L' ∨ parts.action = 'R'
  next : IsNumber parts.next

theorem form_iff {s : List Char} :
    Form s ↔ ∃ parts : Parts, parts.WellFormed ∧ s = parts.chars := by
  constructor
  · rintro ⟨id, condition, action, next, hid, hcondition, haction, hnext, hs⟩
    exact ⟨⟨id, condition, action, next⟩, ⟨hid, hcondition, haction, hnext⟩, hs⟩
  · rintro ⟨parts, h, hs⟩
    exact ⟨_, _, _, _, h.id, h.condition, h.action, h.next, hs⟩

theorem ofChars?_chars {parts : Parts} (h : parts.WellFormed) :
    ofChars? parts.chars = some parts := by
  have hid (s : List Char) : Json.digits? (parts.id ++ ',' :: s) = some (parts.id, ',' :: s) := by
    refine Json.digits?_eq_some_iff.2 ⟨h.id, rfl, ?_⟩
    intro c hc
    cases hc
    rfl
  have hcomma (s : List Char) : oneOf? [','] (',' :: s) = some (',', s) :=
    oneOf?_eq_some_iff.2 ⟨by simp, rfl⟩
  have hcondition (s : List Char) :
      oneOf? ['0', '1'] (parts.condition :: s) = some (parts.condition, s) :=
    oneOf?_eq_some_iff.2 ⟨by simpa using h.condition, rfl⟩
  have haction (s : List Char) :
      oneOf? ['0', '1', 'L', 'R'] (parts.action :: s) = some (parts.action, s) :=
    oneOf?_eq_some_iff.2 ⟨by simpa using h.action, rfl⟩
  have hnext : Json.digits? parts.next = some (parts.next, []) :=
    Json.digits?_eq_some_iff.2 ⟨h.next, by simp, nofun⟩
  simp only [chars, ofChars?, List.append_assoc, List.cons_append, List.nil_append, hid, hcomma,
    hcondition, haction, hnext, Option.bind_eq_bind, Option.bind_some, if_true]

theorem wellFormed_of_ofChars? {s : List Char} {parts : Parts}
    (h : ofChars? s = some parts) : parts.WellFormed ∧ s = parts.chars := by
  simp only [ofChars?, Option.bind_eq_bind, Option.bind_eq_some_iff, Prod.exists,
    Json.digits?_eq_some_iff, oneOf?_eq_some_iff, List.mem_cons, List.not_mem_nil, or_false] at h
  obtain ⟨id, _, ⟨hid, rfl, -⟩, _, _, ⟨rfl, rfl⟩, condition, _, ⟨hcondition, rfl⟩, _, _,
    ⟨rfl, rfl⟩, action, _, ⟨haction, rfl⟩, _, _, ⟨rfl, rfl⟩, next, rest, ⟨hnext, rfl, -⟩,
    hend⟩ := h
  split at hend
  · next hrest =>
      cases hend
      subst hrest
      exact ⟨⟨hid, hcondition, haction, hnext⟩, by simp [chars]⟩
  · cases hend

end Parts

/-! ## Reading the parts -/

/-- Cuts the text and reads its parts one after another.  Whatever a part is
refused with is passed on as it is. -/
def parseByParts (text : String) : Except Failure Instruction :=
  match Parts.ofChars? text.toList with
  | some parts => ofParts parts.id parts.condition parts.action parts.next
  | none => .error (.malformedInstruction text)

theorem parseByParts_eq_parse (text : String) : parseByParts text = Instruction.parse text := by
  unfold parseByParts
  cases hparts : Parts.ofChars? text.toList with
  | some parts =>
      obtain ⟨h, htext⟩ := Parts.wellFormed_of_ofChars? hparts
      obtain ⟨i, hread, hchars⟩ := ofParts_of_form h.id h.condition h.action h.next
      have hi : text = i.text := by
        rw [Instruction.text, hchars, ← Parts.chars, ← htext, String.ofList_toList]
      simp only [hread]
      exact (Instruction.parse_eq_ok_iff.2 hi).symm
  | none =>
      have hform : ¬ Form text.toList := by
        intro hform
        obtain ⟨parts, h, htext⟩ := Parts.form_iff.1 hform
        rw [htext, Parts.ofChars?_chars h] at hparts
        contradiction
      have herror := parse_ofList_eq_error_iff.2 ⟨hform, rfl⟩
      rw [String.ofList_toList] at herror
      exact herror.symm

/-- The texts that are read are those of the form, nothing else happens to the
others than that the whole text is refused, and reading undoes writing. -/
theorem instructionText_exact :
    (∀ text : String,
      ((∃ i, Instruction.parse text = .ok i) ↔ Form text.toList) ∧
      (∀ i, Instruction.parse text = .ok i → i.text = text) ∧
      (∀ failure, Instruction.parse text = .error failure ↔
        ¬ Form text.toList ∧ failure = .malformedInstruction text) ∧
      parseByParts text = Instruction.parse text) ∧
    ∀ i : Instruction, Instruction.parse i.text = .ok i := by
  refine ⟨fun text => ⟨?_, ?_, ?_, parseByParts_eq_parse text⟩, ?_⟩
  · rw [form_iff]
    simp only [Instruction.parse_eq_ok_iff, Instruction.text, ← String.toList_inj,
      String.toList_ofList]
  · intro i hread
    exact (Instruction.parse_eq_ok_iff.1 hread).symm
  · intro failure
    have herror := @parse_ofList_eq_error_iff text.toList failure
    rwa [String.ofList_toList] at herror
  · intro i
    exact Instruction.parse_eq_ok_iff.2 rfl

end BinaryMachine.Instruction
