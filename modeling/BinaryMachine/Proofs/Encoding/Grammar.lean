import Mathlib.Data.List.Basic
import Mathlib.Data.List.TakeWhile
import BinaryMachine.Encoding
import BinaryMachine.Json.Token
import BinaryMachine.Proofs.StateId.Value

/-!
# The forms of instruction and tape texts

The form of a text says which characters may stand where.  An instruction can be
read part by part from a text of the right form, and none of its parts is ever
refused: the only failure is that of the whole text.  The same goes for the
content of a tape.
-/

namespace BinaryMachine

/-! ## Lists of parts -/

/-- What is read back one by one is read back as a list. -/
theorem mapM_map_eq_pure {m : Type → Type} [Monad m] [LawfulMonad m] {α β : Type}
    {write : α → β} {read : β → m α} (as : List α) (h : ∀ a ∈ as, read (write a) = pure a) :
    (as.map write).mapM read = pure as := by
  induction as with
  | nil => rw [List.map_nil, List.mapM_nil]
  | cons a as ih =>
      rw [List.forall_mem_cons] at h
      rw [List.map_cons, List.mapM_cons, h.1, ih h.2]
      simp

/-! ## Parts of an instruction -/

/-- One digit or more, however many zeros stand in front. -/
def IsNumber (s : List Char) : Prop :=
  s ≠ [] ∧ ∀ c ∈ s, c.isDigit = true

/-- A number that is cut off a text takes all the digits there are. -/
theorem Json.digits?_eq_some_iff {s digits rest : List Char} :
    Json.digits? s = some (digits, rest) ↔
      IsNumber digits ∧ s = digits ++ rest ∧ ∀ c ∈ rest.head?, c.isDigit = false := by
  constructor
  · intro h
    unfold Json.digits? at h
    split at h
    · cases h
    · next hne =>
        cases h
        refine ⟨⟨hne, ?_⟩, List.takeWhile_append_dropWhile.symm, ?_⟩
        · intro c hc
          exact List.mem_takeWhile_imp hc
        · intro c hc
          have := List.head?_dropWhile_not Char.isDigit s
          rw [Option.mem_def.1 hc] at this
          simpa using this
  · rintro ⟨⟨hne, hdigits⟩, rfl, hrest⟩
    have hcut := StateId.takeWhile_isDigit_append ⟨digits, hne, hdigits⟩ hrest
    rw [Json.digits?, hcut.1, hcut.2]
    split
    · contradiction
    · rfl

theorem StateId.parse_of_isNumber {s : List Char} (h : IsNumber s) :
    ∃ id, StateId.parse (String.ofList s) = .ok id ∧ id.digits = s := by
  refine ⟨⟨s, h.1, h.2⟩, ?_, rfl⟩
  have htext := StateId.ofText?_text ⟨s, h.1, h.2⟩
  rw [StateId.text] at htext
  rw [StateId.parse, htext]

theorem Symbol.parse_char (symbol : Symbol) : Symbol.parse symbol.char = .ok symbol := by
  rw [Symbol.parse, Symbol.ofChar?_char]

theorem Action.parse_char (action : Action) : Action.parse action.char = .ok action := by
  rw [Action.parse, Action.ofChar?_char]

theorem Symbol.exists_char_eq {c : Char} : (∃ symbol : Symbol, symbol.char = c) ↔
    c = '0' ∨ c = '1' := by
  constructor
  · rintro ⟨_ | _, rfl⟩
    · exact .inl rfl
    · exact .inr rfl
  · rintro (rfl | rfl)
    · exact ⟨.zero, rfl⟩
    · exact ⟨.one, rfl⟩

theorem Action.exists_char_eq {c : Char} : (∃ action : Action, action.char = c) ↔
    c = '0' ∨ c = '1' ∨ c = 'L' ∨ c = 'R' := by
  constructor
  · rintro ⟨(_ | _) | (_ | _), rfl⟩ <;> simp [Action.char, Symbol.char]
  · rintro (rfl | rfl | rfl | rfl)
    · exact ⟨.write .zero, rfl⟩
    · exact ⟨.write .one, rfl⟩
    · exact ⟨.move .left, rfl⟩
    · exact ⟨.move .right, rfl⟩

namespace Instruction

/-! ## Instructions -/

/-- A number, a symbol, an action and a number, with commas between them. -/
def Form (s : List Char) : Prop :=
  ∃ (id : List Char) (condition action : Char) (next : List Char),
    IsNumber id ∧ (condition = '0' ∨ condition = '1') ∧
    (action = '0' ∨ action = '1' ∨ action = 'L' ∨ action = 'R') ∧ IsNumber next ∧
    s = id ++ [',', condition, ',', action, ','] ++ next

/-- Reads the parts one after another and passes on the failure of the first
that is refused. -/
def ofParts (id : List Char) (condition action : Char) (next : List Char) :
    Except Failure Instruction := do
  let id ← StateId.parse (String.ofList id)
  let condition ← Symbol.parse condition
  let action ← Action.parse action
  let next ← StateId.parse (String.ofList next)
  return ⟨id, condition, action, next⟩

theorem ofParts_of_form {id next : List Char} {condition action : Char} (hid : IsNumber id)
    (hcondition : condition = '0' ∨ condition = '1')
    (haction : action = '0' ∨ action = '1' ∨ action = 'L' ∨ action = 'R')
    (hnext : IsNumber next) :
    ∃ i, ofParts id condition action next = .ok i ∧
      i.chars = id ++ [',', condition, ',', action, ','] ++ next := by
  obtain ⟨idRead, hidRead, rfl⟩ := StateId.parse_of_isNumber hid
  obtain ⟨nextRead, hnextRead, rfl⟩ := StateId.parse_of_isNumber hnext
  obtain ⟨symbol, rfl⟩ := Symbol.exists_char_eq.2 hcondition
  obtain ⟨act, rfl⟩ := Action.exists_char_eq.2 haction
  refine ⟨⟨idRead, symbol, act, nextRead⟩, ?_, by simp [chars]⟩
  rw [ofParts, hidRead, hnextRead, Symbol.parse_char, Action.parse_char]
  rfl

theorem form_chars (i : Instruction) : Form i.chars := by
  refine ⟨i.id.digits, i.condition.char, i.action.char, i.next.digits,
    ⟨i.id.digits_ne_nil, i.id.isDigit_of_mem⟩, Symbol.exists_char_eq.1 ⟨_, rfl⟩,
    Action.exists_char_eq.1 ⟨_, rfl⟩, ⟨i.next.digits_ne_nil, i.next.isDigit_of_mem⟩, ?_⟩
  simp [chars]

theorem form_iff {s : List Char} : Form s ↔ ∃ i : Instruction, s = i.chars := by
  constructor
  · rintro ⟨id, condition, action, next, hid, hcondition, haction, hnext, rfl⟩
    obtain ⟨i, -, hchars⟩ := ofParts_of_form hid hcondition haction hnext
    exact ⟨i, hchars.symm⟩
  · rintro ⟨i, rfl⟩
    exact i.form_chars

theorem parse_ofList_eq_ok_iff {s : List Char} {i : Instruction} :
    Instruction.parse (String.ofList s) = .ok i ↔ s = i.chars := by
  rw [Instruction.parse_eq_ok_iff, text, String.ofList_inj]

theorem parse_ofList_eq_error_iff {s : List Char} {failure : Failure} :
    Instruction.parse (String.ofList s) = .error failure ↔
      ¬ Form s ∧ failure = .malformedInstruction (String.ofList s) := by
  rw [form_iff]
  constructor
  · intro h
    refine ⟨?_, ?_⟩
    · rintro ⟨i, hi⟩
      rw [parse_ofList_eq_ok_iff.2 hi] at h
      contradiction
    · unfold Instruction.parse at h
      split at h <;> cases h
      rfl
  · rintro ⟨hform, rfl⟩
    unfold Instruction.parse
    split
    · next i hi =>
        refine absurd ⟨i, ?_⟩ hform
        exact parse_ofList_eq_ok_iff.1 (by rw [Instruction.parse, hi])
    · rfl

/-- The characters that occur in the texts of instructions. -/
def isTextChar (c : Char) : Bool :=
  c.isDigit || c == ',' || c == 'L' || c == 'R'

theorem isTextChar_of_mem (i : Instruction) : ∀ c ∈ i.chars, isTextChar c = true := by
  intro c hc
  simp only [chars, List.mem_append, List.mem_cons] at hc
  rcases hc with hid | rfl | rfl | rfl | rfl | rfl | hnext
  · simp [isTextChar, i.id.isDigit_of_mem c hid]
  · rfl
  · cases i.condition <;> rfl
  · rfl
  · rcases i.action with (_ | _) | (_ | _) <;> rfl
  · rfl
  · simp [isTextChar, i.next.isDigit_of_mem c hnext]

end Instruction

/-! ## Tape contents -/

/-- A single space, or symbols only. -/
def TapeForm (text : String) : Prop :=
  text = " " ∨ ∀ c ∈ text.toList, c = '0' ∨ c = '1'

theorem exists_symbols_of_forall {cs : List Char} (h : ∀ c ∈ cs, c = '0' ∨ c = '1') :
    ∃ symbols : List Symbol, cs = symbols.map Symbol.char := by
  induction cs with
  | nil => exact ⟨[], rfl⟩
  | cons c cs ih =>
      rw [List.forall_mem_cons, ← Symbol.exists_char_eq] at h
      obtain ⟨⟨symbol, rfl⟩, hrest⟩ := h
      obtain ⟨symbols, rfl⟩ := ih hrest
      exact ⟨symbol :: symbols, rfl⟩

theorem mapM_ofChar?_isSome_iff {cs : List Char} :
    (∃ symbols, cs.mapM Symbol.ofChar? = some symbols) ↔ ∀ c ∈ cs, c = '0' ∨ c = '1' := by
  induction cs with
  | nil => simp
  | cons c cs ih =>
      rw [List.forall_mem_cons, ← ih, ← Symbol.exists_char_eq]
      constructor
      · rintro ⟨symbols, hsymbols⟩
        simp only [List.mapM_cons, Option.bind_eq_bind, Option.bind_eq_some_iff] at hsymbols
        obtain ⟨symbol, hsymbol, rest, hrest, -⟩ := hsymbols
        exact ⟨⟨symbol, (Symbol.ofChar?_eq_some_iff.1 hsymbol).symm⟩, rest, hrest⟩
      · rintro ⟨⟨symbol, rfl⟩, rest, hrest⟩
        exact ⟨symbol :: rest, by simp [List.mapM_cons, hrest]⟩

theorem parseTape_of_symbols {text : String} {symbols : List Symbol}
    (h : text.toList = symbols.map Symbol.char) : parseTape text = .ok symbols := by
  have hblank : text ≠ blankTapeText := by
    rintro rfl
    have hspace : ' ' ∈ symbols.map Symbol.char := by
      rw [← h]
      exact List.mem_singleton_self _
    obtain ⟨symbol, -, hchar⟩ := List.mem_map.1 hspace
    cases symbol <;> cases hchar
  have hsymbols : (symbols.map Symbol.char).mapM Symbol.ofChar? = some symbols :=
    mapM_map_eq_pure symbols fun symbol _ => symbol.ofChar?_char
  rw [parseTape, if_neg hblank, h, hsymbols]

theorem exists_parseTape_iff {text : String} :
    (∃ symbols, parseTape text = .ok symbols) ↔ TapeForm text := by
  rw [TapeForm, ← mapM_ofChar?_isSome_iff, parseTape, blankTapeText]
  by_cases hblank : text = " "
  · simp [hblank]
  · cases text.toList.mapM Symbol.ofChar? <;> simp [hblank]

theorem parseTape_eq_error_iff {text : String} {failure : Failure} :
    parseTape text = .error failure ↔ ¬ TapeForm text ∧ failure = .malformedTape text := by
  rw [← exists_parseTape_iff, parseTape]
  by_cases hblank : text = blankTapeText
  · simp [hblank]
  · cases text.toList.mapM Symbol.ofChar? <;> simp [hblank, eq_comm]

def isSymbolChar (c : Char) : Bool :=
  c == '0' || c == '1'

theorem isSymbolChar_iff {c : Char} : isSymbolChar c = true ↔ c = '0' ∨ c = '1' := by
  simp [isSymbolChar]

/-- The symbols at the front of a text and what stands behind them.  A space at the
front is taken for the blank content, which has no symbols. -/
def tapeContent : List Char → List Char × List Char
  | ' ' :: rest => ([], rest)
  | s => (s.takeWhile isSymbolChar, s.dropWhile isSymbolChar)

/-- A tape text cut into its symbols, before any of them is read. -/
def tapeSymbols? (s : List Char) : Option (List Char) :=
  match tapeContent s with
  | (symbols, []) => some symbols
  | (_, _ :: _) => none

theorem tapeContent_of_ne_space {s : List Char} (h : s.head? ≠ some ' ') :
    tapeContent s = (s.takeWhile isSymbolChar, s.dropWhile isSymbolChar) := by
  unfold tapeContent
  split
  · exact absurd rfl h
  · rfl

theorem tapeSymbols?_eq_some_iff {s symbols : List Char} :
    tapeSymbols? s = some symbols ↔
      s = [' '] ∧ symbols = [] ∨ (∀ c ∈ s, c = '0' ∨ c = '1') ∧ symbols = s := by
  by_cases hspace : s.head? = some ' '
  · obtain ⟨rest, rfl⟩ := List.head?_eq_some_iff.1 hspace
    -- Nothing is tried again once the space has been taken.
    cases rest with
    | nil => simp [tapeSymbols?, tapeContent, eq_comm]
    | cons c rest => simp [tapeSymbols?, tapeContent]
  · have hblank : s ≠ [' '] := by
      rintro rfl
      exact hspace rfl
    rw [tapeSymbols?, tapeContent_of_ne_space hspace]
    simp only [hblank, false_and, false_or, ← isSymbolChar_iff]
    constructor
    · intro h
      cases hrest : s.dropWhile isSymbolChar with
      | nil =>
          have hwhole := @List.takeWhile_append_dropWhile _ isSymbolChar s
          rw [hrest, List.append_nil] at hwhole
          rw [hrest, hwhole] at h
          cases h
          exact ⟨List.dropWhile_eq_nil_iff.1 hrest, rfl⟩
      | cons c rest =>
          rw [hrest] at h
          cases h
    · rintro ⟨hsymbols, rfl⟩
      rw [List.dropWhile_eq_nil_iff.2 hsymbols, List.takeWhile_eq_self_iff.2 hsymbols]

/-- Cuts the text into its symbols and reads one after another.  What a symbol is
refused with is passed on as it is. -/
def parseTapeByParts (text : String) : Except Failure (List Symbol) :=
  match tapeSymbols? text.toList with
  | some symbols => symbols.mapM Symbol.parse
  | none => .error (.malformedTape text)

theorem parseTapeByParts_eq_parseTape (text : String) :
    parseTapeByParts text = parseTape text := by
  unfold parseTapeByParts
  cases hcut : tapeSymbols? text.toList with
  | some cs =>
      rcases tapeSymbols?_eq_some_iff.1 hcut with ⟨hblank, rfl⟩ | ⟨hsymbols, rfl⟩
      · have htext : text = blankTapeText := String.toList_inj.1 hblank
        rw [parseTape, if_pos htext]
        rfl
      · rcases exists_symbols_of_forall hsymbols with ⟨symbols, htext⟩
        have hread : (symbols.map Symbol.char).mapM Symbol.parse = .ok symbols :=
          mapM_map_eq_pure symbols fun symbol _ => symbol.parse_char
        simp only [htext, hread, parseTape_of_symbols htext]
  | none =>
      have hform : ¬ TapeForm text := by
        rintro (rfl | hsymbols)
        · cases hcut
        · rw [tapeSymbols?_eq_some_iff.2 (.inr ⟨hsymbols, rfl⟩)] at hcut
          contradiction
      exact (parseTape_eq_error_iff.2 ⟨hform, rfl⟩).symm

end BinaryMachine
