import BinaryMachine.Proofs.CommandLine.Choices

/-!
# Instructions in words of many kinds

Instructions are given under a long or a short name, in one word or in two, and in one
word with switches.  However that is done and whatever stands before and behind it, the
words are read as the same items but for the text of the instructions.
-/

namespace BinaryMachine.CommandLine

/-! ## Reading word by word -/

section Reading

variable {items : List Item} {word value : String} {setting : Setting}

theorem ne_dashes_of_readWord? {read : Word} (h : readWord? word = some read) : word ≠ "--" := by
  rintro rfl
  have hnone : readWord? "--" = none := rfl
  simp [hnone] at h

theorem readWords?_cons_whole (h : readWord? word = some ⟨items, none⟩) (rest : List String) :
    readWords? (word :: rest) = (readWords? rest).map (items ++ ·) := by
  rw [readWords?.eq_def]
  simp only [if_neg (ne_dashes_of_readWord? h), h]

theorem readWords?_cons_awaiting (h : readWord? word = some ⟨items, some setting⟩)
    (rest : List String) :
    readWords? (word :: value :: rest) =
      if startsOption value then none
      else (readWords? rest).map (items ++ .given setting value :: ·) := by
  rw [readWords?.eq_def]
  simp only [if_neg (ne_dashes_of_readWord? h), h]

theorem readWords?_cons_unread (h : readWord? word = none) {rest : List String}
    (hrest : rest ≠ []) : readWords? (word :: rest) = none := by
  rw [readWords?.eq_def]
  simp [h, hrest]

end Reading

/-! ## Switches by their letters -/

/-- The letters of switches. -/
inductive Letter where
  | l
  | d
  | v
  deriving DecidableEq, Repr

def Letter.char : Letter → Char
  | l => 'l'
  | d => 'd'
  | v => 'v'

def Letter.switch : Letter → Switch
  | l => .list
  | d => .debug
  | v => .verbose

theorem Letter.ofShort?_char (letter : Letter) :
    Flag.ofShort? letter.char = some (.switch letter.switch) := by
  cases letter <;> rfl

def switchItems (letters : List Letter) : List Item :=
  letters.map fun letter => .on letter.switch

theorem readShort?_letters (letters : List Letter) {rest : List Char} {items : List Item}
    {awaits : Option Setting} (hrest : readShort? rest = some ⟨items, awaits⟩) :
    readShort? (letters.map Letter.char ++ rest) = some ⟨switchItems letters ++ items, awaits⟩ := by
  induction letters with
  | nil => exact hrest
  | cons letter letters ih =>
      rw [List.map_cons, List.cons_append, readShort?.eq_def]
      simp only [letter.ofShort?_char, ih, Option.map_some]
      rfl

/-! ## The ways to give instructions -/

inductive Spelling where
  /-- The long name with an equals sign. -/
  | long
  /-- The long name and the text in the next word. -/
  | longApart
  /-- The short name behind some switches, and the text. -/
  | short (letters : List Letter)
  /-- The same, with an equals sign. -/
  | shortEquals (letters : List Letter)
  /-- The same, with the text in the next word. -/
  | shortApart (letters : List Letter)
  deriving DecidableEq, Repr

/-- The word of some letters and the short name, and what follows in it. -/
def shortWord (letters : List Letter) (rest : List Char) : String :=
  String.ofList ('-' :: (letters.map Letter.char ++ 'i' :: rest))

def Spelling.words : Spelling → String → List String
  | long, text => ["--instructions=" ++ text]
  | longApart, text => ["--instructions", text]
  | short letters, text => [shortWord letters text.toList]
  | shortEquals letters, text => [shortWord letters ('=' :: text.toList)]
  | shortApart letters, text => [shortWord letters [], text]

/-- What is said in the word besides. -/
def Spelling.besides : Spelling → List Item
  | long | longApart => []
  | short letters | shortEquals letters | shortApart letters => switchItems letters

/-- Instruction texts begin with a digit. -/
def BeginsWithDigit (text : String) : Prop :=
  ∃ c rest, text.toList = c :: rest ∧ c.isDigit = true

theorem readWord?_shortWord {letters : List Letter} {rest : List Char} {items : List Item}
    {awaits : Option Setting} (hrest : readShort? ('i' :: rest) = some ⟨items, awaits⟩) :
    readWord? (shortWord letters rest) = some ⟨switchItems letters ++ items, awaits⟩ := by
  have hread := readShort?_letters letters hrest
  rw [readWord?, shortWord, String.toList_ofList]
  cases letters with
  | nil => simpa using hread
  | cons letter letters => cases letter <;> simpa [Letter.char] using hread

theorem startsOption_of_beginsWithDigit {text : String} (h : BeginsWithDigit text) :
    startsOption text = false := by
  rcases h with ⟨c, rest, htext, hdigit⟩
  rw [startsOption, htext]
  split
  · next heq =>
      cases heq
      contradiction
  · rfl

theorem readShort?_text {text : String} (h : BeginsWithDigit text) :
    readShort? ('i' :: text.toList) = some ⟨[.given .instructions text], none⟩ := by
  rcases h with ⟨c, rest, htext, hdigit⟩
  have hne : c ≠ '=' := by
    rintro rfl
    contradiction
  have hvalue : String.ofList (c :: rest) = text := by
    rw [← htext, String.ofList_toList]
  rw [readShort?.eq_def]
  simp [Flag.ofShort?, htext, hne, hvalue]

theorem readWords?_spelling (spelling : Spelling) {text : String} (h : BeginsWithDigit text)
    (rest : List String) :
    readWords? (spelling.words text ++ rest) =
      (readWords? rest).map fun items =>
        spelling.besides ++ .given .instructions text :: items := by
  cases spelling with
  | long => exact readWords?_cons_whole (readWord?_word (.given .instructions text)) rest
  | longApart =>
      have hname : readWord? "--instructions" = some ⟨[], some .instructions⟩ := rfl
      have hread := @readWords?_cons_awaiting _ _ text _ hname rest
      simpa [Spelling.words, Spelling.besides, startsOption_of_beginsWithDigit h] using hread
  | short letters =>
      have hread := readWords?_cons_whole
        (@readWord?_shortWord letters _ _ _ (readShort?_text h)) rest
      simpa [Spelling.words, Spelling.besides, List.append_assoc] using hread
  | shortEquals letters =>
      have hvalue : readShort? ('i' :: '=' :: text.toList) =
          some ⟨[.given .instructions (String.ofList text.toList)], none⟩ := rfl
      have hread := readWords?_cons_whole (@readWord?_shortWord letters _ _ _ hvalue) rest
      simpa [Spelling.words, Spelling.besides, List.append_assoc, String.ofList_toList] using hread
  | shortApart letters =>
      have hname : readShort? ['i'] = some ⟨[], some .instructions⟩ := rfl
      have hread := @readWords?_cons_awaiting _ _ text _
        (@readWord?_shortWord letters _ _ _ hname) rest
      simpa [Spelling.words, Spelling.besides, List.append_assoc,
        startsOption_of_beginsWithDigit h] using hread

theorem startsOption_shortWord (letters : List Letter) (rest : List Char) :
    startsOption (shortWord letters rest) = true := by
  cases letters <;> simp [startsOption, shortWord]

/-- What gives the instructions cannot be the value of a setting before it. -/
theorem Spelling.exists_words_eq (spelling : Spelling) (text : String) :
    ∃ first more, spelling.words text = first :: more ∧ startsOption first = true := by
  cases spelling with
  | long => exact ⟨_, _, rfl, by simp [startsOption]⟩
  | longApart => exact ⟨_, _, rfl, rfl⟩
  | short letters => exact ⟨_, _, rfl, startsOption_shortWord letters _⟩
  | shortEquals letters => exact ⟨_, _, rfl, startsOption_shortWord letters _⟩
  | shortApart letters => exact ⟨_, _, rfl, startsOption_shortWord letters _⟩

/-- Items with the instructions between them. -/
def withInstructions (around : List Item × List Item) (text : String) : List Item :=
  around.1 ++ .given .instructions text :: around.2

theorem withInstructions_append (items : List Item) (around : List Item × List Item)
    (text : String) :
    withInstructions (items ++ around.1, around.2) text =
      items ++ withInstructions around text :=
  List.append_assoc _ _ _

/-- The words before and behind are read as the same items, whatever the text of the
instructions. -/
theorem exists_readWords?_around (spelling : Spelling) (after : List String) :
    ∀ before : List String, ∃ around : Option (List Item × List Item),
      ∀ text, BeginsWithDigit text →
        readWords? (before ++ (spelling.words text ++ after)) =
          around.map fun around => withInstructions around text
  | [] => by
      refine ⟨(readWords? after).map fun items => (spelling.besides, items), ?_⟩
      intro text htext
      rw [List.nil_append, readWords?_spelling spelling htext, Option.map_map]
      rfl
  | word :: before => by
      cases hword : readWord? word with
      | none =>
          refine ⟨none, ?_⟩
          intro text _
          rcases spelling.exists_words_eq text with ⟨first, more, hwords, -⟩
          exact readWords?_cons_unread hword (by simp [hwords])
      | some read =>
          rcases read with ⟨items, awaits⟩
          cases awaits with
          | none =>
              rcases exists_readWords?_around spelling after before with ⟨around, haround⟩
              refine ⟨around.map fun around => (items ++ around.1, around.2), ?_⟩
              intro text htext
              rw [List.cons_append, readWords?_cons_whole hword, haround text htext]
              simp only [Option.map_map, Function.comp_def, withInstructions_append]
          | some setting =>
              cases before with
              | nil =>
                  -- The setting before has no value, whatever the instructions are.
                  refine ⟨none, ?_⟩
                  intro text _
                  rcases spelling.exists_words_eq text with ⟨first, more, hwords, hoption⟩
                  rw [hwords, List.cons_append, List.nil_append, List.cons_append,
                    readWords?_cons_awaiting hword, if_pos hoption]
                  rfl
              | cons value before =>
                  rcases exists_readWords?_around spelling after before with ⟨around, haround⟩
                  by_cases hoption : startsOption value = true
                  · refine ⟨none, ?_⟩
                    intro text _
                    rw [List.cons_append, List.cons_append, readWords?_cons_awaiting hword,
                      if_pos hoption]
                    rfl
                  · refine ⟨around.map fun around =>
                      (items ++ .given setting value :: around.1, around.2), ?_⟩
                    intro text htext
                    rw [List.cons_append, List.cons_append, readWords?_cons_awaiting hword,
                      if_neg hoption, haround text htext]
                    simp only [Option.map_map, Function.comp_def, withInstructions,
                      List.append_assoc, List.cons_append]

end BinaryMachine.CommandLine
