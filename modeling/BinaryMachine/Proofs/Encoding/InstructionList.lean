import Mathlib.Data.List.Forall2
import BinaryMachine.Proofs.Encoding.Grammar
import BinaryMachine.Proofs.Segments.Leftmost
import BinaryMachine.Proofs.TransitionTable.FirstCollision

/-!
# Instruction lists as texts

A list of instructions is written as the texts of its members with a separator
between them.  Reading cuts at the separator and reads every segment for itself,
so it undoes writing as soon as the separator has one character that no
instruction has, and writing undoes reading up to the line ends.  The first
segment that is no instruction is the one that is reported.
-/

namespace BinaryMachine

/-! ## Segments -/

/-- `segments` are what an instruction list is read from: the text cut at the
separator, without the carriage returns at the line ends. -/
def Segmented (text separator : String) (segments : List (List Char)) : Prop :=
  ∃ cuts, SplitsAt separator.toList text.toList cuts ∧
    segments = if separator = "\n" then cuts.map dropCarriageReturn else cuts

theorem segmented_iff {text separator : String} {segments : List (List Char)}
    (hne : separator ≠ "") :
    Segmented text separator segments ↔ instructionSegments text separator = segments := by
  have hne' : separator.toList ≠ [] := by
    simpa using hne
  simp only [Segmented, splitsAt_iff hne', instructionSegments, defaultSeparator]
  constructor
  · rintro ⟨cuts, rfl, rfl⟩
    rfl
  · rintro rfl
    exact ⟨_, rfl, rfl⟩

/-- Everything before `segment` has the form of an instruction, and `segment` has not. -/
def FirstMalformed (segments : List (List Char)) (segment : List Char) : Prop :=
  ∃ before after, segments = before ++ segment :: after ∧
    (∀ s ∈ before, Instruction.Form s) ∧ ¬ Instruction.Form segment

theorem firstMalformed_cons {s segment : List Char} {segments : List (List Char)} :
    FirstMalformed (s :: segments) segment ↔
      (¬ Instruction.Form s ∧ s = segment) ∨
      (Instruction.Form s ∧ FirstMalformed segments segment) := by
  constructor
  · rintro ⟨before, after, hsplit, hbefore, hnot⟩
    cases before with
    | nil =>
        cases hsplit
        exact .inl ⟨hnot, rfl⟩
    | cons first before =>
        cases hsplit
        rw [List.forall_mem_cons] at hbefore
        exact .inr ⟨hbefore.1, before, after, rfl, hbefore.2, hnot⟩
  · rintro (⟨hnot, rfl⟩ | ⟨hform, before, after, rfl, hbefore, hnot⟩)
    · exact ⟨[], segments, rfl, by simp, hnot⟩
    · exact ⟨s :: before, after, rfl, List.forall_mem_cons.2 ⟨hform, hbefore⟩, hnot⟩

/-! ## Reading every segment -/

def readSegments (segments : List (List Char)) : Except Failure (List Instruction) :=
  segments.mapM fun segment => Instruction.parse (String.ofList segment)

theorem readSegments_cons (s : List Char) (segments : List (List Char)) :
    readSegments (s :: segments) =
      match Instruction.parse (String.ofList s), readSegments segments with
      | .ok i, .ok members => .ok (i :: members)
      | .ok _, .error failure => .error failure
      | .error failure, _ => .error failure := by
  rw [readSegments, List.mapM_cons, ← readSegments]
  cases Instruction.parse (String.ofList s) with
  | error failure => rfl
  | ok i => cases readSegments segments <;> rfl

theorem readSegments_eq_ok_iff {segments : List (List Char)} {members : List Instruction} :
    readSegments segments = .ok members ↔ segments = members.map Instruction.chars := by
  induction segments generalizing members with
  | nil =>
      rw [eq_comm (a := ([] : List (List Char))), List.map_eq_nil_iff]
      simp [readSegments, pure, Except.pure, eq_comm]
  | cons s segments ih =>
      rw [readSegments_cons]
      constructor
      · intro h
        cases hs : Instruction.parse (String.ofList s) with
        | error failure => simp [hs] at h
        | ok i =>
            cases hrest : readSegments segments with
            | error failure => simp [hs, hrest] at h
            | ok rest =>
                simp only [hs, hrest, Except.ok.injEq] at h
                subst h
                rw [List.map_cons, Instruction.parse_ofList_eq_ok_iff.1 hs, ih.1 hrest]
      · intro h
        cases members with
        | nil => cases h
        | cons i members =>
            rw [List.map_cons, List.cons.injEq] at h
            rw [Instruction.parse_ofList_eq_ok_iff.2 h.1, ih.2 h.2]

theorem readSegments_eq_error_iff {segments : List (List Char)} {failure : Failure} :
    readSegments segments = .error failure ↔
      ∃ segment, FirstMalformed segments segment ∧
        failure = .malformedInstruction (String.ofList segment) := by
  induction segments with
  | nil => simp [readSegments, FirstMalformed, pure, Except.pure]
  | cons s segments ih =>
      simp only [readSegments_cons, firstMalformed_cons]
      cases hs : Instruction.parse (String.ofList s) with
      | error other =>
          obtain ⟨hnot, rfl⟩ := Instruction.parse_ofList_eq_error_iff.1 hs
          simp [hnot, eq_comm]
      | ok i =>
          have hform : Instruction.Form s :=
            Instruction.form_iff.2 ⟨i, Instruction.parse_ofList_eq_ok_iff.1 hs⟩
          cases hrest : readSegments segments <;> simp_all

theorem parseInstructions_of_ne {text separator : String} (hne : separator ≠ "") :
    parseInstructions text separator = readSegments (instructionSegments text separator) :=
  if_neg hne

theorem parseInstructions_eq_ok_iff {text separator : String} (hne : separator ≠ "")
    {members : List Instruction} :
    parseInstructions text separator = .ok members ↔
      Segmented text separator (members.map Instruction.chars) := by
  rw [parseInstructions_of_ne hne, readSegments_eq_ok_iff, segmented_iff hne]

theorem parseInstructions_eq_error_iff {text separator : String} (hne : separator ≠ "")
    {failure : Failure} :
    parseInstructions text separator = .error failure ↔
      ∃ segment, FirstMalformed (instructionSegments text separator) segment ∧
        failure = .malformedInstruction (String.ofList segment) := by
  rw [parseInstructions_of_ne hne, readSegments_eq_error_iff]

/-! ## Lists on one text -/

theorem toList_join (separator : String) (members : List Instruction) :
    (separator.intercalate (members.map Instruction.text)).toList =
      separator.toList.intercalate (members.map Instruction.chars) := by
  rw [String.toList_intercalate, List.map_map]
  congr 2
  funext i
  exact String.toList_ofList

theorem SplitsAt.intercalate_eq {separator s : List Char} {segments : List (List Char)}
    (hne : separator ≠ []) (h : SplitsAt separator s segments) :
    segments ≠ [] ∧ separator.intercalate segments = s := by
  obtain rfl := (splitsAt_iff hne).1 h
  exact ⟨cutAt_ne_nil separator s, intercalate_cutAt separator s⟩

theorem join_of_segmented {text separator : String} {members : List Instruction}
    (hne : separator ≠ "") (hline : separator ≠ "\n")
    (h : Segmented text separator (members.map Instruction.chars)) :
    members ≠ [] ∧ separator.intercalate (members.map Instruction.text) = text := by
  obtain ⟨cuts, hsplits, hcuts⟩ := h
  rw [if_neg hline] at hcuts
  subst hcuts
  obtain ⟨hnil, hjoin⟩ := hsplits.intercalate_eq (by simpa using hne)
  refine ⟨by simpa using hnil, ?_⟩
  rw [← String.toList_inj, toList_join, hjoin]

theorem dropCarriageReturn_chars (i : Instruction) : dropCarriageReturn i.chars = i.chars := by
  apply if_neg
  intro hlast
  have := i.isTextChar_of_mem _ (List.mem_of_getLast? hlast)
  contradiction

theorem segmented_join {separator : String} {members : List Instruction} (hnil : members ≠ [])
    (hforeign : ∃ c ∈ separator.toList, Instruction.isTextChar c = false) :
    Segmented (separator.intercalate (members.map Instruction.text)) separator
      (members.map Instruction.chars) := by
  refine ⟨members.map Instruction.chars, ?_, ?_⟩
  · rw [toList_join]
    apply splitsAt_intercalate hforeign (by simpa using hnil)
    intro segment hsegment
    obtain ⟨i, -, rfl⟩ := List.mem_map.1 hsegment
    exact i.isTextChar_of_mem
  · rw [List.map_map]
    split
    · exact List.map_congr_left fun i _ => (dropCarriageReturn_chars i).symm
    · rfl

/-! ## Lists on lines -/

/-- The line of an instruction, with or without a carriage return at its end. -/
def Instruction.OnLine (i : Instruction) (line : String) : Prop :=
  line = i.text ∨ line = i.text ++ "\r"

theorem onLine_ofList_iff {i : Instruction} {cut : List Char} :
    i.OnLine (String.ofList cut) ↔ cut = i.chars ∨ cut = i.chars ++ ['\r'] := by
  have hreturn : i.text ++ "\r" = String.ofList (i.chars ++ ['\r']) :=
    String.ofList_append.symm
  rw [Instruction.OnLine, hreturn, Instruction.text, String.ofList_inj, String.ofList_inj]

theorem chars_eq_dropCarriageReturn_iff {i : Instruction} {cut : List Char} :
    i.chars = dropCarriageReturn cut ↔ cut = i.chars ∨ cut = i.chars ++ ['\r'] := by
  constructor
  · intro h
    by_cases hlast : cut.getLast? = some '\r'
    · rw [dropCarriageReturn, if_pos hlast] at h
      obtain ⟨start, rfl⟩ := List.getLast?_eq_some_iff.1 hlast
      rw [List.dropLast_concat] at h
      exact .inr (by rw [h])
    · rw [dropCarriageReturn, if_neg hlast] at h
      exact .inl h.symm
  · rintro (rfl | rfl)
    · exact (dropCarriageReturn_chars i).symm
    · simp [dropCarriageReturn]

theorem map_chars_eq_iff {members : List Instruction} {cuts : List (List Char)} :
    members.map Instruction.chars = cuts.map dropCarriageReturn ↔
      List.Forall₂ Instruction.OnLine members (cuts.map String.ofList) := by
  rw [← List.forall₂_eq_eq_eq, List.forall₂_map_left_iff, List.forall₂_map_right_iff,
    List.forall₂_map_right_iff]
  simp only [chars_eq_dropCarriageReturn_iff, onLine_ofList_iff]

theorem ne_newline_of_map_chars_eq {members : List Instruction} {cuts : List (List Char)}
    (h : members.map Instruction.chars = cuts.map dropCarriageReturn) :
    ∀ cut ∈ cuts, ∀ c ∈ cut, (c != '\n') = true := by
  intro cut hcut c hc
  have hmem : dropCarriageReturn cut ∈ members.map Instruction.chars := by
    rw [h]
    exact List.mem_map_of_mem hcut
  obtain ⟨i, -, hi⟩ := List.mem_map.1 hmem
  rw [bne_iff_ne]
  rintro rfl
  have hchars : '\n' ∈ i.chars := by
    rcases chars_eq_dropCarriageReturn_iff.1 hi with rfl | rfl
    · exact hc
    · simpa using hc
  have := i.isTextChar_of_mem _ hchars
  contradiction

theorem segmented_lines_iff {text : String} {members : List Instruction} :
    Segmented text "\n" (members.map Instruction.chars) ↔
      members ≠ [] ∧ ∃ lines, List.Forall₂ Instruction.OnLine members lines ∧
        text = "\n".intercalate lines := by
  have htoList : ∀ cuts : List (List Char),
      ("\n".intercalate (cuts.map String.ofList)).toList = ['\n'].intercalate cuts := by
    intro cuts
    rw [String.toList_intercalate, List.map_map]
    congr 1
    exact (List.map_congr_left fun cut _ => String.toList_ofList).trans (List.map_id cuts)
  constructor
  · rintro ⟨cuts, hsplits, hcuts⟩
    rw [if_pos rfl] at hcuts
    obtain ⟨hnil, hjoin⟩ := hsplits.intercalate_eq (by simp)
    refine ⟨?_, cuts.map String.ofList, map_chars_eq_iff.1 hcuts, ?_⟩
    · rintro rfl
      exact hnil (List.map_eq_nil_iff.1 hcuts.symm)
    · rw [← String.toList_inj, htoList]
      exact hjoin.symm
  · rintro ⟨hnil, lines, hlines, rfl⟩
    obtain ⟨cuts, rfl⟩ : ∃ cuts : List (List Char), lines = cuts.map String.ofList :=
      ⟨lines.map String.toList, by simp⟩
    have hcuts := map_chars_eq_iff.2 hlines
    refine ⟨cuts, ?_, by rw [if_pos rfl, hcuts]⟩
    rw [htoList]
    apply splitsAt_intercalate ⟨'\n', by simp, by simp⟩ ?_ (ne_newline_of_map_chars_eq hcuts)
    rintro rfl
    exact hnil (List.map_eq_nil_iff.1 hcuts)

/-! ## Reading and writing -/

theorem parse_text_of_ofList {members : List Instruction} {table : TransitionTable}
    (hnil : members ≠ []) (htable : TransitionTable.ofList members = .ok table) :
    TransitionTable.parse table.text defaultSeparator = .ok table := by
  have hread : parseInstructions table.text defaultSeparator = .ok members := by
    rw [TransitionTable.text, (TransitionTable.ofList_eq_ok htable).1]
    exact (parseInstructions_eq_ok_iff (by decide)).2
      (segmented_join hnil ⟨'\n', by decide, by decide⟩)
  rw [TransitionTable.parse, hread]
  exact htable

theorem instructionList_text_inverse :
    (∀ (text separator : String) (members : List Instruction),
      separator ≠ "" → separator ≠ "\n" → parseInstructions text separator = .ok members →
      members ≠ [] ∧ separator.intercalate (members.map Instruction.text) = text) ∧
    (∀ (text : String) (members : List Instruction),
      parseInstructions text "\n" = .ok members ↔
        members ≠ [] ∧ ∃ lines, List.Forall₂ Instruction.OnLine members lines ∧
          text = "\n".intercalate lines) ∧
    (∀ (separator : String) (members : List Instruction), members ≠ [] →
      (∃ c ∈ separator.toList, ¬ (c.isDigit = true ∨ c = ',' ∨ c = 'L' ∨ c = 'R')) →
      parseInstructions (separator.intercalate (members.map Instruction.text)) separator =
        .ok members) ∧
    (∀ (members : List Instruction) (table : TransitionTable), members ≠ [] →
      TransitionTable.ofList members = .ok table →
      TransitionTable.parse table.text defaultSeparator = .ok table) ∧
    ∀ (text separator : String) (failure : Failure), separator ≠ "" →
      parseInstructions text separator = .error failure →
      ∃ segments segment, Segmented text separator segments ∧
        FirstMalformed segments segment ∧
        failure = .malformedInstruction (String.ofList segment) := by
  refine ⟨?_, ?_, ?_, ?_, ?_⟩
  · intro text separator members hne hline hread
    exact join_of_segmented hne hline ((parseInstructions_eq_ok_iff hne).1 hread)
  · intro text members
    rw [parseInstructions_eq_ok_iff (by decide), segmented_lines_iff]
  · rintro separator members hnil ⟨c, hc, hforeign⟩
    have hne : separator ≠ "" := by
      rintro rfl
      simp at hc
    have hchar : Instruction.isTextChar c = false := by
      simpa [Instruction.isTextChar, and_assoc] using hforeign
    exact (parseInstructions_eq_ok_iff hne).2 (segmented_join hnil ⟨c, hc, hchar⟩)
  · intro members table hnil htable
    exact parse_text_of_ofList hnil htable
  · intro text separator failure hne hread
    obtain ⟨segment, hfirst, hfailure⟩ := (parseInstructions_eq_error_iff hne).1 hread
    exact ⟨_, segment, (segmented_iff hne).2 rfl, hfirst, hfailure⟩

end BinaryMachine
