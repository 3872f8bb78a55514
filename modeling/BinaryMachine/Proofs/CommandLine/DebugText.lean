import Mathlib.Data.List.Basic
import BinaryMachine.CommandLine.Run
import BinaryMachine.Proofs.Machine.Log
import BinaryMachine.Proofs.Segments.Leftmost
import BinaryMachine.Proofs.StateId.Value

/-!
# Reading a debug report

A debug report is read line by line.  Two lines make a block: the number of the
block with the text and the instruction, and below it the mark under the head.
The blocks are numbered from zero on without gaps, and an empty line ends them.
Then come how the run ended, after how many steps, and the text that it left.
-/

namespace BinaryMachine.CommandLine

/-! ## Reading -/

/-- What can be read in a debug report. -/
structure DebugReport where
  snapshots : List Snapshot
  outcome : Outcome
  steps : Nat
  finalTape : String
  deriving DecidableEq, Repr

def linesOf (text : String) : List (List Char) :=
  cutAt ['\n'] text.toList

/-- An instruction, or nothing where none was executed. -/
def readInstruction? (s : List Char) : Option (Option Instruction) :=
  if s = [] then some none else (Instruction.ofChars? s).map some

/-- The number of a block, a dot, the text and behind two blanks the instruction. -/
def readNumberLine? (line : List Char) : Option (Nat × String × Option Instruction) :=
  let line := line.dropWhile (· == ' ')
  match line.dropWhile Char.isDigit with
  | '.' :: ' ' :: rest =>
      match rest.dropWhile (· != ' ') with
      | ' ' :: ' ' :: instruction => do
          return (← StateId.numeral? (String.ofList (line.takeWhile Char.isDigit)),
            String.ofList (rest.takeWhile (· != ' ')), ← readInstruction? instruction)
      | _ => none
  | _ => none

/-- How far the mark stands from the column in which the texts begin. -/
def readMarkLine? (line : List Char) : Option Nat :=
  match line.dropPrefix? (List.replicate 6 ' ') with
  | some rest =>
      if rest.dropWhile (· == ' ') = ['^'] then some (rest.takeWhile (· == ' ')).length else none
  | none => none

/-- The blocks with the numbers from `number` on, and the lines behind them. -/
def readBlocks? (number : Nat) : List (List Char) → Option (List Snapshot × List (List Char))
  | [] :: rest => some ([], [] :: rest)
  | numberLine :: markLine :: rest => do
      let (found, tape, instruction) ← readNumberLine? numberLine
      let headIndex ← readMarkLine? markLine
      if found = number then
        let (snapshots, rest) ← readBlocks? (number + 1) rest
        return (⟨tape, instruction, headIndex⟩ :: snapshots, rest)
      else
        none
  | _ => none

/-- The number between these words. -/
def readBetween? (before after line : List Char) : Option Nat := do
  let rest ← line.dropPrefix? before
  StateId.numeral? (String.ofList (← rest.dropSuffix? after))

def readSummary? (line : List Char) : Option (Outcome × Nat) :=
  match readBetween? "Machine halted after ".toList " steps.".toList line with
  | some steps => some (.halt, steps)
  | none =>
      (readBetween? "Machine still running after ".toList " steps.".toList line).map
        fun steps => (.proceed, steps)

/-- The text ends with a line end, so that the last line is the one before it. -/
def readDebug? (text : String) : Option DebugReport := do
  match ← readBlocks? 0 (linesOf text) with
  | (snapshots, [[], summary, [], title, finalTape, []]) =>
      if title = "Final tape:".toList then
        let (outcome, steps) ← readSummary? summary
        return ⟨snapshots, outcome, steps, String.ofList finalTape⟩
      else
        none
  | _ => none

/-! ## What is printed, in lines -/

theorem cutAt_newline {lines : List (List Char)} (h : ∀ line ∈ lines, '\n' ∉ line) :
    cutAt ['\n'] (lines.flatMap fun line => line ++ ['\n']) = lines ++ [[]] := by
  induction lines with
  | nil => rfl
  | cons line lines ih =>
      rw [List.forall_mem_cons] at h
      have hline : ∀ c ∈ line, (c != '\n') = true := by
        intro c hc
        rw [bne_iff_ne]
        rintro rfl
        exact h.1 hc
      have hleftmost : Leftmost ['\n'] line (lines.flatMap fun line => line ++ ['\n']) :=
        leftmost_of_forall ⟨'\n', by simp, by simp⟩ hline
      rw [List.flatMap_cons, cutAt_of_leftmost (List.cons_ne_nil _ _) hleftmost, ih h.2,
        List.cons_append]

def numberLine (number : Nat) (e : Snapshot) : List Char :=
  (padLeft 4 (toString number)).toList ++ '.' :: ' ' ::
    (e.tape.toList ++ ' ' :: ' ' :: (e.instruction.map Instruction.chars).getD [])

def markLine (e : Snapshot) : List Char :=
  List.replicate 6 ' ' ++ (List.replicate e.headIndex ' ' ++ ['^'])

theorem toList_printSnapshot (number : Nat) {e : Snapshot} (h : e.Sound) :
    (printSnapshot number e).toList = numberLine number e ++ '\n' :: (markLine e ++ ['\n']) := by
  have hinstruction : ((e.instruction.map Instruction.text).getD "").toList =
      (e.instruction.map Instruction.chars).getD [] := by
    cases e.instruction <;> simp [Instruction.text]
  have hmarker : (marker e).toList = List.replicate e.headIndex ' ' ++ ['^'] := by
    simp [marker, h.headIndex_lt]
  simp [printSnapshot, numberLine, markLine, hinstruction, hmarker]

theorem newline_not_mem_digits (id : StateId) : '\n' ∉ id.digits := by
  intro hmem
  exact absurd (id.isDigit_of_mem _ hmem) (by decide)

theorem padLeft_toList (n : Nat) :
    ∃ k, (padLeft 4 (toString n)).toList = List.replicate k ' ' ++ (StateId.ofNat n).digits := by
  refine ⟨4 - (toString n).length, ?_⟩
  rw [padLeft, String.toList_append, String.toList_ofList]
  simp [StateId.ofNat]

theorem newline_not_mem_numberLine (number : Nat) {e : Snapshot} (h : e.Sound) :
    '\n' ∉ numberLine number e := by
  obtain ⟨k, hpad⟩ := padLeft_toList number
  have htape : '\n' ∉ e.tape.toList := by
    intro hmem
    simpa using h.symbols _ hmem
  have hinstruction : '\n' ∉ (e.instruction.map Instruction.chars).getD [] := by
    cases e.instruction with
    | none => simp
    | some i =>
        intro hmem
        exact absurd (i.isTextChar_of_mem _ hmem) (by decide)
  rw [numberLine, hpad]
  simp [newline_not_mem_digits, htape, hinstruction]

theorem newline_not_mem_markLine (e : Snapshot) : '\n' ∉ markLine e := by
  simp [markLine]

/-! ## Reading what was printed -/

theorem readInstruction?_chars (instruction : Option Instruction) :
    readInstruction? ((instruction.map Instruction.chars).getD []) = some instruction := by
  cases instruction with
  | none => rfl
  | some i =>
      have hne : i.chars ≠ [] := by
        simp [Instruction.chars]
      simp [readInstruction?, hne, Instruction.ofChars?_chars]

/-- Behind the blanks in front, an id is found with all its digits. -/
theorem dropWhile_blanks_digits (k : Nat) (id : StateId) (rest : List Char) :
    (List.replicate k ' ' ++ (id.digits ++ rest)).dropWhile (· == ' ') = id.digits ++ rest := by
  have hblank : ∀ c ∈ List.replicate k ' ', (c == ' ') = true := by
    simp
  obtain ⟨c, digits, hdigits⟩ := List.exists_cons_of_ne_nil id.digits_ne_nil
  have hc : c ≠ ' ' := by
    rintro rfl
    exact absurd (id.isDigit_of_mem ' ' (by simp [hdigits])) (by decide)
  rw [List.dropWhile_append_of_pos hblank, hdigits]
  simp [hc]

theorem readNumberLine?_numberLine (number : Nat) {e : Snapshot} (h : e.Sound) :
    readNumberLine? (numberLine number e) = some (number, e.tape, e.instruction) := by
  obtain ⟨k, hpad⟩ := padLeft_toList number
  have hnumber : StateId.numeral? (String.ofList (StateId.ofNat number).digits) = some number := by
    have hread := StateId.numeral?_toString number
    rwa [← StateId.text_ofNat] at hread
  have htape : ∀ c ∈ e.tape.toList, (c != ' ') = true := by
    intro c hc
    rcases h.symbols c hc with rfl | rfl <;> rfl
  have hdot : ∀ c ∈ ('.' :: ' ' :: (e.tape.toList ++ ' ' :: ' ' ::
      (e.instruction.map Instruction.chars).getD [])).head?, c.isDigit = false := by
    simp
  obtain ⟨htake, hdrop⟩ := (StateId.ofNat number).takeWhile_isDigit_append hdot
  rw [readNumberLine?, numberLine, hpad, List.append_assoc, dropWhile_blanks_digits]
  simp only [htake, hdrop, hnumber, List.dropWhile_append_of_pos htape,
    List.takeWhile_append_of_pos htape]
  simp [readInstruction?_chars]

theorem readMarkLine?_markLine (e : Snapshot) : readMarkLine? (markLine e) = some e.headIndex := by
  have hprefix : (markLine e).dropPrefix? (List.replicate 6 ' ') =
      some (List.replicate e.headIndex ' ' ++ ['^']) :=
    List.dropPrefix?_append_of_beq _ (by simp)
  have hblank : ∀ c ∈ List.replicate e.headIndex ' ', (c == ' ') = true := by
    simp
  rw [readMarkLine?, hprefix]
  simp [List.dropWhile_append_of_pos hblank, List.takeWhile_append_of_pos hblank]

theorem readBlocks?_cons (number : Nat) {e : Snapshot} (h : e.Sound)
    (lines : List (List Char)) :
    readBlocks? number (numberLine number e :: markLine e :: lines) =
      (readBlocks? (number + 1) lines).map fun (snapshots, rest) => (e :: snapshots, rest) := by
  have hne : numberLine number e ≠ [] := by
    simp [numberLine]
  rw [readBlocks?]
  · rw [readNumberLine?_numberLine number h, readMarkLine?_markLine]
    cases readBlocks? (number + 1) lines <;> simp
  · exact hne

/-! ## Whole reports -/

def historyLines (number : Nat) : List Snapshot → List (List Char)
  | [] => []
  | e :: snapshots => numberLine number e :: markLine e :: historyLines (number + 1) snapshots

def outcomeWords : Outcome → String
  | .halt => "Machine halted after "
  | .proceed => "Machine still running after "

def summaryLine (outcome : Outcome) (steps : Nat) : List Char :=
  (outcomeWords outcome).toList ++ ((toString steps).toList ++ " steps.".toList)

def debugLines (report : DebugReport) : List (List Char) :=
  historyLines 0 report.snapshots ++
    [[], summaryLine report.outcome report.steps, [], "Final tape:".toList,
      report.finalTape.toList]

theorem readBlocks?_historyLines (rest : List (List Char)) (snapshots : List Snapshot) :
    ∀ number, (∀ e ∈ snapshots, e.Sound) →
      readBlocks? number (historyLines number snapshots ++ [] :: rest) =
        some (snapshots, [] :: rest) := by
  induction snapshots with
  | nil =>
      intro number _
      rfl
  | cons e snapshots ih =>
      intro number h
      rw [List.forall_mem_cons] at h
      rw [historyLines, List.cons_append, List.cons_append, readBlocks?_cons number h.1,
        ih (number + 1) h.2]
      rfl

theorem readBetween?_append (before after : List Char) (n : Nat) :
    readBetween? before after (before ++ ((toString n).toList ++ after)) = some n := by
  have hprefix : (before ++ ((toString n).toList ++ after)).dropPrefix? before =
      some ((toString n).toList ++ after) :=
    List.dropPrefix?_append_of_beq _ (by simp)
  have hsuffix : ((toString n).toList ++ after).dropSuffix? after = some (toString n).toList :=
    List.dropSuffix?_eq_some_iff.2 ⟨after, rfl, by simp⟩
  rw [readBetween?, hprefix, Option.bind_eq_bind, Option.bind_some, hsuffix, Option.bind_some,
    String.ofList_toList, StateId.numeral?_toString]

theorem readSummary?_summaryLine (outcome : Outcome) (steps : Nat) :
    readSummary? (summaryLine outcome steps) = some (outcome, steps) := by
  cases outcome with
  | halt =>
      have hhalt : readBetween? "Machine halted after ".toList " steps.".toList
          (summaryLine .halt steps) = some steps :=
        readBetween?_append _ _ steps
      rw [readSummary?, hhalt]
  | proceed =>
      have hhalt : readBetween? "Machine halted after ".toList " steps.".toList
          (summaryLine .proceed steps) = none := rfl
      have hproceed : readBetween? "Machine still running after ".toList " steps.".toList
          (summaryLine .proceed steps) = some steps :=
        readBetween?_append _ _ steps
      rw [readSummary?, hhalt, hproceed, Option.map_some]

theorem newline_not_mem_historyLines (snapshots : List Snapshot) :
    ∀ number, (∀ e ∈ snapshots, e.Sound) →
      ∀ line ∈ historyLines number snapshots, '\n' ∉ line := by
  induction snapshots with
  | nil => exact fun _ _ => nofun
  | cons e snapshots ih =>
      intro number h
      rw [List.forall_mem_cons] at h
      simp only [historyLines, List.forall_mem_cons]
      exact ⟨newline_not_mem_numberLine number h.1, newline_not_mem_markLine e,
        ih (number + 1) h.2⟩

theorem newline_not_mem_summaryLine (outcome : Outcome) (steps : Nat) :
    '\n' ∉ summaryLine outcome steps := by
  have hsteps : '\n' ∉ (toString steps).toList := by
    rw [← StateId.text_ofNat, StateId.text, String.toList_ofList]
    exact newline_not_mem_digits _
  cases outcome <;> simpa [summaryLine, outcomeWords] using hsteps

theorem newline_not_mem_debugLines {report : DebugReport} (h : ∀ e ∈ report.snapshots, e.Sound)
    (htape : '\n' ∉ report.finalTape.toList) : ∀ line ∈ debugLines report, '\n' ∉ line := by
  simp only [debugLines, List.forall_mem_append, List.forall_mem_cons]
  exact ⟨newline_not_mem_historyLines _ 0 h, by simp, newline_not_mem_summaryLine _ _, by simp,
    by simp, htape, nofun⟩

/-- The blocks from any number on, as a history is printed from zero on. -/
theorem toList_join_printSnapshot (snapshots : List Snapshot) :
    ∀ number, (∀ e ∈ snapshots, e.Sound) →
      (String.join ((snapshots.zipIdx number).map fun (snapshot, number) =>
        printSnapshot number snapshot)).toList =
          (historyLines number snapshots).flatMap fun line => line ++ ['\n'] := by
  induction snapshots with
  | nil =>
      intro number _
      rfl
  | cons e snapshots ih =>
      intro number h
      rw [List.forall_mem_cons] at h
      have hmore := ih (number + 1) h.2
      have hfirst := toList_printSnapshot number h.1
      simp only [String.toList_join] at hmore ⊢
      simp [historyLines, hfirst, hmore]

theorem toList_printHistory {history : History} (h : ∀ e ∈ history.toList, e.Sound) :
    (printHistory history).toList =
      (historyLines 0 history.toList).flatMap fun line => line ++ ['\n'] :=
  toList_join_printSnapshot history.toList 0 h

def reportOf (m : Machine) (outcome : Outcome) : DebugReport :=
  ⟨m.history.toList, outcome, m.steps, m.tapeText⟩

theorem toList_printOutcome (steps : Nat) (outcome : Outcome) :
    (printOutcome steps outcome).toList = '\n' :: (summaryLine outcome steps ++ ['\n']) := by
  -- What the numeral is made of does not matter.
  have hhalt : ∀ numeral : String,
      ("\nMachine halted after " ++ numeral ++ " steps.\n").toList =
        '\n' :: ("Machine halted after ".toList ++ (numeral.toList ++ " steps.".toList) ++
          ['\n']) := by
    simp
  have hproceed : ∀ numeral : String,
      ("\nMachine still running after " ++ numeral ++ " steps.\n").toList =
        '\n' :: ("Machine still running after ".toList ++ (numeral.toList ++ " steps.".toList) ++
          ['\n']) := by
    simp
  cases outcome with
  | halt => exact hhalt (toString steps)
  | proceed => exact hproceed (toString steps)

theorem toList_printRun_debug {m : Machine} (outcome : Outcome)
    (h : ∀ e ∈ m.history.toList, e.Sound) :
    (printRun m outcome .debug).toList =
      (debugLines (reportOf m outcome)).flatMap fun line => line ++ ['\n'] := by
  have htitle : "\nFinal tape:\n".toList = '\n' :: ("Final tape:".toList ++ ['\n']) := rfl
  have hend : "\n".toList = ['\n'] := rfl
  rw [printRun, debugLines, reportOf]
  simp only [String.toList_append, toList_printHistory h, toList_printOutcome, htitle, hend,
    List.flatMap_append, List.flatMap_cons, List.flatMap_nil, List.append_assoc, List.cons_append,
    List.nil_append, List.append_nil]

theorem linesOf_printRun_debug {m : Machine} (outcome : Outcome)
    (h : ∀ e ∈ m.history.toList, e.Sound) (htape : '\n' ∉ m.tapeText.toList) :
    linesOf (printRun m outcome .debug) = debugLines (reportOf m outcome) ++ [[]] := by
  have hnewline : ∀ line ∈ debugLines (reportOf m outcome), '\n' ∉ line :=
    newline_not_mem_debugLines h htape
  rw [linesOf, toList_printRun_debug outcome h, cutAt_newline hnewline]

theorem readDebug?_printRun {m : Machine} (outcome : Outcome)
    (h : ∀ e ∈ m.history.toList, e.Sound) (htape : '\n' ∉ m.tapeText.toList) :
    readDebug? (printRun m outcome .debug) = some (reportOf m outcome) := by
  have hblocks : readBlocks? 0 (linesOf (printRun m outcome .debug)) =
      some (m.history.toList, [[], summaryLine outcome m.steps, [], "Final tape:".toList,
        m.tapeText.toList, []]) := by
    rw [linesOf_printRun_debug outcome h htape, debugLines, List.append_assoc]
    exact readBlocks?_historyLines _ m.history.toList 0 h
  simp only [readDebug?, hblocks, Option.bind_eq_bind, Option.bind_some,
    readSummary?_summaryLine, if_true, String.ofList_toList]
  rfl

end BinaryMachine.CommandLine
