import BinaryMachine.Proofs.CommandLine.Displays
import BinaryMachine.Proofs.Machine.Course

/-!
# The mark under the head

In a debug report the second line of a block has one mark, and the head stands on a
symbol of the text in the first line.  The first line begins with the number of the
block and the second with blanks that make room for it.  There is room for four digits,
so the mark stands under the head as long as the number has no more.
-/

namespace BinaryMachine.CommandLine

/-! ## Columns -/

/-- The column in which the text of a block begins. -/
def tapeColumn (number : Nat) : Nat :=
  max 4 (toString number).length + 2

theorem length_padLeft (width : Nat) (text : String) :
    (padLeft width text).length = max width text.length := by
  rw [padLeft, String.length_append, String.length_ofList, List.length_replicate]
  omega

theorem tapeColumn_eq_six_iff {number : Nat} : tapeColumn number = 6 ↔ number < 10000 := by
  have hdigits : (toString number).length ≤ 4 ↔ number < 10 ^ 4 :=
    Nat.length_repr_le_iff (by decide)
  rw [tapeColumn]
  omega

/-- Two lines that show a snapshot under its number: the text from its column on with
the symbol under the head in it, and the only mark. -/
structure ShowsEntry (number : Nat) (e : Snapshot) (first second : List Char) : Prop where
  tape : (first.drop (tapeColumn number)).take e.tape.length = e.tape.toList
  head : ∃ c, e.tape.toList[e.headIndex]? = some c ∧
    first[tapeColumn number + e.headIndex]? = some c
  count : second.count '^' = 1
  mark : second.idxOf '^' = 6 + e.headIndex

theorem showsEntry (number : Nat) {e : Snapshot} (h : e.Sound) :
    ShowsEntry number e (numberLine number e) (markLine e) := by
  have hfront : numberLine number e =
      ((padLeft 4 (toString number)).toList ++ ['.', ' ']) ++ (e.tape.toList ++ ' ' :: ' ' ::
        (e.instruction.map Instruction.chars).getD []) := by
    simp [numberLine]
  have hcolumn : ((padLeft 4 (toString number)).toList ++ ['.', ' ']).length =
      tapeColumn number := by
    rw [List.length_append, String.length_toList, length_padLeft]
    rfl
  have hindex : e.headIndex < e.tape.toList.length := by
    rw [String.length_toList]
    exact h.headIndex_lt
  have hmark : markLine e = List.replicate (6 + e.headIndex) ' ' ++ ['^'] := by
    rw [markLine, ← List.append_assoc, List.replicate_append_replicate]
  constructor
  case tape =>
    rw [hfront, List.drop_left' hcolumn, List.take_left' String.length_toList]
  case head =>
    refine ⟨e.tape.toList[e.headIndex], List.getElem?_eq_getElem hindex, ?_⟩
    rw [hfront, List.getElem?_append_right (by omega), hcolumn, Nat.add_sub_cancel_left,
      List.getElem?_append_left hindex, List.getElem?_eq_getElem hindex]
  case count =>
    rw [hmark, List.count_append, List.count_replicate]
    rfl
  case mark =>
    rw [hmark, List.idxOf_append_of_notMem (by simp)]
    simp

/-! ## Blocks of a report -/

theorem getElem?_historyLines (snapshots : List Snapshot) :
    ∀ (k number : Nat) (e : Snapshot), snapshots[k]? = some e →
      (historyLines number snapshots)[2 * k]? = some (numberLine (number + k) e) ∧
      (historyLines number snapshots)[2 * k + 1]? = some (markLine e) := by
  induction snapshots with
  | nil => exact fun _ _ _ => nofun
  | cons first snapshots ih =>
      intro k number e he
      cases k with
      | zero =>
          cases he
          exact ⟨rfl, rfl⟩
      | succ k =>
          have hrest := ih k (number + 1) e he
          rw [Nat.add_right_comm] at hrest
          exact hrest

/-- Every snapshot of the history has its two lines. -/
theorem getElem?_linesOf {m : Machine} (h : m.Logged) (outcome : Outcome) {k : Nat} {e : Snapshot}
    (he : m.history.get? k = some e) :
    (linesOf (printRun m outcome .debug))[2 * k]? = some (numberLine k e) ∧
      (linesOf (printRun m outcome .debug))[2 * k + 1]? = some (markLine e) := by
  have hblocks := getElem?_historyLines m.history.toList k 0 e he
  rw [Nat.zero_add] at hblocks
  have hkept : ∀ {i : Nat} {line : List Char},
      (historyLines 0 m.history.toList)[i]? = some line →
        (linesOf (printRun m outcome .debug))[i]? = some line := by
    intro i line hline
    rw [linesOf_printRun_debug outcome h.sound h.newline_not_mem, debugLines, List.append_assoc]
    exact (List.getElem?_append_left (List.getElem?_eq_some_iff.1 hline).1).trans hline
  exact ⟨hkept hblocks.1, hkept hblocks.2⟩

/-- Every snapshot of the run has its block, with one mark in it.  The mark stands in the
column of the symbol under the head if the number of the block is less than 10000, and
otherwise it does not. -/
theorem debug_marks_head_up_to_four_digits {words : List String} {source : Source} {bound : Nat}
    (hwords : readRequest? words = some (.run source bound .debug)) {env : Environment}
    {program : Program} (hload : source.load env = .ok program) {m : Machine}
    (hm : Machine.ofProgram program = .ok m) :
    ∃ text, run? words env = some ⟨0, text, ""⟩ ∧
      ∀ k e, (m.run bound).1.history.get? k = some e →
        ∃ first second, (linesOf text)[2 * k]? = some first ∧
          (linesOf text)[2 * k + 1]? = some second ∧ ShowsEntry k e first second ∧
          (second.idxOf '^' = tapeColumn k + e.headIndex ↔ k < 10000) := by
  have hlogged : (m.after bound).Logged := (Machine.Built.ofProgram hm).logged.after bound
  refine ⟨_, run?_eq_of_ok hwords hload hm, ?_⟩
  intro k e he
  rw [Machine.run_fst_eq_after] at he
  rcases getElem?_linesOf hlogged (m.after bound).report he with ⟨hfirst, hsecond⟩
  have hshows : ShowsEntry k e (numberLine k e) (markLine e) :=
    showsEntry k (hlogged.sound e (List.mem_of_getElem? he))
  refine ⟨_, _, hfirst, hsecond, hshows, ?_⟩
  rw [hshows.mark, ← tapeColumn_eq_six_iff]
  omega

/-- All blocks of a run that halts on its own. -/
theorem debug_marks_head_of_unary_prepend :
    ∃ m, Machine.ofProgram Catalogue.unaryPrepend = .ok m ∧
      ∀ env, ∃ text, run? ["--builtin=Unary Prepend", "--debug"] env = some ⟨0, text, ""⟩ ∧
        ∀ k e, (m.run 10000).1.history.get? k = some e →
          ∃ first second, (linesOf text)[2 * k]? = some first ∧
            (linesOf text)[2 * k + 1]? = some second ∧ ShowsEntry k e first second ∧
            (second.idxOf '^' = tapeColumn k + e.headIndex ↔ k < 10000) := by
  rcases Catalogue.exists_ofProgram Catalogue.unaryPrepend (by simp [Catalogue.programs]) with
    ⟨m, hm⟩
  refine ⟨m, hm, fun env => ?_⟩
  have hload : (Source.builtin "Unary Prepend").load env = .ok Catalogue.unaryPrepend := rfl
  exact debug_marks_head_up_to_four_digits rfl hload hm

/-- One instruction that writes what is there and goes on for ever. -/
def idleProgram : Program where
  name := "command line"
  tape := ""
  instructions := "0,0,0,0"
  initialId := .ofNat 0
  separator := "\n"

theorem exists_idle :
    ∃ m, Machine.ofProgram idleProgram = .ok m ∧ ∀ n, m.RunsFor n "0" 0 := by
  have hmembers : parseInstructions idleProgram.instructions idleProgram.separator =
      .ok [⟨.ofNat 0, .zero, .write .zero, .ofNat 0⟩] := rfl
  rcases @Machine.exists_at_of_parse idleProgram _ [] rfl hmembers (by decide) (by decide) with
    ⟨m, hm, htable, hsteps, hat⟩
  have hlookup : m.table.find? idleProgram.initialId (Strip.before [] []).here =
      some ⟨.ofNat 0, .zero, .write .zero, .ofNat 0⟩ :=
    TransitionTable.find?_eq_some_iff.2 ⟨by simp [htable], rfl, rfl⟩
  refine ⟨m, hm, fun n => ?_⟩
  have hcourse : Course m.table.find? idleProgram.initialId (.before [] []) n
      idleProgram.initialId (.before [] []) := .idle hlookup rfl rfl n
  exact hat.runsFor hsteps hcourse (by simp [hlookup])

/-- After as many steps as are made by default, the last mark stands beside the head. -/
theorem mark_of_block_10000_is_aside :
    ∃ m e, Machine.ofProgram idleProgram = .ok m ∧
      (m.run 10000).1.history.get? 10000 = some e ∧ e.tape = "0" ∧ e.headIndex = 0 ∧
      ∀ env, ∃ text instruction,
        run? ["--instructions", "0,0,0,0", "--initial", "0", "--debug"] env =
          some ⟨0, text, ""⟩ ∧
        (linesOf text)[20000]? = some ("10000. 0  ".toList ++ instruction) ∧
        (linesOf text)[20001]? = some "      ^".toList := by
  rcases exists_idle with ⟨m, hm, hruns⟩
  have hbuilt : m.Built := .ofProgram hm
  have hrun := hruns 10000
  have hafter := Machine.run_fst_eq_after 10000 m
  have hrunning : (m.after 10000).status = .running := by
    rw [← hafter]
    exact hrun.running
  rcases hbuilt.exists_get?_of_running hrunning with ⟨e, he, htape, hindex⟩
  have htape : e.tape = "0" := by
    rw [htape, ← hafter, hrun.tapeText_eq]
  have hindex : e.headIndex = 0 := by
    rw [hindex, ← hafter, hrun.headIndex_eq]
  have hlines := getElem?_linesOf (hbuilt.logged.after 10000) (m.after 10000).report he
  rw [numberLine, markLine, htape, hindex] at hlines
  refine ⟨m, e, hm, by rw [hafter, he], htape, hindex, ?_⟩
  intro env
  have hload : (Source.inline idleProgram).load env = .ok idleProgram := rfl
  exact ⟨_, _, @run?_eq_of_ok _ _ 10000 .debug rfl _ _ hload _ hm, hlines.1, hlines.2⟩

end BinaryMachine.CommandLine
