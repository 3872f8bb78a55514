import BinaryMachine.Proofs.CommandLine.DebugText
import BinaryMachine.Proofs.CommandLine.Words
import BinaryMachine.Proofs.Json.HistoryText
import BinaryMachine.Proofs.Machine.Construction

/-!
# One run in three displays

The plain display shows the text that the run leaves, the JSON display the
history, and the debug display both of them with a summary.  The text, the history,
the count of steps and the outcome are kept apart from each other in a machine, but
over a run they fit together, and so do the displays.
-/

namespace BinaryMachine

namespace Machine

variable {m : Machine}

theorem Logged.newline_not_mem (h : m.Logged) : '\n' ∉ m.tapeText.toList := by
  obtain ⟨line, p, htracks⟩ := h.tracks
  intro hmem
  simpa using (htracks.sound none).symbols _ hmem

end Machine

namespace CommandLine

theorem run?_eq_of_ok {words : List String} {source : Source} {bound : Nat} {display : Display}
    (hwords : readRequest? words = some (.run source bound display)) {env : Environment}
    {program : Program} (hload : source.load env = .ok program) {m : Machine}
    (hm : Machine.ofProgram program = .ok m) :
    run? words env = some ⟨0, printRun (m.after bound) (m.after bound).report display, ""⟩ := by
  rw [run?, hwords, Option.map_some, output_run_eq, hload]
  simp [bind, Except.bind, hm, Except.map, Machine.run_eq, Report.of]

/-- Three command lines that differ in the display alone tell of one run.  The history
in JSON is the history of the debug display, the plain text is its last line, and
the summary says how the run ended and after how many steps. -/
theorem displays_describe_one_run {source : Source} {env : Environment} {program : Program}
    (hload : source.load env = .ok program) {m : Machine} (hm : Machine.ofProgram program = .ok m)
    {bound : Nat} {plain debug json : List String}
    (hplain : readRequest? plain = some (.run source bound .plain))
    (hdebug : readRequest? debug = some (.run source bound .debug))
    (hjson : readRequest? json = some (.run source bound .json)) :
    ∃ (debugText jsonText : String) (report : DebugReport),
      run? plain env = some ⟨0, report.finalTape ++ "\n", ""⟩ ∧
      run? debug env = some ⟨0, debugText, ""⟩ ∧ readDebug? debugText = some report ∧
      run? json env = some ⟨0, jsonText, ""⟩ ∧ History.ofJson? jsonText = some report.snapshots ∧
      '\n' ∉ report.finalTape.toList ∧
      report.snapshots.getLast?.map Snapshot.tape = some report.finalTape ∧
      report.steps = (report.snapshots.countP fun e => e.instruction.isSome) ∧
      (report.outcome = .halt ↔ (m.run bound).1.status = .halted) ∧
      (report.outcome = .proceed → report.steps = bound) := by
  have hbuilt : m.Built := .ofProgram hm
  have hlogged : (m.after bound).Logged := hbuilt.logged.after bound
  refine ⟨_, _, reportOf (m.after bound) (m.after bound).report, run?_eq_of_ok hplain hload hm,
    run?_eq_of_ok hdebug hload hm, ?_, run?_eq_of_ok hjson hload hm, ?_,
    hlogged.newline_not_mem, ?_, hlogged.steps_eq, ?_, ?_⟩
  · exact readDebug?_printRun _ hlogged.sound hlogged.newline_not_mem
  · exact History.ofJson?_pretty _
  · rw [reportOf, ← History.last?_eq_getLast?]
    exact hbuilt.last?_tape bound
  · rw [Machine.run_eq]
    exact Machine.report_eq_halt_iff
  · intro hproceed
    exact hbuilt.steps_of_running (Machine.report_eq_proceed_iff.1 hproceed)

theorem displays_describe_a_stopped_run :
    ∃ m, Machine.ofProgram Catalogue.unaryPrepend = .ok m ∧
      ∀ env, ∃ (debugText jsonText : String) (report : DebugReport),
        run? ["--builtin=Unary Prepend", "--max-steps=1"] env =
          some ⟨0, report.finalTape ++ "\n", ""⟩ ∧
        run? ["--builtin=Unary Prepend", "--max-steps=1", "--debug"] env =
          some ⟨0, debugText, ""⟩ ∧ readDebug? debugText = some report ∧
        run? ["--builtin=Unary Prepend", "--max-steps=1", "--json"] env =
          some ⟨0, jsonText, ""⟩ ∧ History.ofJson? jsonText = some report.snapshots ∧
        '\n' ∉ report.finalTape.toList ∧
        report.snapshots.getLast?.map Snapshot.tape = some report.finalTape ∧
        report.steps = (report.snapshots.countP fun e => e.instruction.isSome) ∧
        (report.outcome = .halt ↔ (m.run 1).1.status = .halted) ∧
        (report.outcome = .proceed → report.steps = 1) := by
  obtain ⟨m, hm⟩ := Catalogue.exists_ofProgram Catalogue.unaryPrepend (by simp [Catalogue.programs])
  refine ⟨m, hm, fun env => ?_⟩
  have hload : (Source.builtin "Unary Prepend").load env = .ok Catalogue.unaryPrepend := rfl
  exact displays_describe_one_run hload hm rfl rfl rfl

end CommandLine

end BinaryMachine
