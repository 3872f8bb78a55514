import BinaryMachine.Proofs.CommandLine.Choices
import BinaryMachine.Proofs.CommandLine.Displays

/-!
# Success and failure

A command line that makes a request ends in one of two ways.  Either everything
asked for is printed and no failure is reported, or nothing is printed but the
failure of loading the program or of building its machine.  All that can fail is
done before anything is printed.
-/

namespace BinaryMachine.CommandLine

/-! ## Everything asked for -/

/-- The text shows the whole run that led to this machine, however it ended. -/
def Shows (text : String) (m : Machine) (outcome : Outcome) : Display → Prop
  | .plain => text = m.tapeText ++ "\n"
  | .debug => readDebug? text = some (reportOf m outcome)
  | .json => History.ofJson? text = some m.history.toList

theorem shows_printRun {m : Machine} (h : m.Logged) (outcome : Outcome) (display : Display) :
    Shows (printRun m outcome display) m outcome display := by
  cases display with
  | plain => rfl
  | debug => exact readDebug?_printRun _ h.sound h.newline_not_mem
  | json => exact History.ofJson?_pretty _

inductive Complete (env : Environment) : Request → String → Prop
  | list : Complete env .list
      "0: Unary Counter\n1: Unary Successor\n2: Unary Addition\n3: Unary Prepend\n"
  | run {source : Source} {bound : Nat} {display : Display} {program : Program} {m : Machine}
      {text : String} (hload : source.load env = .ok program)
      (hm : Machine.ofProgram program = .ok m)
      (hshows : Shows text (m.run bound).1 (m.run bound).2 display) :
      Complete env (.run source bound display) text

/-! ## What can fail -/

inductive FailsWith (env : Environment) : Request → Failure → Prop
  | loading {source : Source} {bound : Nat} {display : Display} {failure : Failure}
      (hload : source.load env = .error failure) :
      FailsWith env (.run source bound display) failure
  | building {source : Source} {bound : Nat} {display : Display} {program : Program}
      {failure : Failure} (hload : source.load env = .ok program)
      (hm : Machine.ofProgram program = .error failure) :
      FailsWith env (.run source bound display) failure

/-- Nothing can fail any more when the machine stands, be it halted or not. -/
theorem Request.output_cases (request : Request) (env : Environment) :
    (∃ text, request.output env = .ok text ∧ Complete env request text) ∨
      ∃ failure, request.output env = .error failure ∧ FailsWith env request failure := by
  cases request with
  | list => exact .inl ⟨_, rfl, .list⟩
  | run source bound display =>
      rw [output_run_eq]
      cases hload : source.load env with
      | error failure => exact .inr ⟨failure, rfl, .loading hload⟩
      | ok program =>
          simp only [bind, Except.bind]
          cases hm : Machine.ofProgram program with
          | error failure => exact .inr ⟨failure, rfl, .building hload hm⟩
          | ok m =>
              have hlogged := (Machine.Built.ofProgram hm).logged.after bound
              have hshows : Shows (printRun (m.run bound).1 (m.run bound).2 display)
                  (m.run bound).1 (m.run bound).2 display := by
                rw [Machine.run_eq]
                exact shows_printRun hlogged _ display
              exact .inl ⟨_, rfl, .run hload hm hshows⟩

/-! ## Reports -/

structure Report.Succeeds (report : Report) (request : Request) (env : Environment) : Prop where
  exitCode : report.exitCode = 0
  failure : report.failure = ""
  output : Complete env request report.output

structure Report.Fails (report : Report) (request : Request) (env : Environment) : Prop where
  exitCode : report.exitCode = 1
  output : report.output = ""
  failure : ∃ failure, FailsWith env request failure ∧
    report.failure = "Error: " ++ failure.message

/-- Whatever the files and the standard input hold, what the words ask for is either
done in full or fails with a report of the cause and nothing else. -/
theorem request_succeeds_or_fails {words : List String} {request : Request}
    (hwords : readRequest? words = some request) (env : Environment) :
    (∃ items, readWords? words = some items ∧ Says items request) ∧
      ∃ report, run? words env = some report ∧
        Xor (report.Succeeds request env) (report.Fails request env) := by
  refine ⟨says_of_readRequest? hwords, .of (request.output env), ?_, ?_⟩
  · rw [run?, hwords, Option.map_some]
  · rcases request.output_cases env with ⟨text, htext, hcomplete⟩ | ⟨failure, hfailure, hfails⟩
    · rw [htext]
      exact .inl ⟨⟨rfl, rfl, hcomplete⟩, fun h => absurd h.exitCode Nat.zero_ne_one⟩
    · rw [hfailure]
      exact .inr ⟨⟨rfl, rfl, failure, hfails, rfl⟩, fun h => absurd h.exitCode Nat.one_ne_zero⟩

/-- A run that is stopped before its first step succeeds; an unknown name does not. -/
theorem stopped_run_succeeds_and_unknown_name_fails :
    (∀ env, ∃ report, run? ["--builtin=Unary Counter", "--max-steps=0"] env = some report ∧
      report.Succeeds (.run (.builtin "Unary Counter") 0 .plain) env) ∧
    ∀ env, ∃ report, run? ["--builtin=Unary", "--json"] env = some report ∧
      report.Fails (.run (.builtin "Unary") 10000 .json) env := by
  constructor
  · intro env
    have hload : (Source.builtin "Unary Counter").load env = .ok Catalogue.unaryCounter := rfl
    obtain ⟨m, hm⟩ :=
      Catalogue.exists_ofProgram Catalogue.unaryCounter (by simp [Catalogue.programs])
    obtain ⟨-, report, hreport, hend⟩ := @request_succeeds_or_fails
      ["--builtin=Unary Counter", "--max-steps=0"] (.run (.builtin "Unary Counter") 0 .plain) rfl
      env
    refine ⟨report, hreport, ?_⟩
    rcases hend with ⟨hsucceeds, -⟩ | ⟨hfails, -⟩
    · exact hsucceeds
    · obtain ⟨failure, hfailure, -⟩ := hfails.failure
      cases hfailure with
      | loading hfailed => cases hload.symm.trans hfailed
      | building hloaded hfailed =>
          cases hload.symm.trans hloaded
          cases hm.symm.trans hfailed
  · intro env
    have hload : (Source.builtin "Unary").load env = .error (.noProgramNamed "Unary") := rfl
    obtain ⟨-, report, hreport, hend⟩ := @request_succeeds_or_fails
      ["--builtin=Unary", "--json"] (.run (.builtin "Unary") 10000 .json) rfl env
    refine ⟨report, hreport, ?_⟩
    rcases hend with ⟨hsucceeds, -⟩ | ⟨hfails, -⟩
    · have hcomplete := hsucceeds.output
      cases hcomplete with
      | run hloaded _ _ => cases hload.symm.trans hloaded
    · exact hfails

end BinaryMachine.CommandLine
