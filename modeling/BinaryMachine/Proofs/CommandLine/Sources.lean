import BinaryMachine.Proofs.CommandLine.Words
import BinaryMachine.Proofs.Json.RoundTrip

/-!
# One program from several sources

A program may be named by its file, be given on standard input or be spelled out
on the command line.  A text is checked when it is loaded, and what is spelled out
is checked when the machine is built; both checks are the same construction.  So
every source leads to the same run and to the same failure.  Only the way without
any source can come to nothing: an empty command line makes no request.
-/

namespace BinaryMachine

/-- A text that is read as a program is refused for the same failure, be it by
loading it or by building the machine. -/
theorem Program.load_bind_ofProgram {text : String} {program : Program}
    (hsize : text.utf8ByteSize ≤ 65536) (hjson : ofJson text = .ok program) :
    (load text >>= Machine.ofProgram) = Machine.ofProgram program := by
  have hnot : ¬ programSizeLimit < text.utf8ByteSize := Nat.not_lt.2 hsize
  rw [load, if_neg hnot, hjson]
  cases hmachine : Machine.ofProgram program with
  | error failure => simp [hmachine, bind, Except.bind]
  | ok m => simp [hmachine, bind, Except.bind]

namespace CommandLine

/-! ## Ways to name a program -/

/-- The settings that spell a program out. -/
def inlineItems (program : Program) : List Item :=
  [.given .instructions program.instructions, .given .initial program.initialId.text,
    .given .tape program.tape, .given .separator program.separator]

/-- What becomes of a program's name on the command line. -/
def unnamed (program : Program) : Program :=
  { program with name := "command line" }

theorem names_file (path : String) : Names [.given .program path] (.file path) where
  aside := by simp [Item.isAside]
  options := ⟨_, rfl, rfl, rfl, rfl⟩

theorem names_input : Names [.on .stdin] .input where
  aside := by simp [Item.isAside]
  options := ⟨_, rfl, rfl, rfl, rfl⟩

theorem names_nothing : Names [] .unnamed where
  aside := by simp
  options := ⟨_, rfl, rfl, rfl, rfl⟩

theorem names_inline (program : Program) :
    Names (inlineItems program) (.inline (unnamed program)) where
  aside := by simp [inlineItems, Item.isAside]
  options := by
    refine ⟨⟨none, none, some program.tape, some program.instructions, some program.initialId,
      some program.separator, none, false, false, false, false⟩, ?_, rfl, rfl, rfl⟩
    rw [ofItems?_eq_some_iff]
    refine ⟨rfl, rfl, rfl, rfl, ?_, rfl, rfl, rfl, rfl, rfl, rfl⟩
    exact congrArg (Option.map some) program.initialId.ofText?_text

/-! ## One report -/

/-- What is reported on a run of this program. -/
def reportOn (program : Program) (bound : Option Nat) (display : Display) : Report :=
  .of ((Machine.ofProgram program).map fun m =>
    printRun (m.run (bound.getD defaultBound)).1 (m.run (bound.getD defaultBound)).2 display)

theorem Names.run?_eq {items : List Item} {source : Source} (h : Names items source)
    {program : Program} {env : Environment}
    (hload : (source.load env >>= Machine.ofProgram) = Machine.ofProgram program)
    {bound : Option Nat} (hbound : ∀ n ∈ bound, n < UInt64.size) (display : Display)
    (hne : items ++ runItems bound display ≠ []) :
    run? (commandLine items bound display) env = some (reportOn program bound display) := by
  rw [run?, h.readRequest?_eq hbound display hne, Option.map_some, output_run_eq, hload, reportOn]

/-- A file, standard input, a pipe and the command line itself lead to one report
on one program, except that nothing is reported on an empty command line. -/
theorem sources_agree {text : String} {program : Program}
    (hsize : text.utf8ByteSize ≤ 65536) (hjson : Program.ofJson text = .ok program)
    {bound : Option Nat} (hbound : ∀ n ∈ bound, n < UInt64.size) (display : Display) :
    ∃ report : Report,
      (∀ path env, env.readFile path = .ok text →
        run? (commandLine [.given .program path] bound display) env = some report) ∧
      (∀ env, env.input = .ok text →
        run? (commandLine [.on .stdin] bound display) env = some report) ∧
      (∀ env, run? (commandLine (inlineItems program) bound display) env = some report) ∧
      ∀ env, env.input = .ok text → env.inputIsTerminal = false →
        run? (commandLine [] bound display) env =
          if bound = none ∧ display = .plain then none else some report := by
  have hload := Program.load_bind_ofProgram hsize hjson
  refine ⟨reportOn program bound display, ?_, ?_, ?_, ?_⟩
  · intro path env hfile
    apply (names_file path).run?_eq ?_ hbound display (by simp)
    rw [Source.load, hfile]
    exact hload
  · intro env hinput
    apply names_input.run?_eq ?_ hbound display (by simp)
    rw [Source.load, Environment.loadInput, hinput]
    exact hload
  · intro env
    exact (names_inline program).run?_eq rfl hbound display (by simp [inlineItems])
  · intro env hinput hpiped
    by_cases hempty : bound = none ∧ display = .plain
    · obtain ⟨rfl, rfl⟩ := hempty
      rfl
    · rw [if_neg hempty]
      apply names_nothing.run?_eq ?_ hbound display ?_
      · rw [Source.load, hpiped]
        simp only [Bool.false_eq_true, if_false, Environment.loadInput, hinput]
        exact hload
      · cases bound <;> cases display <;> simp_all [runItems, Display.switch?]

/-- A built-in program in debug form, from all four sources. -/
theorem sources_agree_on_unary_prepend :
    ∃ report : Report,
      (∀ env, env.readFile "p.json" = .ok Catalogue.unaryPrepend.toJson →
        run? ["--program=p.json", "--max-steps=7", "--debug"] env = some report) ∧
      (∀ env, env.input = .ok Catalogue.unaryPrepend.toJson →
        run? ["--stdin", "--max-steps=7", "--debug"] env = some report) ∧
      (∀ env, run? ["--instructions=0,1,L,0;0,0,1,1", "--initial=0", "--tape=11", "--separator=;",
        "--max-steps=7", "--debug"] env = some report) ∧
      ∀ env, env.input = .ok Catalogue.unaryPrepend.toJson → env.inputIsTerminal = false →
        run? ["--max-steps=7", "--debug"] env = some report := by
  have hbound : ∀ n ∈ some 7, n < UInt64.size := by
    decide
  obtain ⟨report, hfile, hinput, hinline, hpiped⟩ :=
    @sources_agree Catalogue.unaryPrepend.toJson _ (by decide) (Program.ofJson_toJson _) _
      hbound .debug
  exact ⟨report, hfile "p.json", hinput, hinline, hpiped⟩

/-- With standard input alone there is no word to read, and the program is not looked at. -/
theorem empty_command_line_ignores_piped_program :
    let env : Environment :=
      ⟨fun _ => .error .notFound, .ok Catalogue.unaryPrepend.toJson, false⟩
    Program.ofJson Catalogue.unaryPrepend.toJson = .ok Catalogue.unaryPrepend ∧
      Catalogue.unaryPrepend.toJson.utf8ByteSize ≤ 65536 ∧
      (run? ["--stdin"] env).isSome = true ∧ run? [] env = none :=
  ⟨Program.ofJson_toJson _, by decide, rfl, rfl⟩

end CommandLine

end BinaryMachine
