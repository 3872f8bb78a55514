import BinaryMachine.Proofs.Machine.Replay

/-!
# The phases of a run

Between two calls a machine is in one of four phases, told apart by whether it
is halted and whether it has a current instruction.  In each phase the current
instruction, the number of steps and the length of the history fit together, and
every step leads from a phase to a phase.
-/

namespace BinaryMachine

inductive Phase where
  /-- About to execute an instruction. -/
  | poised (i : Instruction)
  /-- Running, but without an instruction to begin with. -/
  | stranded
  /-- Halted behind the instruction that was executed last. -/
  | finished (i : Instruction)
  /-- Halted without having executed anything. -/
  | idle
  deriving DecidableEq, Repr

namespace Machine

def In (m : Machine) : Phase → Prop
  | .poised i =>
      m.status = .running ∧ m.current = some i ∧ i ∈ m.table.members ∧
      m.table.find? i.id (m.head.read m.tape) = some i ∧
      i.condition = m.head.read m.tape ∧ m.history.size = m.steps + 1
  | .stranded =>
      m.status = .running ∧ m.current = none ∧ m.steps = 0 ∧ m.history.size = 1 ∧
      m.table.find? m.initialId (m.head.read m.tape) = none
  | .finished i =>
      m.status = .halted ∧ m.current = some i ∧ 1 ≤ m.steps ∧
      m.history.size = m.steps + 1 ∧
      (∃ e, m.history.last? = some e ∧ e.instruction = some i) ∧
      m.table.find? i.next (m.head.read m.tape) = none
  | .idle =>
      m.status = .halted ∧ m.current = none ∧ m.steps = 0 ∧ m.history.size = 2

/-- The only phase in which a machine can be. -/
def phase (m : Machine) : Phase :=
  match m.status, m.current with
  | .running, some i => .poised i
  | .running, none => .stranded
  | .halted, some i => .finished i
  | .halted, none => .idle

variable {m : Machine}

theorem In.eq_phase {phase : Phase} (h : m.In phase) : phase = m.phase := by
  cases phase with
  | poised i => rw [Machine.phase, h.1, h.2.1]
  | stranded => rw [Machine.phase, h.1, h.2.1]
  | finished i => rw [Machine.phase, h.1, h.2.1]
  | idle => rw [Machine.phase, h.1, h.2.1]

theorem In.poised {i : Instruction} {id : StateId} (hstatus : m.status = .running)
    (hcurrent : m.current = some i) (hsize : m.history.size = m.steps + 1)
    (hfind : m.table.find? id (m.head.read m.tape) = some i) : m.In (.poised i) := by
  obtain ⟨hmem, -, hcondition⟩ := TransitionTable.mem_of_find? hfind
  refine ⟨hstatus, hcurrent, hmem, ?_, hcondition, hsize⟩
  rw [← hcondition]
  exact m.table.find?_of_mem hmem

theorem Built.exists_phase (h : m.Built) : ∃ phase, m.In phase := by
  obtain ⟨tape, table, initialId, -, hstart⟩ := h.exists_start
  obtain ⟨-, rfl⟩ := start_eq_ok hstart
  cases hfind : table.find? initialId ((Head.atRoot tape).read tape) with
  | some i => exact ⟨.poised i, In.poised rfl rfl rfl hfind⟩
  | none => exact ⟨.stranded, rfl, rfl, rfl, rfl, hfind⟩

theorem In.next {phase : Phase} (h : m.In phase) : ∃ phase', m.next.In phase' := by
  cases m.stepping with
  | refused hstatus _ =>
      rw [next_of_halted hstatus]
      exact ⟨phase, h⟩
  | unstarted hstatus hcurrent hstep =>
      obtain rfl : phase = .stranded := by
        rw [h.eq_phase, Machine.phase, hstatus, hcurrent]
      obtain ⟨-, -, hsteps, hsize, -⟩ := h
      rw [next_of_step hstep]
      exact ⟨.idle, rfl, hcurrent, hsteps, congrArg (· + 1) hsize⟩
  | last i hstatus hcurrent hfind hstep =>
      obtain rfl : phase = .poised i := by
        rw [h.eq_phase, Machine.phase, hstatus, hcurrent]
      obtain ⟨-, -, -, -, -, hsize⟩ := h
      rw [next_of_step hstep]
      exact ⟨.finished i, rfl, hcurrent, Nat.succ_pos _, congrArg (· + 1) hsize,
        ⟨_, rfl, hcurrent⟩, hfind⟩
  | further i j hstatus hcurrent hfind hstep =>
      obtain rfl : phase = .poised i := by
        rw [h.eq_phase, Machine.phase, hstatus, hcurrent]
      obtain ⟨-, -, -, -, -, hsize⟩ := h
      rw [next_of_step hstep]
      exact ⟨.poised j, In.poised hstatus rfl (congrArg (· + 1) hsize) hfind⟩

theorem In.after {phase : Phase} (h : m.In phase) (n : Nat) :
    ∃ phase', (m.after n).In phase' := by
  induction n with
  | zero => exact ⟨phase, h⟩
  | succ n ih =>
      obtain ⟨phase', hphase'⟩ := ih
      exact hphase'.next

theorem step_error_iff : (∃ failure, m.step = .error failure) ↔ m.status = .halted := by
  constructor
  · rintro ⟨failure, hfailure⟩
    cases m.stepping with
    | refused hstatus _ => exact hstatus
    | unstarted _ _ hstep => rw [hstep] at hfailure; contradiction
    | last i _ _ _ hstep => rw [hstep] at hfailure; contradiction
    | further i j _ _ _ hstep => rw [hstep] at hfailure; contradiction
  · intro hstatus
    exact ⟨.alreadyHalted, step_of_halted hstatus⟩

theorem stepInPlace_failure {failure : Failure} {m' : Machine}
    (h : stepInPlace.run.run m = (.error failure, m')) : m.step = .error failure ∧ m' = m := by
  rw [run_stepInPlace, Prod.mk.injEq, outcome] at h
  obtain ⟨houtcome, rfl⟩ := h
  cases hstep : m.step with
  | ok result =>
      rw [hstep] at houtcome
      cases houtcome
  | error failure' =>
      rw [hstep] at houtcome
      cases houtcome
      exact ⟨rfl, next_of_halted (step_error_iff.1 ⟨_, hstep⟩)⟩

theorem phase_unique (hbuilt : m.Built) (calls : List Call) :
    let m' := m.callEach calls
    (∃! phase, m'.In phase) ∧
    ((∃ failure, m'.step = .error failure) ↔ m'.status = .halted) ∧
    (∀ failure, m'.step = .error failure →
      failure = .alreadyHalted ∧ m'.call .step = m') ∧
    ∀ failure m'', stepInPlace.run.run m' = (.error failure, m'') →
      m'.step = .error failure ∧ m'' = m' := by
  intro m'
  refine ⟨?_, step_error_iff, ?_, fun _ _ => stepInPlace_failure⟩
  · obtain ⟨n, hn⟩ := exists_callEach_eq_after calls m
    obtain ⟨start, hstart⟩ := hbuilt.exists_phase
    obtain ⟨phase, hphase⟩ := hstart.after n
    rw [← hn] at hphase
    refine ⟨phase, hphase, ?_⟩
    intro other hother
    rw [hother.eq_phase, hphase.eq_phase]
  · intro failure hfailure
    have hhalted := step_error_iff.1 ⟨failure, hfailure⟩
    rw [step_of_halted hhalted] at hfailure
    exact ⟨(Except.error.inj hfailure).symm, next_of_halted hhalted⟩

theorem phase_unique_after_a_miss :
    ∃ m : Machine, m.Built ∧ m.current = none ∧
      ∃! phase, (m.callEach [.step, .run 3]).In phase := by
  obtain ⟨table, m, htable, hstart⟩ : ∃ table m,
      TransitionTable.ofList [⟨.ofNat 0, .one, .move .left, .ofNat 1⟩] = .ok table ∧
      start Tape.blank table (.ofNat 0) = .ok m := by
    refine exists_start Tape.blank ?_ ⟨_, List.mem_cons_self, rfl⟩
    simp [TransitionTable.Scan.ofList, TransitionTable.Scan.add,
      TransitionTable.Scan.start]
  have hbuilt : m.Built := .ofParts ⟨⟨none, []⟩, _, rfl, rfl⟩ hstart
  refine ⟨m, hbuilt, ?_, (phase_unique hbuilt [.step, .run 3]).1⟩
  obtain ⟨-, rfl⟩ := start_eq_ok hstart
  obtain ⟨hmembers, -⟩ := TransitionTable.ofList_eq_ok htable
  change table.find? (.ofNat 0) .zero = none
  rw [table.find?_eq_scan, hmembers]
  rfl

end Machine

end BinaryMachine
