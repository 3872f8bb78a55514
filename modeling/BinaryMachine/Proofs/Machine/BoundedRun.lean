import BinaryMachine.Proofs.Machine.Replay

/-!
# Bounded runs

A bounded run is so many steps, those behind the halt not counted, and what it
reports can be seen from the machine that it leaves behind.  So it does not matter
how a bound is divided among several runs.
-/

namespace BinaryMachine.Machine

variable {m : Machine}

/-! ## What a run reports -/

def report (m : Machine) : Outcome :=
  if m.isHalted then .halt else .proceed

theorem report_eq_halt_iff : m.report = .halt ↔ m.status = .halted := by
  cases hstatus : m.status <;> simp [report, isHalted, hstatus]

theorem report_eq_proceed_iff : m.report = .proceed ↔ m.status = .running := by
  cases hstatus : m.status <;> simp [report, isHalted, hstatus]

theorem run_snd_eq_report (bound : Nat) :
    ∀ m : Machine, (m.run bound).2 = (m.run bound).1.report := by
  induction bound with
  | zero =>
      intro m
      rfl
  | succ bound ih =>
      intro m
      rw [run]
      cases m.stepping with
      | refused hstatus hstep =>
          rw [hstep]
          exact (report_eq_halt_iff.2 hstatus).symm
      | unstarted _ _ hstep =>
          rw [hstep]
          rfl
      | last i _ _ _ hstep =>
          rw [hstep]
          rfl
      | further i j _ _ _ hstep =>
          rw [hstep]
          exact ih _

theorem run_eq (m : Machine) (bound : Nat) :
    m.run bound = (m.after bound, (m.after bound).report) := by
  rw [← run_fst_eq_after, ← run_snd_eq_report]

theorem callEach_replicate_step (n : Nat) :
    ∀ m : Machine, m.callEach (List.replicate n .step) = m.after n := by
  induction n with
  | zero =>
      intro m
      rfl
  | succ n ih =>
      intro m
      rw [after_succ, ← ih m.next]
      rfl

/-! ## Steps that do not halt -/

/-- The machine has gone on by executing these instructions, each of which it
has counted and recorded. -/
structure Advanced (m m' : Machine) (executed : List Instruction) : Prop where
  steps_eq : m'.steps = m.steps + executed.length
  history_eq : ∃ recorded : List Snapshot,
    m'.history.toList = m.history.toList ++ recorded ∧
      recorded.map Snapshot.instruction = executed.map some

theorem Advanced.refl (m : Machine) : m.Advanced m [] where
  steps_eq := rfl
  history_eq := ⟨[], by simp⟩

theorem Advanced.size_eq {m' : Machine} {executed : List Instruction}
    (h : m.Advanced m' executed) : m'.history.size = m.history.size + executed.length := by
  obtain ⟨recorded, hhistory, hinstructions⟩ := h.history_eq
  have hlength := congrArg List.length hinstructions
  rw [List.length_map, List.length_map] at hlength
  rw [History.size_eq_length, hhistory, List.length_append, hlength, ← History.size_eq_length]

theorem Advanced.execute {m' : Machine} {executed : List Instruction} {i : Instruction}
    (h : m.Advanced m' executed) (hcurrent : m'.current = some i) :
    m.Advanced (m'.execute i) (executed ++ [i]) where
  steps_eq := by
    rw [List.length_append, ← Nat.add_assoc, ← h.steps_eq]
    rfl
  history_eq := by
    obtain ⟨recorded, hhistory, hinstructions⟩ := h.history_eq
    refine ⟨recorded ++ [⟨(m'.execute i).tapeText, m'.current, (m'.execute i).headIndex⟩], ?_, ?_⟩
    · rw [history_execute, History.toList_push, hhistory, List.append_assoc]
    · rw [List.map_append, List.map_append, hinstructions]
      simp only [List.map_cons, List.map_nil, hcurrent]

theorem advanced_of_running {n : Nat} (h : (m.after n).status = .running) :
    ∃ executed, executed.length = n ∧ m.Advanced (m.after n) executed := by
  induction n with
  | zero => exact ⟨[], rfl, .refl m⟩
  | succ n ih =>
      rw [after] at h ⊢
      cases (m.after n).stepping with
      | refused hstatus _ =>
          rw [next_of_halted hstatus, hstatus] at h
          contradiction
      | unstarted _ _ hstep =>
          rw [next_of_step hstep] at h
          contradiction
      | last i _ _ _ hstep =>
          rw [next_of_step hstep] at h
          contradiction
      | further i j hstatus hcurrent _ hstep =>
          obtain ⟨executed, hlength, hadvanced⟩ := ih hstatus
          have hexecute := hadvanced.execute hcurrent
          rw [next_of_step hstep]
          exact ⟨executed ++ [i], by rw [List.length_append, hlength, List.length_singleton],
            hexecute.steps_eq, hexecute.history_eq⟩

/-! ## Runs behind runs -/

theorem runs_compose (m : Machine) :
    (∀ a b, (m.run a).1.run b = m.run (a + b)) ∧
    (∀ n, (m.run n).1 = m.callEach (List.replicate n .step)) ∧
    (∀ n, (m.run n).2 = .halt ↔ (m.run n).1.status = .halted) ∧
    (∀ n, (m.run n).2 = .proceed →
      (m.run n).1.steps = m.steps + n ∧ (m.run n).1.history.size = m.history.size + n ∧
        ∃ executed, executed.length = n ∧ m.Advanced (m.run n).1 executed) ∧
    ∀ a b, a ≤ b → (m.run a).1.history.toList <+: (m.run b).1.history.toList := by
  refine ⟨?_, ?_, ?_, ?_, ?_⟩
  · intro a b
    rw [run_eq, run_eq m, run_eq m, after_add]
  · intro n
    rw [run_eq, callEach_replicate_step]
  · intro n
    rw [run_eq]
    exact report_eq_halt_iff
  · intro n hproceed
    rw [run_eq] at hproceed ⊢
    obtain ⟨executed, hlength, hadvanced⟩ :=
      advanced_of_running (report_eq_proceed_iff.1 hproceed)
    refine ⟨?_, ?_, executed, hlength, hadvanced⟩
    · rw [hadvanced.steps_eq, hlength]
    · rw [hadvanced.size_eq, hlength]
  · intro a b hle
    obtain ⟨more, rfl⟩ := Nat.exists_eq_add_of_le hle
    rw [run_eq, run_eq, after_add]
    exact history_prefix_after _ more

end BinaryMachine.Machine
