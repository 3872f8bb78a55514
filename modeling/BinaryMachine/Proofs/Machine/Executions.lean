import Mathlib.Data.ENat.Lattice
import Mathlib.Order.CompletePartialOrder
import BinaryMachine.Proofs.Machine.Replay

/-!
# How many instructions a machine executes

Before every step it is settled which instruction the step will execute, if any:
the one that the table has for the state that the machine has come to and for the
symbol under the head.  Where there is none nothing is executed from then on.  So a
single number, which may be infinite, says how long a machine goes on.
-/

namespace BinaryMachine.Machine

variable {m m' : Machine} {i : Instruction}

/-! ## The next instruction -/

/-- What the next step executes.  A halted machine executes nothing, although the
instruction that it executed last stays its current one. -/
def pending (m : Machine) : Option Instruction :=
  match m.status with
  | .running => m.current
  | .halted => none

theorem pending_eq_some_iff :
    m.pending = some i ↔ m.status = .running ∧ m.current = some i := by
  cases hstatus : m.status <;> simp [pending, hstatus]

theorem status_of_pending (h : m.pending ≠ none) : m.status = .running := by
  cases hstatus : m.status with
  | running => rfl
  | halted => simp [pending, hstatus] at h

/-- All that executing `i` does to a machine. -/
structure Executes (m : Machine) (i : Instruction) (m' : Machine) : Prop where
  tape_eq : m'.tape = (m.head.act m.tape i.action).1
  head_eq : m'.head = (m.head.act m.tape i.action).2
  steps_eq : m'.steps = m.steps + 1
  history_eq : m'.history = m.history.push ⟨m'.tapeText, some i, m'.headIndex⟩
  initialId_eq : m'.initialId = m.initialId
  pending_eq : m'.pending = m.table.find? i.next (m'.head.read m'.tape)

theorem next_executes (h : m.pending = some i) : m.Executes i m.next := by
  have hcurrent := (pending_eq_some_iff.1 h).2
  cases m.stepping with
  | refused hstatus _ => simp [pending, hstatus] at h
  | unstarted _ hnone _ => simp [hnone] at hcurrent
  | last j hstatus hj hfind hstep =>
      obtain rfl := Option.some.inj (hj.symm.trans hcurrent)
      rw [next_of_step hstep]
      exact ⟨rfl, rfl, rfl, by rw [history_execute, hcurrent]; rfl, rfl, hfind.symm⟩
  | further j k hstatus hj hfind hstep =>
      obtain rfl := Option.some.inj (hj.symm.trans hcurrent)
      have hpending : pending { m.execute j with current := some k } = some k :=
        pending_eq_some_iff.2 ⟨hstatus, rfl⟩
      rw [next_of_step hstep]
      exact ⟨rfl, rfl, rfl, by rw [history_execute, hcurrent]; rfl, rfl, hpending.trans hfind.symm⟩

theorem next_of_pending_none (h : m.pending = none) :
    m.next.pending = none ∧ m.next.steps = m.steps := by
  cases m.stepping with
  | refused hstatus _ => simp [next_of_halted hstatus, h]
  | unstarted _ _ hstep =>
      rw [next_of_step hstep]
      exact ⟨rfl, rfl⟩
  | last j hstatus hj _ _ => simp [pending, hstatus, hj] at h
  | further j k hstatus hj _ _ => simp [pending, hstatus, hj] at h

/-- Only at the start can a machine run without an instruction. -/
theorem pending_next_ne_none (h : m.next.status = .running) : m.next.pending ≠ none := by
  cases m.stepping with
  | refused hstatus _ => simp [next_of_halted hstatus, hstatus] at h
  | unstarted _ _ hstep => simp [next_of_step hstep] at h
  | last j _ _ _ hstep => simp [next_of_step hstep] at h
  | further j k hstatus _ _ hstep =>
      have hpending : pending { m.execute j with current := some k } = some k :=
        pending_eq_some_iff.2 ⟨hstatus, rfl⟩
      rw [next_of_step hstep, hpending]
      exact Option.some_ne_none k

/-! ## Looking it up -/

/-- The state that the machine has come to, as the last snapshot tells. -/
def state (m : Machine) : StateId :=
  (m.history.last?.map (Snapshot.stateAfter m.initialId)).getD m.initialId

/-- What the table has for the state of the machine and the symbol under the head. -/
def lookup (m : Machine) : Option Instruction :=
  m.table.find? m.state (m.head.read m.tape)

/-- The instruction to be executed is the one that is looked up. -/
structure Resolved (m : Machine) : Prop where
  pending_eq : m.pending = m.lookup
  waiting : m.status = .running → m.current = none → m.state = m.initialId

theorem Executes.state_eq (h : m.Executes i m') : m'.state = i.next := by
  simp [state, h.history_eq, History.last?, History.push, Snapshot.stateAfter]

theorem Resolved.next (h : m.Resolved) : m.next.Resolved := by
  cases hpending : m.pending with
  | some i =>
      have hnext := next_executes hpending
      constructor
      · rw [lookup, table_next, hnext.state_eq, hnext.pending_eq]
      · intro hstatus hcurrent
        exact absurd (by simp [pending, hstatus, hcurrent]) (pending_next_ne_none hstatus)
  | none =>
      cases m.stepping with
      | refused hstatus _ => rwa [next_of_halted hstatus]
      | unstarted hstatus hcurrent hstep =>
          -- The halt is recorded without an instruction, so the state is the first one still.
          have hlookup := h.pending_eq.symm.trans hpending
          rw [lookup, h.waiting hstatus hcurrent] at hlookup
          rw [next_of_step hstep]
          refine ⟨?_, nofun⟩
          simpa [lookup, state, pending, History.last?, Machine.record, History.push, snapshot,
            Snapshot.stateAfter, hcurrent] using hlookup.symm
      | last j hstatus hj _ _ => simp [pending, hstatus, hj] at hpending
      | further j k hstatus hj _ _ => simp [pending, hstatus, hj] at hpending

theorem Resolved.after (h : m.Resolved) (n : Nat) : (m.after n).Resolved := by
  induction n with
  | zero => exact h
  | succ n ih => exact ih.next

/-! ## At the start -/

variable {tape : Tape} {table : TransitionTable} {initialId : StateId}

theorem start_resolved (h : start tape table initialId = .ok m) : m.Resolved := by
  obtain ⟨-, rfl⟩ := start_eq_ok h
  exact ⟨rfl, fun _ _ => rfl⟩

theorem pending_of_start (h : start tape table initialId = .ok m) :
    m.pending = table.find? initialId ((Head.atRoot tape).read tape) := by
  obtain ⟨-, rfl⟩ := start_eq_ok h
  rfl

/-! ## Counting -/

/-- The number of instructions that are executed if the machine is stepped on and on. -/
noncomputable def executions (m : Machine) : ℕ∞ :=
  ⨆ n, ((m.after n).steps : ℕ∞)

variable {k n : Nat}

theorem after_of_pending_none (hle : k ≤ n) (h : (m.after k).pending = none) :
    (m.after n).pending = none ∧ (m.after n).steps = (m.after k).steps := by
  induction n, hle using Nat.le_induction with
  | base => exact ⟨h, rfl⟩
  | succ n _ ih =>
      have hnext := next_of_pending_none ih.1
      exact ⟨hnext.1, hnext.2.trans ih.2⟩

theorem pending_of_le (hle : k ≤ n) (h : (m.after n).pending ≠ none) :
    (m.after k).pending ≠ none := fun hnone => h (after_of_pending_none hle hnone).1

theorem steps_after_of_pending (h : ∀ k < n, (m.after k).pending ≠ none) :
    (m.after n).steps = m.steps + n := by
  induction n with
  | zero => rfl
  | succ n ih =>
      have hsteps := ih fun k hk => h k (Nat.lt_succ_of_lt hk)
      cases hpending : (m.after n).pending with
      | none => exact absurd hpending (h n (Nat.lt_succ_self n))
      | some i =>
          rw [after, (next_executes hpending).steps_eq, hsteps, Nat.add_assoc]

theorem steps_after_le (m : Machine) (n : Nat) : (m.after n).steps ≤ m.steps + n := by
  induction n with
  | zero => exact Nat.le_refl _
  | succ n ih =>
      rw [after]
      cases hpending : (m.after n).pending with
      | none =>
          have := (next_of_pending_none hpending).2
          omega
      | some i =>
          have := (next_executes hpending).steps_eq
          omega

/-- As long as the number of executions is not reached there is an instruction to execute. -/
theorem lt_executions_iff (h : m.steps = 0) :
    (n : ℕ∞) < m.executions ↔ (m.after n).pending ≠ none := by
  constructor
  · intro hlt hnone
    obtain ⟨k, hk⟩ := lt_iSup_iff.1 hlt
    have hk : n < (m.after k).steps := by exact_mod_cast hk
    have hsteps := m.steps_after_le k
    rcases Nat.le_total n k with hle | hle
    · have hsame := (after_of_pending_none hle hnone).2
      have := m.steps_after_le n
      omega
    · omega
  · intro hpending
    have hsteps : (m.after (n + 1)).steps = m.steps + (n + 1) :=
      steps_after_of_pending fun k hk => pending_of_le (Nat.le_of_lt_succ hk) hpending
    apply lt_iSup_iff.2
    refine ⟨n + 1, ?_⟩
    rw [hsteps, h]
    exact_mod_cast Nat.lt_succ_of_le (Nat.le_add_left n 0)

end BinaryMachine.Machine
