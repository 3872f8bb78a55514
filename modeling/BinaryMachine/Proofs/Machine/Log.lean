import BinaryMachine.Proofs.Encoding.Grammar
import BinaryMachine.Proofs.Machine.BoundedRun

/-!
# What the log says of a run

Every snapshot shows a tape of symbols with the head on one of them.  A snapshot
with an instruction is taken in every step and at no other time, so the steps are
the snapshots that carry one.
-/

namespace BinaryMachine

/-- The text is made of symbols, and the head stands on one of them. -/
structure Snapshot.Sound (e : Snapshot) : Prop where
  symbols : ∀ c ∈ e.tape.toList, c = '0' ∨ c = '1'
  headIndex_lt : e.headIndex < e.tape.length

namespace Machine

theorem Tracks.sound {m : Machine} {line : Line} {p : Int} (h : m.Tracks line p)
    (instruction : Option Instruction) :
    Snapshot.Sound ⟨m.tapeText, instruction, m.headIndex⟩ where
  symbols := by
    simp only [h.tapeText_eq, Line.text, String.toList_ofList, List.forall_mem_map]
    exact fun symbol _ => Symbol.exists_char_eq.1 ⟨symbol, rfl⟩
  headIndex_lt := by
    have hmem := h.mem
    simp only [h.tapeText_eq, h.headIndex_eq_toNat, Line.length_text]
    omega

structure Logged (m : Machine) : Prop where
  tracks : ∃ line p, m.Tracks line p
  sound : ∀ e ∈ m.history.toList, e.Sound
  steps_eq : m.steps = m.history.toList.countP fun e => e.instruction.isSome

namespace Logged

variable {m : Machine}

/-- A snapshot without an instruction is no step. -/
theorem record (h : m.Logged) (hcurrent : m.current = none) : m.record.Logged where
  tracks := h.tracks
  sound := by
    obtain ⟨line, p, htracks⟩ := h.tracks
    simpa [history_record, or_imp, forall_and, Machine.snapshot] using
      And.intro h.sound (htracks.sound m.current)
  steps_eq := by
    have hsteps : m.record.steps = m.steps := rfl
    simp [history_record, Machine.snapshot, hsteps, hcurrent, h.steps_eq]

theorem execute (h : m.Logged) {i : Instruction} (hcurrent : m.current = some i) :
    (m.execute i).Logged := by
  obtain ⟨line, p, htracks⟩ := h.tracks
  have hexecute := htracks.execute i
  constructor
  case tracks => exact ⟨_, _, hexecute⟩
  case sound =>
    simpa [history_execute, or_imp, forall_and] using And.intro h.sound (hexecute.sound m.current)
  case steps_eq =>
    have hsteps : (m.execute i).steps = m.steps + 1 := rfl
    simp [history_execute, hsteps, hcurrent, h.steps_eq]

/-- What is to be executed next, and whether anything is, leaves no trace in the log. -/
theorem settle (h : m.Logged) (current : Option Instruction) (status : Status) :
    Logged { m with current, status } :=
  ⟨h.tracks, h.sound, h.steps_eq⟩

theorem next (h : m.Logged) : m.next.Logged := by
  cases m.stepping with
  | refused hstatus _ => rwa [next_of_halted hstatus]
  | unstarted _ hcurrent hstep =>
      rw [next_of_step hstep]
      exact (h.record hcurrent).settle _ _
  | last i _ hcurrent _ hstep =>
      rw [next_of_step hstep]
      exact (h.execute hcurrent).settle _ _
  | further i j _ hcurrent _ hstep =>
      rw [next_of_step hstep]
      exact (h.execute hcurrent).settle _ _

theorem after (h : m.Logged) (n : Nat) : (m.after n).Logged := by
  induction n with
  | zero => exact h
  | succ n ih => exact ih.next

end Logged

variable {m : Machine}

theorem Built.logged (h : m.Built) : m.Logged := by
  obtain ⟨line, htracks⟩ := h.tracks
  obtain ⟨tape, table, initialId, htape, hstart⟩ := h.exists_start
  obtain ⟨-, rfl⟩ := start_eq_ok hstart
  refine ⟨⟨line, 0, htracks⟩, ?_, rfl⟩
  simpa [tapeText, headIndex] using htracks.sound none

/-- The last snapshot shows the tape as the run leaves it. -/
theorem Built.last?_tape (h : m.Built) (n : Nat) :
    (m.after n).history.last?.map Snapshot.tape = some (m.after n).tapeText := by
  obtain ⟨e, hready⟩ := (h.recorded.after n).ready
  rw [hready.last?_eq, Option.map_some, hready.tape_eq]

theorem Built.steps_eq_zero (h : m.Built) : m.steps = 0 := by
  obtain ⟨_, _, _, -, hstart⟩ := h.exists_start
  exact steps_of_start hstart

/-- A machine that still runs has executed one instruction in every step. -/
theorem Built.steps_of_running (h : m.Built) {n : Nat} (hrunning : (m.after n).status = .running) :
    (m.after n).steps = n := by
  obtain ⟨executed, hlength, hadvanced⟩ := advanced_of_running hrunning
  rw [hadvanced.steps_eq, h.steps_eq_zero, hlength, Nat.zero_add]

theorem Built.size_eq_one (h : m.Built) : m.history.size = 1 := by
  rcases h.exists_start with ⟨tape, table, initialId, -, hstart⟩
  rcases start_eq_ok hstart with ⟨-, rfl⟩
  rfl

/-- The snapshot with the number of the step shows the machine after that step. -/
theorem Built.exists_get?_of_running (h : m.Built) {n : Nat}
    (hrunning : (m.after n).status = .running) :
    ∃ e, (m.after n).history.get? n = some e ∧ e.tape = (m.after n).tapeText ∧
      e.headIndex = (m.after n).headIndex := by
  rcases (h.recorded.after n).ready with ⟨e, hready⟩
  rcases advanced_of_running hrunning with ⟨executed, hlength, hadvanced⟩
  have hsize : n + 1 = (m.after n).history.size := by
    rw [hadvanced.size_eq, h.size_eq_one, hlength, Nat.add_comm]
  exact ⟨e, History.get?_of_last? hready.last?_eq hsize, hready.tape_eq, hready.headIndex_eq⟩

end Machine

end BinaryMachine
