import BinaryMachine.Proofs.Machine.Construction
import BinaryMachine.Proofs.Machine.Executions

/-!
# More instructions

A table that has all the instructions of another one finds each of them where the
other one does, whatever else it has.  So adding instructions changes nothing until
the first table has none to offer: the longer run goes on where the shorter one
ends.
-/

namespace BinaryMachine

theorem TransitionTable.find?_of_subset {table table' : TransitionTable}
    (hsubset : table.members ⊆ table'.members) {id : StateId} {symbol : Symbol}
    {i : Instruction} (h : table.find? id symbol = some i) :
    table'.find? id symbol = some i := by
  rw [find?_eq_some_iff] at h ⊢
  exact ⟨hsubset h.1, h.2⟩

namespace Machine

/-- What has happened to the machines is the same, and what the first one is about to
execute, so is the second one. -/
structure Accompanies (m m' : Machine) : Prop where
  tape_eq : m'.tape = m.tape
  head_eq : m'.head = m.head
  steps_eq : m'.steps = m.steps
  history_eq : m'.history = m.history
  pending : ∀ i, m.pending = some i → m'.pending = some i

namespace Accompanies

variable {m m' : Machine}

theorem tapeText_eq (h : m.Accompanies m') : m'.tapeText = m.tapeText := by
  simp [tapeText, h.tape_eq]

theorem headIndex_eq (h : m.Accompanies m') : m'.headIndex = m.headIndex := by
  simp [headIndex, h.tape_eq, h.head_eq]

/-- An instruction that is about to be executed is the current one of both machines. -/
theorem running (h : m.Accompanies m') (hpending : m.pending ≠ none) :
    m'.pending ≠ none ∧ m'.status = m.status ∧ m'.current = m.current := by
  cases hi : m.pending with
  | none => exact absurd hi hpending
  | some i =>
      have hi' := h.pending i hi
      have hstate := pending_eq_some_iff.1 hi
      have hstate' := pending_eq_some_iff.1 hi'
      exact ⟨by simp [hi'], hstate'.1.trans hstate.1.symm, hstate'.2.trans hstate.2.symm⟩

theorem next (h : m.Accompanies m') (hsubset : m.table.members ⊆ m'.table.members)
    (hpending : m.pending ≠ none) : m.next.Accompanies m'.next := by
  cases hi : m.pending with
  | none => exact absurd hi hpending
  | some i =>
      have hnext := next_executes hi
      have hnext' := next_executes (h.pending i hi)
      have htape : m'.next.tape = m.next.tape := by
        rw [hnext.tape_eq, hnext'.tape_eq, h.tape_eq, h.head_eq]
      have hhead : m'.next.head = m.next.head := by
        rw [hnext.head_eq, hnext'.head_eq, h.tape_eq, h.head_eq]
      constructor
      case tape_eq => exact htape
      case head_eq => exact hhead
      case steps_eq => rw [hnext.steps_eq, hnext'.steps_eq, h.steps_eq]
      case history_eq =>
        rw [hnext.history_eq, hnext'.history_eq, h.history_eq, tapeText, headIndex, htape, hhead]
        rfl
      case pending =>
        intro j hj
        rw [hnext.pending_eq] at hj
        rw [hnext'.pending_eq, htape, hhead]
        exact TransitionTable.find?_of_subset hsubset hj

theorem after (h : m.Accompanies m') (hsubset : m.table.members ⊆ m'.table.members)
    (hsteps : m.steps = 0) {n : Nat} (hn : n ≤ m.executions) :
    (m.after n).Accompanies (m'.after n) := by
  induction n with
  | zero => exact h
  | succ n ih =>
      have hlt : (n : ℕ∞) < m.executions := ENat.natCast_add_one_le_iff.1 (by exact_mod_cast hn)
      apply (ih hlt.le).next _ ((lt_executions_iff hsteps).1 hlt)
      rwa [table_after, table_after]

theorem running_after (h : m.Accompanies m') (hsubset : m.table.members ⊆ m'.table.members)
    (hsteps : m.steps = 0) {n : Nat} (hn : n < m.executions) :
    (m'.after n).pending ≠ none ∧ (m'.after n).status = (m.after n).status ∧
      (m'.after n).current = (m.after n).current :=
  (h.after hsubset hsteps hn.le).running ((lt_executions_iff hsteps).1 hn)

theorem executions_le (h : m.Accompanies m') (hsubset : m.table.members ⊆ m'.table.members)
    (hsteps : m.steps = 0) : m.executions ≤ m'.executions := by
  apply ENat.forall_natCast_le_iff_le.1
  intro n hn
  cases n with
  | zero => simp
  | succ n =>
      push_cast at hn ⊢
      rw [ENat.natCast_add_one_le_iff] at hn ⊢
      exact (lt_executions_iff (h.steps_eq.trans hsteps)).2 (h.running_after hsubset hsteps hn).1

/-- The second machine halts no earlier. -/
theorem halted_of_halted (h : m.Accompanies m') (hsubset : m.table.members ⊆ m'.table.members)
    (hsteps : m.steps = 0) (hstatus : m'.status = m.status) {n : Nat}
    (hhalted : (m'.after n).status = .halted) : (m.after n).status = .halted := by
  cases n with
  | zero => exact hstatus.symm.trans hhalted
  | succ n =>
      cases hrunning : (m.after (n + 1)).status with
      | halted => rfl
      | running =>
          have hn : ((n + 1 : Nat) : ℕ∞) < m.executions :=
            (lt_executions_iff hsteps).2 (pending_next_ne_none hrunning)
          have hsame := (h.running_after hsubset hsteps hn).2.1
          simp [hhalted, hrunning] at hsame

end Accompanies

variable {tape : Tape} {table table' : TransitionTable} {initialId : StateId} {m m' : Machine}

theorem accompanies_of_start (hsubset : table.members ⊆ table'.members)
    (hm : start tape table initialId = .ok m) (hm' : start tape table' initialId = .ok m') :
    m.Accompanies m' := by
  obtain ⟨-, rfl⟩ := start_eq_ok hm
  obtain ⟨-, rfl⟩ := start_eq_ok hm'
  exact ⟨rfl, rfl, rfl, rfl, fun i hi => TransitionTable.find?_of_subset hsubset hi⟩

/-- Two machines on one tape, the second of which has all the instructions of the first
and perhaps more, cannot be told apart while the first one has instructions to execute.
From then on only the second one may go on. -/
theorem larger_table_goes_on (hsubset : table.members ⊆ table'.members)
    (hinitial : ∃ i ∈ table.members, i.id.value = initialId.value) :
    ∃ m m', start tape table initialId = .ok m ∧ start tape table' initialId = .ok m' ∧
      (∀ n : Nat, n ≤ m.executions →
        (m'.after n).tapeText = (m.after n).tapeText ∧
        (m'.after n).headIndex = (m.after n).headIndex ∧
        (m'.after n).steps = (m.after n).steps ∧
        (m'.after n).history = (m.after n).history) ∧
      (∀ n : Nat, n < m.executions →
        (m'.after n).status = (m.after n).status ∧
        (m'.after n).current = (m.after n).current) ∧
      (∀ n : Nat, m.executions ≤ n ↔ (m.after n).lookup = none) ∧
      (∀ n, (m'.after n).status = .halted → (m.after n).status = .halted) ∧
      m.executions ≤ m'.executions := by
  obtain ⟨m, hm⟩ := (@exists_start_iff tape table initialId).2 hinitial
  obtain ⟨m', hm'⟩ := (@exists_start_iff tape table' initialId).2
    (hinitial.imp fun i hi => ⟨hsubset hi.1, hi.2⟩)
  have hsteps := steps_of_start hm
  have haccompanies := accompanies_of_start hsubset hm hm'
  have htables : m.table.members ⊆ m'.table.members := by
    rw [table_of_start hm, table_of_start hm']
    exact hsubset
  have hstatus : m'.status = m.status := (status_of_start hm').trans (status_of_start hm).symm
  refine ⟨m, m', hm, hm', ?_, ?_, ?_, ?_, ?_⟩
  · intro n hn
    have hsame := haccompanies.after htables hsteps hn
    exact ⟨hsame.tapeText_eq, hsame.headIndex_eq, hsame.steps_eq, hsame.history_eq⟩
  · intro n hn
    exact (haccompanies.running_after htables hsteps hn).2
  · intro n
    rw [← ((start_resolved hm).after n).pending_eq, ← not_lt, lt_executions_iff hsteps, not_not]
  · intro n
    exact haccompanies.halted_of_halted htables hsteps hstatus
  · exact haccompanies.executions_le htables hsteps

/-- On the tape `1` the first table has no instruction for the blank on the left, where
the second one writes a mark. -/
theorem larger_table_goes_on_off_the_left_end :
    ∃ (table table' : TransitionTable) (m m' : Machine),
      table.members.map Instruction.text = ["0,1,L,0"] ∧
      table'.members.map Instruction.text = ["0,0,1,1", "0,1,L,0"] ∧
      start (Tape.ofSymbols [.one]) table (.ofNat 0) = .ok m ∧
      start (Tape.ofSymbols [.one]) table' (.ofNat 0) = .ok m' ∧
      (m'.after 1).tapeText = (m.after 1).tapeText ∧ (m'.after 1).history = (m.after 1).history ∧
      m'.current = m.current ∧ m.executions ≤ m'.executions := by
  let i : Instruction := ⟨.ofNat 0, .one, .move .left, .ofNat 0⟩
  let j : Instruction := ⟨.ofNat 0, .zero, .write .one, .ofNat 1⟩
  obtain ⟨table, hmembers⟩ := @TransitionTable.exists_members_eq [i] (by decide)
  obtain ⟨table', hmembers'⟩ := @TransitionTable.exists_members_eq [j, i] (by decide)
  obtain ⟨m, m', hm, hm', hpast, hpresent, -, -, hle⟩ :=
    @larger_table_goes_on (Tape.ofSymbols [.one]) table table' (.ofNat 0)
      (by simp [hmembers, hmembers']) (by simp [hmembers, i])
  have hpending : (m.after 0).pending ≠ none := by
    rw [after, pending_of_start hm, table.find?_eq_scan, hmembers]
    exact Option.some_ne_none i
  have hlt : ((0 : Nat) : ℕ∞) < m.executions := (lt_executions_iff (steps_of_start hm)).2 hpending
  have hone := hpast 1 (ENat.natCast_add_one_le_iff.2 hlt)
  refine ⟨table, table', m, m', ?_, ?_, hm, hm', hone.1, hone.2.2.2, (hpresent 0 hlt).2, hle⟩
  · rw [hmembers]
    rfl
  · rw [hmembers']
    rfl

end Machine

end BinaryMachine
