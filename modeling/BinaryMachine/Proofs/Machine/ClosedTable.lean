import BinaryMachine.Proofs.Machine.BoundedRun
import BinaryMachine.Proofs.Machine.Construction
import BinaryMachine.Proofs.Machine.Executions

/-!
# Tables that never run out

A table is closed if for every state that one of its instructions leads to it has an
instruction for a blank and one for a mark.  Over a closed table the search for the
next instruction cannot fail, whatever comes under the head, so a machine that
has a first instruction never halts.
-/

namespace BinaryMachine

/-- Wherever an instruction leads, there is an instruction for either symbol. -/
def TransitionTable.Closed (table : TransitionTable) : Prop :=
  ∀ i ∈ table.members, ∀ symbol, ∃ j ∈ table.members,
    j.id.value = i.next.value ∧ j.condition = symbol

theorem TransitionTable.Closed.exists_find? {table : TransitionTable} (h : table.Closed)
    {i : Instruction} (hi : i ∈ table.members) (symbol : Symbol) :
    ∃ j ∈ table.members, table.find? i.next symbol = some j := by
  rcases h i hi symbol with ⟨j, hj, hstate, hcondition⟩
  exact ⟨j, hj, find?_eq_some_iff.2 ⟨hj, hstate, hcondition⟩⟩

namespace Machine

variable {m : Machine}

/-! ## Runs without an end -/

/-- Nothing that can be done with the machine makes it halt: every step goes on, every
bounded run is stopped by its bound, and every step executes and records one
instruction. -/
structure NeverHalts (m : Machine) : Prop where
  outcome_eq : ∀ calls, (m.callEach calls).outcome = .ok .proceed
  status_eq : ∀ calls, (m.callEach calls).status = .running
  run_eq : ∀ calls bound, ((m.callEach calls).run bound).2 = .proceed
  steps_eq : ∀ n, (m.after n).steps = n
  size_eq : ∀ n, (m.after n).history.size = n + 1

theorem neverHalts_of_pending (hsteps : m.steps = 0) (hsize : m.history.size = 1)
    (hpending : ∀ n, (m.after n).pending ≠ none) : m.NeverHalts := by
  have hrunning : ∀ n, (m.after n).status = .running := fun n => status_of_pending (hpending n)
  constructor
  case outcome_eq =>
    intro calls
    rcases exists_callEach_eq_after calls m with ⟨n, hn⟩
    have hnext : (m.after n).next.status = .running := hrunning (n + 1)
    simp [hn, Machine.outcome_eq, hrunning n, hnext]
  case status_eq =>
    intro calls
    rcases exists_callEach_eq_after calls m with ⟨n, hn⟩
    rw [hn, hrunning]
  case run_eq =>
    intro calls bound
    rcases exists_callEach_eq_after calls m with ⟨n, hn⟩
    rw [hn, Machine.run_eq, ← after_add]
    exact report_eq_proceed_iff.2 (hrunning (n + bound))
  case steps_eq =>
    intro n
    simpa [hsteps] using steps_after_of_pending fun k (_ : k < n) => hpending k
  case size_eq =>
    intro n
    rcases advanced_of_running (hrunning n) with ⟨executed, hlength, hadvanced⟩
    rw [hadvanced.size_eq, hsize, hlength, Nat.add_comm]

/-! ## Closed tables -/

theorem exists_pending_next (hclosed : m.table.Closed)
    (h : ∃ i ∈ m.table.members, m.pending = some i) :
    ∃ i ∈ m.table.members, m.next.pending = some i := by
  rcases h with ⟨i, hi, hpending⟩
  rw [(next_executes hpending).pending_eq]
  exact hclosed.exists_find? hi _

theorem exists_pending_after (hclosed : m.table.Closed)
    (h : ∃ i ∈ m.table.members, m.pending = some i) (n : Nat) :
    ∃ i ∈ m.table.members, (m.after n).pending = some i := by
  induction n with
  | zero => exact h
  | succ n ih =>
      rw [← table_after m n] at hclosed ih ⊢
      exact exists_pending_next hclosed ih

variable {tape : Tape} {table : TransitionTable} {initialId : StateId}

theorem neverHalts_of_closed (hclosed : table.Closed)
    (hfirst : ∃ i ∈ table.members,
      i.id.value = initialId.value ∧ i.condition = (Head.atRoot tape).read tape) :
    ∃ m, start tape table initialId = .ok m ∧ m.NeverHalts := by
  rcases hfirst with ⟨i, hi, hstate, hcondition⟩
  obtain ⟨m, hm⟩ := (@exists_start_iff tape table initialId).2 ⟨i, hi, hstate⟩
  have hpending : ∃ i ∈ m.table.members, m.pending = some i := by
    rw [table_of_start hm, pending_of_start hm]
    exact ⟨i, hi, TransitionTable.find?_eq_some_iff.2 ⟨hi, hstate, hcondition⟩⟩
  refine ⟨m, hm, neverHalts_of_pending (steps_of_start hm) ?_ ?_⟩
  · obtain ⟨-, rfl⟩ := start_eq_ok hm
    rfl
  · intro n
    rw [← table_of_start hm] at hclosed
    rcases exists_pending_after hclosed hpending n with ⟨j, -, hj⟩
    simp [hj]

end Machine

/-! ## The counter -/

/-- The counter's table is closed, and its one state has an instruction for either symbol. -/
theorem Catalogue.exists_unaryCounter_table :
    ∃ table, TransitionTable.parse unaryCounter.instructions unaryCounter.separator = .ok table ∧
      table.Closed ∧ ∀ symbol, ∃ i ∈ table.members,
        i.id.value = unaryCounter.initialId.value ∧ i.condition = symbol := by
  have hmembers : parseInstructions unaryCounter.instructions unaryCounter.separator =
      .ok [⟨.ofNat 1, .one, .move .right, .ofNat 1⟩, ⟨.ofNat 1, .zero, .write .one, .ofNat 1⟩] :=
    rfl
  obtain ⟨table, htable⟩ := TransitionTable.exists_ofList_of_pairwise
    (show [Instruction.mk (.ofNat 1) .one (.move .right) (.ofNat 1),
      ⟨.ofNat 1, .zero, .write .one, .ofNat 1⟩].Pairwise fun a b => ¬ a.Collides b by decide)
  have hsymbols : ∀ symbol, ∃ i ∈ table.members,
      i.id.value = (StateId.ofNat 1).value ∧ i.condition = symbol := by
    rw [(TransitionTable.ofList_eq_ok htable).1]
    intro symbol
    cases symbol <;> simp
  refine ⟨table, ?_, ?_, hsymbols⟩
  · simp [TransitionTable.parse, hmembers, htable, bind, Except.bind]
  · have hnext : ∀ i ∈ table.members, i.next = .ofNat 1 := by
      rw [(TransitionTable.ofList_eq_ok htable).1]
      simp
    intro i hi symbol
    rw [hnext i hi]
    exact hsymbols symbol

/-- A closed table never halts, whatever the tape and however it is run.  The counter is
one on every tape. -/
theorem Machine.closed_table_never_halts :
    (∀ (tape : Tape) (table : TransitionTable) (initialId : StateId), table.Closed →
      (∃ i ∈ table.members,
        i.id.value = initialId.value ∧ i.condition = (Head.atRoot tape).read tape) →
      ∃ m, start tape table initialId = .ok m ∧ m.NeverHalts) ∧
    (∀ tape : Tape, ∃ table m, TransitionTable.parse Catalogue.unaryCounter.instructions
        Catalogue.unaryCounter.separator = .ok table ∧
      start tape table Catalogue.unaryCounter.initialId = .ok m ∧ m.NeverHalts) ∧
    ∀ content, TapeForm content →
      ∃ m, ofProgram { Catalogue.unaryCounter with tape := content } = .ok m ∧ m.NeverHalts := by
  obtain ⟨table, htable, hclosed, hsymbols⟩ := Catalogue.exists_unaryCounter_table
  have hcounter : ∀ tape : Tape, ∃ m,
      start tape table Catalogue.unaryCounter.initialId = .ok m ∧ m.NeverHalts :=
    fun tape => neverHalts_of_closed hclosed (hsymbols _)
  refine ⟨fun tape table initialId => neverHalts_of_closed, ?_, ?_⟩
  · intro tape
    obtain ⟨m, hm⟩ := hcounter tape
    exact ⟨table, m, htable, hm⟩
  · intro content hform
    obtain ⟨tape, htape⟩ := Tape.exists_ofText_iff.2 hform
    obtain ⟨m, hm, hnever⟩ := hcounter tape
    refine ⟨m, ?_, hnever⟩
    simp [ofProgram, ofTexts, htape, htable, hm, bind, Except.bind]

/-- Two states that take turns, one of which goes to the left and off the tape; and the
counter on a content of both symbols. -/
theorem Machine.closed_table_never_halts_off_the_left_end :
    ∃ (table : TransitionTable) (m m' : Machine),
      table.members.map Instruction.text = ["0,0,1,1", "0,1,0,1", "1,1,L,0", "1,0,L,00"] ∧
      table.Closed ∧ start Tape.blank table (.ofNat 0) = .ok m ∧ m.NeverHalts ∧
      ofProgram { Catalogue.unaryCounter with tape := "0110" } = .ok m' ∧ m'.NeverHalts := by
  let members : List Instruction :=
    [⟨.ofNat 0, .zero, .write .one, .ofNat 1⟩, ⟨.ofNat 0, .one, .write .zero, .ofNat 1⟩,
      ⟨.ofNat 1, .one, .move .left, .ofNat 0⟩,
      ⟨.ofNat 1, .zero, .move .left,
        ⟨['0', '0'], List.cons_ne_nil _ _, List.all_eq_true.1 rfl⟩⟩]
  obtain ⟨table, hmembers⟩ := @TransitionTable.exists_members_eq members (by decide)
  have hclosed : table.Closed := by
    intro i hi symbol
    rw [hmembers] at hi ⊢
    revert i
    cases symbol <;> decide
  obtain ⟨m, hm, hnever⟩ := closed_table_never_halts.1 Tape.blank table (.ofNat 0) hclosed
    (by rw [hmembers]; exact ⟨_, List.mem_cons_self, rfl, rfl⟩)
  obtain ⟨m', hm', hnever'⟩ := closed_table_never_halts.2.2 "0110" (by simp [TapeForm])
  refine ⟨table, m, m', ?_, hclosed, hm, hnever, hm', hnever'⟩
  rw [hmembers]
  rfl

end BinaryMachine
