import BinaryMachine.Proofs.Machine.Calls

/-!
# Machines in lockstep

Two machines may differ in their tapes and in their tables, as long as what they
do next stays related: related instructions keep the tapes related, and after
them related instructions are found.  Then the machines execute one instruction
each, or both halt, in every step of a run.
-/

namespace BinaryMachine

theorem optionRel_eq_iff {α : Type} {a b : Option α} : Option.Rel Eq a b ↔ a = b := by
  cases a <;> cases b <;> simp

namespace Machine

/-- Relates a tape and a head on it to another tape and a head on that one. -/
abbrev View := Tape → Head → Tape → Head → Prop

/-- The tapes are related by `V` and the current instructions by `R`; what is
counted is the same. -/
structure Lockstep (V : View) (R : Instruction → Instruction → Prop) (m m' : Machine) :
    Prop where
  view : V m.tape m.head m'.tape m'.head
  status_eq : m'.status = m.status
  steps_eq : m'.steps = m.steps
  size_eq : m'.history.size = m.history.size
  current : Option.Rel R m.current m'.current

/-- Related instructions do related things and have related successors. -/
structure Coupled (V : View) (R : Instruction → Instruction → Prop)
    (table table' : TransitionTable) : Prop where
  act : ∀ {tape head tape' head' i i'}, V tape head tape' head' → R i i' →
    V (head.act tape i.action).1 (head.act tape i.action).2
      (head'.act tape' i'.action).1 (head'.act tape' i'.action).2
  find? : ∀ {tape head tape' head' i i'}, V tape head tape' head' → R i i' →
    Option.Rel R (table.find? i.next (head.read tape)) (table'.find? i'.next (head'.read tape'))

namespace Lockstep

variable {V : View} {R : Instruction → Instruction → Prop} {m m' : Machine}
  {i i' : Instruction}

theorem record (h : Lockstep V R m m') : Lockstep V R m.record m'.record where
  view := h.view
  status_eq := h.status_eq
  steps_eq := h.steps_eq
  size_eq := by simp [Machine.record, h.size_eq]
  current := h.current

theorem halt (h : Lockstep V R m m') :
    Lockstep V R { m with status := .halted } { m' with status := .halted } where
  view := h.view
  status_eq := rfl
  steps_eq := h.steps_eq
  size_eq := h.size_eq
  current := h.current

theorem execute (h : Lockstep V R m m') (hcoupled : Coupled V R m.table m'.table)
    (hi : R i i') : Lockstep V R (m.execute i) (m'.execute i') := by
  apply record
  exact
    { view := hcoupled.act h.view hi
      status_eq := h.status_eq
      steps_eq := congrArg (· + 1) h.steps_eq
      size_eq := h.size_eq
      current := h.current }

theorem goOn (h : Lockstep V R m m') (hcoupled : Coupled V R m.table m'.table)
    (hi : R i i') : Lockstep V R (m.goOn i).1 (m'.goOn i').1 := by
  have hfind := hcoupled.find? h.view hi
  simp only [Machine.goOn]
  generalize m.table.find? i.next (m.head.read m.tape) = found at hfind ⊢
  generalize m'.table.find? i'.next (m'.head.read m'.tape) = found' at hfind ⊢
  cases hfind with
  | none => exact h.halt
  | some hj => exact ⟨h.view, h.status_eq, h.steps_eq, h.size_eq, .some hj⟩

theorem next (h : Lockstep V R m m') (hcoupled : Coupled V R m.table m'.table) :
    Lockstep V R m.next m'.next := by
  cases hstatus : m.status with
  | halted =>
      rw [next_of_halted hstatus, next_of_halted (h.status_eq.trans hstatus)]
      exact h
  | running =>
      have hcurrent := h.current
      rw [next_of_running hstatus, next_of_running (h.status_eq.trans hstatus)]
      generalize m.current = current at hcurrent ⊢
      generalize m'.current = current' at hcurrent ⊢
      cases hcurrent with
      | none => exact h.record.halt
      | some hi => exact (h.execute hcoupled hi).goOn hcoupled hi

theorem after (h : Lockstep V R m m') (hcoupled : Coupled V R m.table m'.table) (n : Nat) :
    Lockstep V R (m.after n) (m'.after n) := by
  induction n with
  | zero => exact h
  | succ n ih =>
      apply ih.next
      rwa [table_after, table_after]

theorem outcome_after_eq (h : Lockstep V R m m') (hcoupled : Coupled V R m.table m'.table)
    (n : Nat) : (m'.after n).outcome = (m.after n).outcome := by
  have hstatus := (h.after hcoupled n).status_eq
  have hnext : (m'.after n).next.status = (m.after n).next.status :=
    (h.after hcoupled (n + 1)).status_eq
  rw [outcome_eq, outcome_eq, hstatus, hnext]

theorem current_eq (h : Lockstep V Eq m m') : m'.current = m.current :=
  (optionRel_eq_iff.1 h.current).symm

end Lockstep

end Machine

end BinaryMachine
