import BinaryMachine.Proofs.Machine.Construction
import BinaryMachine.Proofs.Machine.Lockstep
import BinaryMachine.Proofs.Tape.Mirror

/-!
# Left and right

If a tape is built and a table is made with left and right exchanged, the machine
does everything the other way round and nothing else changes.  That cells are
counted and texts are written from the left end, and that a tape grows by different
code on its two sides, leaves no trace.
-/

namespace BinaryMachine

def Instruction.mirror (i : Instruction) : Instruction :=
  { i with action := i.action.mirror }

/-! ## Tables -/

namespace TransitionTable

variable {table table' : TransitionTable}

theorem exists_mirror (table : TransitionTable) :
    ∃ table', ofList (table.members.map Instruction.mirror) = .ok table' := by
  apply exists_ofList_of_pairwise
  rw [List.pairwise_map]
  exact table.distinct

theorem find?_mirror (h : table'.members = table.members.map Instruction.mirror)
    (id : StateId) (symbol : Symbol) :
    table'.find? id symbol = (table.find? id symbol).map Instruction.mirror := by
  rw [find?_eq_scan, find?_eq_scan, h, List.find?_map]
  rfl

theorem exists_initial_mirror (h : table'.members = table.members.map Instruction.mirror)
    (initialId : StateId) :
    (∃ i ∈ table'.members, i.id.value = initialId.value) ↔
      ∃ i ∈ table.members, i.id.value = initialId.value := by
  simp [h, Instruction.mirror]

end TransitionTable

namespace Machine

variable {m m' : Machine} {tape tape' : Tape} {table table' : TransitionTable}
  {initialId : StateId}

theorem optionRel_mirror_iff {found found' : Option Instruction} :
    Option.Rel (fun i i' => i' = i.mirror) found found' ↔
      found' = found.map Instruction.mirror := by
  cases found <;> cases found' <;> simp

theorem coupled_mirror (h : table'.members = table.members.map Instruction.mirror) :
    Coupled Head.Opposite (fun i i' => i' = i.mirror) table table' where
  act := by
    rintro tape head tape' head' i _ hopposite rfl
    exact hopposite.act i.action
  find? := by
    rintro tape head tape' head' i _ hopposite rfl
    rw [hopposite.read_eq, TransitionTable.find?_mirror h]
    exact optionRel_mirror_iff.2 rfl

/-- The second machine is the first one seen from the other side. -/
structure Mirrors (m m' : Machine) : Prop where
  outcome_eq : m'.outcome = m.outcome
  status_eq : m'.status = m.status
  steps_eq : m'.steps = m.steps
  size_eq : m'.history.size = m.history.size
  current_eq : m'.current = m.current.map Instruction.mirror
  tapeText_eq : m'.tapeText.toList = m.tapeText.toList.reverse
  width_eq : m'.tape.width = m.tape.width
  headIndex_add : m.headIndex + m'.headIndex + 1 = m.tape.width

theorem lockstep_mirror_of_start (htable : table'.members = table.members.map Instruction.mirror)
    (htapes : Head.Opposite tape (Head.atRoot tape) tape' (Head.atRoot tape'))
    (hm : start tape table initialId = .ok m) (hm' : start tape' table' initialId = .ok m') :
    Lockstep Head.Opposite (fun i i' => i' = i.mirror) m m' := by
  obtain ⟨-, rfl⟩ := start_eq_ok hm
  obtain ⟨-, rfl⟩ := start_eq_ok hm'
  constructor
  case view => exact htapes
  case status_eq => rfl
  case steps_eq => rfl
  case size_eq => simp
  case current =>
    simp only [htapes.read_eq, TransitionTable.find?_mirror htable]
    exact optionRel_mirror_iff.2 rfl

theorem Lockstep.mirrors (h : Lockstep Head.Opposite (fun i i' => i' = i.mirror) m m')
    (htable : m'.table.members = m.table.members.map Instruction.mirror) : m.Mirrors m' := by
  have himage := h.view.mirrorImage
  constructor
  case outcome_eq => exact h.outcome_after_eq (coupled_mirror htable) 0
  case status_eq => exact h.status_eq
  case steps_eq => exact h.steps_eq
  case size_eq => exact h.size_eq
  case current_eq => exact optionRel_mirror_iff.1 h.current
  case tapeText_eq => exact himage.text_eq
  case width_eq => exact himage.width_eq
  case headIndex_add => exact himage.index_add

/-- A tape built the other way round is the mirror image at every stage, and a machine with
the moves exchanged runs on it as its mirror image. -/
theorem runs_mirrored (actions : List Action) (table : TransitionTable) (initialId : StateId) :
    (∀ k, Head.MirrorImage (Tape.build (actions.take k)).1 (Tape.build (actions.take k)).2
      (Tape.build ((actions.map Action.mirror).take k)).1
      (Tape.build ((actions.map Action.mirror).take k)).2) ∧
    ∃ table', TransitionTable.ofList (table.members.map Instruction.mirror) = .ok table' ∧
      let tape := (Tape.build actions).1
      let tape' := (Tape.build (actions.map Action.mirror)).1
      ((∃ m m', start tape table initialId = .ok m ∧ start tape' table' initialId = .ok m' ∧
          ∀ n, (m.after n).Mirrors (m'.after n)) ∨
        (start tape table initialId = .error (.unknownInitial initialId) ∧
          start tape' table' initialId = .error (.unknownInitial initialId))) := by
  constructor
  · intro k
    rw [← List.map_take]
    exact (Tape.opposite_build (actions.take k)).mirrorImage
  · obtain ⟨table', htable'⟩ := table.exists_mirror
    have hmembers := (TransitionTable.ofList_eq_ok htable').1
    refine ⟨table', htable', ?_⟩
    intro tape tape'
    by_cases hinitial : ∃ i ∈ table.members, i.id.value = initialId.value
    · obtain ⟨m, hm⟩ := (@exists_start_iff tape table initialId).2 hinitial
      obtain ⟨m', hm'⟩ := (@exists_start_iff tape' table' initialId).2
        ((TransitionTable.exists_initial_mirror hmembers initialId).2 hinitial)
      have hlockstep :=
        lockstep_mirror_of_start hmembers (Tape.opposite_build actions).atRoot hm hm'
      have htables : m'.table.members = m.table.members.map Instruction.mirror := by
        rw [table_of_start hm, table_of_start hm', hmembers]
      refine .inl ⟨m, m', hm, hm', ?_⟩
      intro n
      apply (hlockstep.after (coupled_mirror htables) n).mirrors
      rwa [table_after, table_after]
    · have hinitial' := mt (TransitionTable.exists_initial_mirror hmembers initialId).1 hinitial
      exact .inr ⟨start_eq_error_iff.2 ⟨hinitial, rfl⟩, start_eq_error_iff.2 ⟨hinitial', rfl⟩⟩

end Machine

end BinaryMachine
