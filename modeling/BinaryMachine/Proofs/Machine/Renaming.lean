import Mathlib.Data.List.Forall2
import BinaryMachine.Proofs.Machine.Construction

/-!
# What a run does not depend on

The cells of a tape may have been created in any order, the instructions may be
listed in any order, and the states may be named by other numbers with any leading
zeros.  Two machines that differ in nothing else run side by side: their tapes lie
on one line, their heads stand at one position, and the instructions that they
find belong together.
-/

namespace BinaryMachine

/-! ## Renaming the states -/

/-- The instruction does the same between states with other numbers.  How the
numerals are written is left open. -/
structure Instruction.RenamedBy (rename : Nat → Nat) (i i' : Instruction) : Prop where
  id_eq : i'.id.value = rename i.id.value
  condition_eq : i'.condition = i.condition
  action_eq : i'.action = i.action
  next_eq : i'.next.value = rename i.next.value

/-- The numbers of all states that occur. -/
def mentionedStates (members : List Instruction) (initialId : StateId) : List Nat :=
  initialId.value :: members.flatMap fun i => [i.id.value, i.next.value]

/-- The instructions of two lists in pairs.  The second one of a pair is the first
one renamed, and states that were different are still different. -/
structure Renaming (rename : Nat → Nat) (pairs : List (Instruction × Instruction))
    (members members' : List Instruction) (initialId initialId' : StateId) : Prop where
  left_perm : (pairs.map Prod.fst).Perm members
  right_perm : (pairs.map Prod.snd).Perm members'
  renamed : ∀ pair ∈ pairs, pair.1.RenamedBy rename pair.2
  initial_eq : initialId'.value = rename initialId.value
  injective : ∀ a ∈ mentionedStates members initialId, ∀ b ∈ mentionedStates members initialId,
    rename a = rename b → a = b

theorem initialId_mem_mentionedStates (members : List Instruction) (initialId : StateId) :
    initialId.value ∈ mentionedStates members initialId := List.mem_cons_self

theorem id_mem_mentionedStates {members : List Instruction} {i : Instruction} (h : i ∈ members)
    (initialId : StateId) : i.id.value ∈ mentionedStates members initialId :=
  List.mem_cons_of_mem _ (List.mem_flatMap.2 ⟨i, h, by simp⟩)

theorem next_mem_mentionedStates {members : List Instruction} {i : Instruction} (h : i ∈ members)
    (initialId : StateId) : i.next.value ∈ mentionedStates members initialId :=
  List.mem_cons_of_mem _ (List.mem_flatMap.2 ⟨i, h, by simp⟩)

namespace Renaming

variable {rename : Nat → Nat} {pairs : List (Instruction × Instruction)}
  {members members' : List Instruction} {initialId initialId' : StateId}
  {i i' : Instruction}

theorem left_mem (h : Renaming rename pairs members members' initialId initialId')
    (hpair : (i, i') ∈ pairs) : i ∈ members :=
  h.left_perm.subset (List.mem_map_of_mem hpair)

theorem right_mem (h : Renaming rename pairs members members' initialId initialId')
    (hpair : (i, i') ∈ pairs) : i' ∈ members' :=
  h.right_perm.subset (List.mem_map_of_mem hpair)

theorem exists_right (h : Renaming rename pairs members members' initialId initialId')
    (hi : i ∈ members) : ∃ i', (i, i') ∈ pairs := by
  simpa using h.left_perm.symm.subset hi

theorem exists_left (h : Renaming rename pairs members members' initialId initialId')
    (hi' : i' ∈ members') : ∃ i, (i, i') ∈ pairs := by
  simpa using h.right_perm.symm.subset hi'

theorem value_eq_iff (h : Renaming rename pairs members members' initialId initialId')
    (hpair : (i, i') ∈ pairs) {id id' : StateId}
    (hid : id.value ∈ mentionedStates members initialId) (hid' : id'.value = rename id.value) :
    i'.id.value = id'.value ↔ i.id.value = id.value := by
  rw [(h.renamed _ hpair).id_eq, hid']
  constructor
  · exact h.injective _ (id_mem_mentionedStates (h.left_mem hpair) initialId) _ hid
  · exact congrArg rename

theorem pairwise (h : Renaming rename pairs members members' initialId initialId')
    (hdistinct : members.Pairwise fun a b => ¬ a.Collides b) :
    members'.Pairwise fun a b => ¬ a.Collides b := by
  have hsymm : ∀ {a b : Instruction}, ¬ a.Collides b → ¬ b.Collides a := by
    intro a b hab hba
    exact hab ⟨hba.1.symm, hba.2.symm⟩
  rw [← h.left_perm.pairwise_iff hsymm, List.pairwise_map] at hdistinct
  rw [← h.right_perm.pairwise_iff hsymm, List.pairwise_map]
  apply hdistinct.imp_of_mem
  rintro ⟨a, a'⟩ ⟨b, b'⟩ ha hb hab ⟨hstate, hcondition⟩
  apply hab
  have hb_eq := h.renamed _ hb
  have hvalue := (h.value_eq_iff ha (id_mem_mentionedStates (h.left_mem hb) initialId)
    hb_eq.id_eq).1 (StateId.same_iff_value_eq.1 hstate)
  refine ⟨StateId.same_iff_value_eq.2 hvalue, ?_⟩
  rw [← (h.renamed _ ha).condition_eq, ← hb_eq.condition_eq]
  exact hcondition

variable {table table' : TransitionTable}

/-- Under states that belong together, instructions that belong together are found. -/
theorem find? (h : Renaming rename pairs table.members table'.members initialId initialId')
    {id id' : StateId} (hid : id.value ∈ mentionedStates table.members initialId)
    (hid' : id'.value = rename id.value) (symbol : Symbol) :
    Option.Rel (fun i i' => (i, i') ∈ pairs) (table.find? id symbol)
      (table'.find? id' symbol) := by
  have hfound : ∀ {i i'}, (i, i') ∈ pairs →
      (table.find? id symbol = some i ↔ table'.find? id' symbol = some i') := by
    intro i i' hpair
    rw [TransitionTable.find?_eq_some_iff, TransitionTable.find?_eq_some_iff,
      h.value_eq_iff hpair hid hid', (h.renamed _ hpair).condition_eq]
    simp [h.left_mem hpair, h.right_mem hpair]
  cases hleft : table.find? id symbol with
  | some i =>
      obtain ⟨i', hpair⟩ := h.exists_right (TransitionTable.mem_of_find? hleft).1
      rw [(hfound hpair).1 hleft]
      exact .some hpair
  | none =>
      cases hright : table'.find? id' symbol with
      | none => exact .none
      | some i' =>
          -- Then the first one of its pair would have been found.
          obtain ⟨i, hpair⟩ := h.exists_left (TransitionTable.mem_of_find? hright).1
          rw [(hfound hpair).2 hright] at hleft
          contradiction

theorem exists_initial_iff (h : Renaming rename pairs members members' initialId initialId') :
    (∃ i' ∈ members', i'.id.value = initialId'.value) ↔
      ∃ i ∈ members, i.id.value = initialId.value := by
  have hinitial := fun {i i'} (hpair : (i, i') ∈ pairs) =>
    h.value_eq_iff hpair (initialId_mem_mentionedStates members initialId) h.initial_eq
  constructor
  · rintro ⟨i', hi', hvalue⟩
    obtain ⟨i, hpair⟩ := h.exists_left hi'
    exact ⟨i, h.left_mem hpair, (hinitial hpair).1 hvalue⟩
  · rintro ⟨i, hi, hvalue⟩
    obtain ⟨i', hpair⟩ := h.exists_right hi
    exact ⟨i', h.right_mem hpair, (hinitial hpair).2 hvalue⟩

end Renaming

/-! ## Machines side by side -/

/-- What is seen in two snapshots is the same, but for the instructions, which
belong together. -/
structure Snapshot.Alike (R : Instruction → Instruction → Prop) (s s' : Snapshot) : Prop where
  tape_eq : s'.tape = s.tape
  headIndex_eq : s'.headIndex = s.headIndex
  instruction : Option.Rel R s.instruction s'.instruction

/-- Instructions that belong together do the same, and so do their successors. -/
structure TransitionTable.Matched (R : Instruction → Instruction → Prop)
    (table table' : TransitionTable) : Prop where
  action_eq : ∀ {i i'}, R i i' → i'.action = i.action
  find?_next : ∀ {i i'}, R i i' → ∀ symbol,
    Option.Rel R (table.find? i.next symbol) (table'.find? i'.next symbol)

theorem Renaming.matched {rename : Nat → Nat} {pairs : List (Instruction × Instruction)}
    {table table' : TransitionTable} {initialId initialId' : StateId}
    (h : Renaming rename pairs table.members table'.members initialId initialId') :
    TransitionTable.Matched (fun i i' => (i, i') ∈ pairs) table table' where
  action_eq := fun hpair => (h.renamed _ hpair).action_eq
  find?_next := fun hpair =>
    h.find? (next_mem_mentionedStates (h.left_mem hpair) initialId) (h.renamed _ hpair).next_eq

namespace Machine

variable {R : Instruction → Instruction → Prop} {m m' : Machine} {line : Line} {p : Int}
  {i i' : Instruction}

/-- Nothing but the instructions tells the two machines apart, and these belong together. -/
structure Alike (R : Instruction → Instruction → Prop) (m m' : Machine) : Prop where
  outcome_eq : m'.outcome = m.outcome
  status_eq : m'.status = m.status
  steps_eq : m'.steps = m.steps
  tapeText_eq : m'.tapeText = m.tapeText
  headIndex_eq : m'.headIndex = m.headIndex
  size_eq : m'.history.size = m.history.size
  current : Option.Rel R m.current m'.current
  history : List.Forall₂ (Snapshot.Alike R) m.history.toList m'.history.toList

/-- The tapes lie on one line and the heads stand at one position of it. -/
structure Beside (R : Instruction → Instruction → Prop) (line : Line) (p : Int)
    (m m' : Machine) : Prop where
  tracks : m.Tracks line p
  tracks' : m'.Tracks line p
  status_eq : m'.status = m.status
  steps_eq : m'.steps = m.steps
  current : Option.Rel R m.current m'.current
  history : List.Forall₂ (Snapshot.Alike R) m.history.toList m'.history.toList

namespace Beside

theorem snapshot (h : Beside R line p m m') : m.snapshot.Alike R m'.snapshot where
  tape_eq := h.tracks'.tapeText_eq.trans h.tracks.tapeText_eq.symm
  headIndex_eq := h.tracks'.headIndex_eq_toNat.trans h.tracks.headIndex_eq_toNat.symm
  instruction := h.current

theorem read_eq (h : Beside R line p m m') : m'.head.read m'.tape = m.head.read m.tape :=
  h.tracks'.read_eq.trans h.tracks.read_eq.symm

theorem record (h : Beside R line p m m') : Beside R line p m.record m'.record where
  tracks := h.tracks
  tracks' := h.tracks'
  status_eq := h.status_eq
  steps_eq := h.steps_eq
  current := h.current
  history := by
    simp only [Machine.record, History.toList_push]
    exact List.rel_append h.history (.cons h.snapshot .nil)

theorem halt (h : Beside R line p m m') :
    Beside R line p { m with status := .halted } { m' with status := .halted } where
  tracks := h.tracks
  tracks' := h.tracks'
  status_eq := rfl
  steps_eq := h.steps_eq
  current := h.current
  history := h.history

theorem execute (h : Beside R line p m m') (haction : i'.action = i.action) :
    Beside R (line.act p i.action).1 (line.act p i.action).2 (m.execute i) (m'.execute i') := by
  have htracks' := h.tracks'.execute i'
  rw [haction] at htracks'
  -- The snapshot is taken when both heads have acted.
  apply record
  exact
    { tracks := h.tracks.execute i
      tracks' := htracks'
      status_eq := h.status_eq
      steps_eq := congrArg (· + 1) h.steps_eq
      current := h.current
      history := h.history }

theorem goOn (h : Beside R line p m m') (hmatched : m.table.Matched R m'.table) (hi : R i i') :
    Beside R line p (m.goOn i).1 (m'.goOn i').1 := by
  have hfind := hmatched.find?_next hi (m.head.read m.tape)
  simp only [Machine.goOn, h.read_eq]
  generalize m.table.find? i.next (m.head.read m.tape) = found at hfind ⊢
  generalize m'.table.find? i'.next (m.head.read m.tape) = found' at hfind ⊢
  cases hfind with
  | none => exact h.halt
  | some hj => exact ⟨h.tracks, h.tracks', h.status_eq, h.steps_eq, .some hj, h.history⟩

/-- Both machines halt, or both execute instructions that belong together. -/
theorem next (h : Beside R line p m m') (hmatched : m.table.Matched R m'.table) :
    ∃ line' p', Beside R line' p' m.next m'.next := by
  cases hstatus : m.status with
  | halted =>
      rw [next_of_halted hstatus, next_of_halted (h.status_eq.trans hstatus)]
      exact ⟨line, p, h⟩
  | running =>
      have hcurrent := h.current
      rw [next_of_running hstatus, next_of_running (h.status_eq.trans hstatus)]
      generalize m.current = current at hcurrent ⊢
      generalize m'.current = current' at hcurrent ⊢
      cases hcurrent with
      | none => exact ⟨line, p, h.record.halt⟩
      | some hi => exact ⟨_, _, (h.execute (hmatched.action_eq hi)).goOn hmatched hi⟩

theorem after (h : Beside R line p m m') (hmatched : m.table.Matched R m'.table) (n : Nat) :
    ∃ line' p', Beside R line' p' (m.after n) (m'.after n) := by
  induction n with
  | zero => exact ⟨line, p, h⟩
  | succ n ih =>
      obtain ⟨line', p', hn⟩ := ih
      apply hn.next
      rwa [table_after, table_after]

theorem alike (h : Beside R line p m m') (hmatched : m.table.Matched R m'.table) :
    m.Alike R m' where
  outcome_eq := by
    obtain ⟨_, _, hnext⟩ := h.next hmatched
    rw [outcome_eq, outcome_eq, h.status_eq, hnext.status_eq]
  status_eq := h.status_eq
  steps_eq := h.steps_eq
  tapeText_eq := h.snapshot.tape_eq
  headIndex_eq := h.snapshot.headIndex_eq
  size_eq := by
    rw [History.size_eq_length, History.size_eq_length, h.history.length_eq]
  current := h.current
  history := h.history

end Beside

/-! ## Starting and running -/

variable {rename : Nat → Nat} {pairs : List (Instruction × Instruction)} {tape tape' : Tape}
  {table : TransitionTable} {members' : List Instruction} {initialId initialId' : StateId}

theorem exists_beside_of_start (htape : tape.Reachable) (htape' : tape'.Reachable)
    (htext : tape'.text = tape.text)
    (hroot : (Head.atRoot tape').index tape' = (Head.atRoot tape).index tape)
    {table' : TransitionTable}
    (hrenaming : Renaming rename pairs table.members table'.members initialId initialId')
    (hm : start tape table initialId = .ok m) (hm' : start tape' table' initialId' = .ok m') :
    ∃ line, Beside (fun i i' => (i, i') ∈ pairs) line 0 m m' := by
  obtain ⟨place, line, hlayout⟩ := htape.layout
  obtain ⟨place', line', hlayout'⟩ := htape'.layout
  obtain rfl : line' = line := hlayout.line_eq hlayout' htext hroot
  obtain ⟨-, rfl⟩ := start_eq_ok hm
  obtain ⟨-, rfl⟩ := start_eq_ok hm'
  have hread : (Head.atRoot tape').read tape' = (Head.atRoot tape).read tape := by
    rw [hlayout.read_eq hlayout.atRoot, hlayout'.read_eq hlayout'.atRoot]
  refine ⟨line', ⟨place, hlayout, hlayout.atRoot⟩, ⟨place', hlayout', hlayout'.atRoot⟩,
    rfl, rfl, ?_, .cons ⟨htext, hroot, .none⟩ .nil⟩
  rw [hread]
  exact hrenaming.find? (initialId_mem_mentionedStates _ _) hrenaming.initial_eq _

/-- Only the meaning of the tape, of the instructions and of the ids decides on a run. -/
theorem runs_alike (htape : tape.Reachable) (htape' : tape'.Reachable)
    (htext : tape'.text = tape.text)
    (hroot : (Head.atRoot tape').index tape' = (Head.atRoot tape).index tape)
    (hrenaming : Renaming rename pairs table.members members' initialId initialId') :
    ∃ table', TransitionTable.ofList members' = .ok table' ∧
      ((∃ m m', start tape table initialId = .ok m ∧ start tape' table' initialId' = .ok m' ∧
          ∀ n, (m.after n).Alike (fun i i' => (i, i') ∈ pairs) (m'.after n)) ∨
        (start tape table initialId = .error (.unknownInitial initialId) ∧
          start tape' table' initialId' = .error (.unknownInitial initialId'))) := by
  obtain ⟨table', htable'⟩ :=
    TransitionTable.exists_ofList_of_pairwise (hrenaming.pairwise table.distinct)
  obtain ⟨rfl, -⟩ := TransitionTable.ofList_eq_ok htable'
  refine ⟨table', htable', ?_⟩
  by_cases hinitial : ∃ i ∈ table.members, i.id.value = initialId.value
  · obtain ⟨m, hm⟩ := (@exists_start_iff tape table initialId).2 hinitial
    obtain ⟨m', hm'⟩ := (@exists_start_iff tape' table' initialId').2
      (hrenaming.exists_initial_iff.2 hinitial)
    obtain ⟨line, hbeside⟩ :=
      exists_beside_of_start htape htape' htext hroot hrenaming hm hm'
    have hmatched : m.table.Matched (fun i i' => (i, i') ∈ pairs) m'.table := by
      obtain ⟨-, rfl⟩ := start_eq_ok hm
      obtain ⟨-, rfl⟩ := start_eq_ok hm'
      exact hrenaming.matched
    refine .inl ⟨m, m', hm, hm', ?_⟩
    intro n
    obtain ⟨_, _, hn⟩ := hbeside.after hmatched n
    apply hn.alike
    rwa [table_after, table_after]
  · exact .inr ⟨start_eq_error_iff.2 ⟨hinitial, rfl⟩,
      start_eq_error_iff.2 ⟨fun h => hinitial (hrenaming.exists_initial_iff.1 h), rfl⟩⟩

/-- The states `0` and `1` become `5` and `7`, and the list is turned round.  One tape
grew to the left first, the other one to the right. -/
theorem runs_alike_with_other_numerals :
    ∃ (tape tape' : Tape) (pairs : List (Instruction × Instruction))
      (table table' : TransitionTable) (m m' : Machine),
      tape ≠ tape' ∧
      pairs.map (fun pair => pair.1.text) = ["0,0,R,1", "1,0,1,1"] ∧
      pairs.map (fun pair => pair.2.text) = ["005,0,R,7", "7,0,1,07"] ∧
      TransitionTable.ofList (pairs.map Prod.fst) = .ok table ∧
      TransitionTable.ofList (pairs.map Prod.snd).reverse = .ok table' ∧
      start tape table (.ofNat 0) = .ok m ∧ start tape' table' (.ofNat 5) = .ok m' ∧
      ∀ n, (m.after n).Alike (fun i i' => (i, i') ∈ pairs) (m'.after n) := by
  let tape := ((Session.on Tape.blank).performEach [.move .left, .newHead, .move .right]).tape
  let tape' := ((Session.on (Tape.ofSymbols [.zero, .zero])).performEach [.move .left]).tape
  let pairs : List (Instruction × Instruction) :=
    [(⟨.ofNat 0, .zero, .move .right, .ofNat 1⟩,
        ⟨⟨['0', '0', '5'], List.cons_ne_nil _ _, List.all_eq_true.1 rfl⟩,
          .zero, .move .right, .ofNat 7⟩),
      (⟨.ofNat 1, .zero, .write .one, .ofNat 1⟩,
        ⟨.ofNat 7, .zero, .write .one,
          ⟨['0', '7'], List.cons_ne_nil _ _, List.all_eq_true.1 rfl⟩⟩)]
  have htape : tape.Reachable := ⟨⟨none, [.move .left, .newHead, .move .right]⟩, _, rfl, rfl⟩
  have htape' : tape'.Reachable := ⟨⟨some "00", [.move .left]⟩, _, rfl, rfl⟩
  obtain ⟨table, htable⟩ : ∃ table, TransitionTable.ofList (pairs.map Prod.fst) = .ok table :=
    TransitionTable.exists_ofList_of_pairwise (by decide)
  have hmembers := (TransitionTable.ofList_eq_ok htable).1
  have hrenaming : Renaming (fun value => if value = 0 then 5 else 7) pairs table.members
      (pairs.map Prod.snd).reverse (.ofNat 0) (.ofNat 5) := by
    rw [hmembers]
    exact
      { left_perm := .refl _
        right_perm := (List.reverse_perm _).symm
        renamed := by
          simp only [pairs, List.forall_mem_cons]
          exact ⟨⟨rfl, rfl, rfl, rfl⟩, ⟨rfl, rfl, rfl, rfl⟩, List.forall_mem_nil _⟩
        initial_eq := rfl
        injective := by decide }
  obtain ⟨table', htable', ⟨m, m', hm, hm', halike⟩ | ⟨herror, -⟩⟩ :=
    runs_alike htape htape' rfl rfl hrenaming
  · exact ⟨tape, tape', pairs, table, table', m, m', by decide, rfl, rfl, htable, htable', hm, hm',
      halike⟩
  · have hinitial := (start_eq_error_iff.1 herror).1
    rw [hmembers] at hinitial
    exact absurd ⟨_, List.mem_cons_self, rfl⟩ hinitial

end Machine

end BinaryMachine
