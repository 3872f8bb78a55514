import BinaryMachine.Proofs.Machine.Calls

/-!
# The history of a run can be replayed

An instruction acts on a text and an index into it by a rule that knows nothing
of cells or heads.  Every snapshot of a history is what this rule makes of the
snapshot before, under an instruction that applies there.  So the first snapshot
and the instructions say what all the others are.  There is one for the start and one
more for every step that is not refused.
-/

namespace BinaryMachine

/-! ## Actions on a text -/

/-- What an action does to a text and the index of the head in it.  Off an end
the text grows by a blank. -/
def Action.onText : Action → List Char × Nat → List Char × Nat
  | .write symbol, (text, index) => (text.set index symbol.char, index)
  | .move .left, (text, 0) => (Symbol.zero.char :: text, 0)
  | .move .left, (text, index + 1) => (text, index)
  | .move .right, (text, index) =>
      (if index + 1 = text.length then text ++ [Symbol.zero.char] else text, index + 1)

theorem Line.onText_act (line : Line) {p : Int} (hlo : line.lo ≤ p) (hhi : p ≤ line.hi)
    (hblank : ∀ q, q < line.lo ∨ line.hi < q → line.symbol q = .zero) (action : Action) :
    action.onText (line.text.toList, (p - line.lo).toNat) =
      ((line.act p action).1.text.toList,
        ((line.act p action).2 - (line.act p action).1.lo).toNat) := by
  have hlength := line.length_symbols
  simp only [text, String.toList_ofList]
  cases action with
  | write symbol =>
      simp only [Action.onText, act, lo_write, line.symbols_write hlo, List.map_set]
  | move d =>
      cases d with
      | left =>
          by_cases hend : p = line.lo
          · subst hend
            have hgrown := line.symbols_stand_left hhi
            rw [hblank _ (.inl (by omega))] at hgrown
            simp only [Action.onText, act, Direction.offset, Int.sub_self, Int.toNat_zero]
            rw [← Int.sub_eq_add_neg, hgrown, lo_stand, min_eq_right (by omega)]
            simp
          · obtain ⟨index, hindex⟩ : ∃ index, (p - line.lo).toNat = index + 1 :=
              Nat.exists_eq_add_one.2 (by omega)
            simp only [act, Direction.offset, hindex, Action.onText]
            rw [line.stand_of_mem (by omega) (by omega)]
            congr 1
            omega
      | right =>
          by_cases hend : p = line.hi
          · subst hend
            have hgrown := line.symbols_stand_right hlo
            rw [hblank _ (.inr (by omega))] at hgrown
            simp only [Action.onText, act, Direction.offset, List.length_map, hlength]
            rw [if_pos (by omega), hgrown, lo_stand, min_eq_left (by omega)]
            simp only [List.map_append, List.map_cons, List.map_nil]
            congr 1
            omega
          · simp only [Action.onText, act, Direction.offset, List.length_map, hlength]
            rw [if_neg (by omega), line.stand_of_mem (by omega) (by omega)]
            congr 1
            omega

theorem Machine.Tracks.onText_execute {m : Machine} {line : Line} {p : Int}
    (h : m.Tracks line p) (i : Instruction) :
    i.action.onText (m.tapeText.toList, m.headIndex) =
      ((m.execute i).tapeText.toList, (m.execute i).headIndex) := by
  have hexecute := h.execute i
  rw [h.tapeText_eq, h.headIndex_eq_toNat, hexecute.tapeText_eq, hexecute.headIndex_eq_toNat]
  exact line.onText_act h.mem.1 h.mem.2 (fun q hq => h.blank_outside hq) i.action

/-! ## Histories that can be replayed -/

/-- The state that a snapshot leaves the machine in. -/
def Snapshot.stateAfter (initialId : StateId) (e : Snapshot) : StateId :=
  (e.instruction.map Instruction.next).getD initialId

/-- Executing `i` where `e` was taken leads to where `e'` was taken. -/
structure Snapshot.Leads (table : TransitionTable) (initialId : StateId) (e : Snapshot)
    (i : Instruction) (e' : Snapshot) : Prop where
  instruction_eq : e'.instruction = some i
  mem : i ∈ table.members
  condition_eq : e.tape.toList[e.headIndex]? = some i.condition.char
  state_eq : i.id.value = (e.stateAfter initialId).value
  text_eq : (e'.tape.toList, e'.headIndex) = i.action.onText (e.tape.toList, e.headIndex)

namespace History

variable {history : History} {e e' : Snapshot}

theorem get?_push : (history.push e).get? k = some e' ↔
    history.get? k = some e' ∨ k = history.size ∧ e' = e := by
  simp only [get?, toList_push, size_eq_length]
  rcases Nat.lt_trichotomy k history.toList.length with hlt | rfl | hgt
  · rw [List.getElem?_append_left hlt]
    constructor
    · exact .inl
    · rintro (hold | ⟨hlast, -⟩)
      · exact hold
      · omega
  · simp [eq_comm]
  · have hnone : (history.toList ++ [e])[k]? = none := by
      rw [List.getElem?_eq_none_iff, List.length_append, List.length_singleton]
      omega
    have hnone' : history.toList[k]? = none := by
      rw [List.getElem?_eq_none_iff]
      omega
    rw [hnone, hnone']
    constructor
    · exact nofun
    · rintro (hold | ⟨hlast, -⟩)
      · contradiction
      · omega

theorem lt_size_of_get? {k : Nat} (h : history.get? k = some e) : k < history.size := by
  rw [size_eq_length]
  exact (List.getElem?_eq_some_iff.1 h).1

theorem get?_of_last? (h : history.last? = some e) {k : Nat} (hk : k + 1 = history.size) :
    history.get? k = some e := by
  rw [last?_eq_getLast?, List.getLast?_eq_getElem?, ← size_eq_length, ← hk] at h
  exact h

/-- Every snapshot but the first is led to by the one before it. -/
structure Replays (history : History) (table : TransitionTable) (initialId : StateId)
    (first : Snapshot) : Prop where
  first_eq : history.get? 0 = some first
  leads : ∀ k e e', history.get? k = some e → history.get? (k + 1) = some e' →
    ∃ i, e.Leads table initialId i e'

theorem Replays.exists_instruction {table : TransitionTable} {initialId : StateId}
    {first : Snapshot} (h : history.Replays table initialId first) {k : Nat} (hk : 0 < k)
    (he : history.get? k = some e) : ∃ i, e.instruction = some i := by
  obtain ⟨k, rfl⟩ := Nat.exists_eq_add_one.2 hk
  have hlt := lt_size_of_get? he
  rw [size_eq_length] at hlt
  obtain ⟨i, hleads⟩ := h.leads k _ e (List.getElem?_eq_getElem (Nat.lt_of_succ_lt hlt)) he
  exact ⟨i, hleads.instruction_eq⟩

theorem Replays.push {table : TransitionTable} {initialId : StateId} {first : Snapshot}
    {i : Instruction} (h : history.Replays table initialId first)
    (hlast : history.last? = some e) (hleads : e.Leads table initialId i e') :
    (history.push e').Replays table initialId first where
  first_eq := get?_push.2 (.inl h.first_eq)
  leads := by
    intro k a b ha hb
    rcases get?_push.1 hb with hb | ⟨hk, rfl⟩
    · rcases get?_push.1 ha with ha | ⟨hk, -⟩
      · exact h.leads k a b ha hb
      · have := lt_size_of_get? hb
        omega
    · -- The only new pair is the last snapshot and the one added to it.
      rcases get?_push.1 ha with ha | ⟨hk', -⟩
      · rw [get?_of_last? hlast hk] at ha
        cases ha
        exact ⟨i, hleads⟩
      · omega

end History

namespace Machine

/-- The snapshot taken last is of the machine as it is, and the instruction that is
current applies to it. -/
structure Ready (m : Machine) (e : Snapshot) : Prop where
  last?_eq : m.history.last? = some e
  tape_eq : e.tape = m.tapeText
  headIndex_eq : e.headIndex = m.headIndex
  current : ∀ i, m.status = .running → m.current = some i →
    i ∈ m.table.members ∧ i.id.value = (e.stateAfter m.initialId).value ∧
      i.condition = m.head.read m.tape

/-- What holds of the history of a machine that has been started with the snapshot
`first`.  A machine that has had no instruction to begin with has its halt
recorded by the same snapshot once more. -/
structure Recorded (m : Machine) (first : Snapshot) : Prop where
  tracks : ∃ line p, m.Tracks line p
  first_instruction : first.instruction = none
  ready : ∃ e, m.Ready e
  replays : m.history.Replays m.table m.initialId first ∨
    m.status = .halted ∧ m.history.toList = [first, first]
  waiting : m.status = .running → m.current = none → m.history.toList = [first]
  size_eq : m.history.size = if m.status = .halted ∧ m.current = none then 2 else m.steps + 1

namespace Recorded

variable {m : Machine} {first : Snapshot}

theorem execute_tracks (h : m.Recorded first) (i : Instruction) :
    ∃ line p, (m.execute i).Tracks line p := by
  obtain ⟨line, p, htracks⟩ := h.tracks
  exact ⟨_, _, htracks.execute i⟩

theorem execute_replays (h : m.Recorded first) {i : Instruction} (hstatus : m.status = .running)
    (hcurrent : m.current = some i) :
    (m.execute i).history.Replays m.table m.initialId first := by
  obtain ⟨line, p, htracks⟩ := h.tracks
  obtain ⟨e, hready⟩ := h.ready
  obtain ⟨hmem, hstate, hcondition⟩ := hready.current i hstatus hcurrent
  have hreplays : m.history.Replays m.table m.initialId first := by
    rcases h.replays with hreplays | ⟨hhalted, -⟩
    · exact hreplays
    · rw [hstatus] at hhalted
      contradiction
  refine hreplays.push hready.last?_eq ⟨hcurrent, hmem, ?_, hstate, ?_⟩
  · rw [hready.tape_eq, hready.headIndex_eq, hcondition]
    exact htracks.getElem?_tapeText
  · rw [hready.tape_eq, hready.headIndex_eq]
    exact (htracks.onText_execute i).symm

theorem first_eq (h : m.Recorded first) : m.history.get? 0 = some first := by
  rcases h.replays with hreplays | ⟨-, htwo⟩
  · exact hreplays.first_eq
  · rw [History.get?, htwo]
    rfl

theorem consecutive (h : m.Recorded first) {k : Nat} {e e' : Snapshot}
    (he : m.history.get? k = some e) (he' : m.history.get? (k + 1) = some e') :
    match e'.instruction with
    | some i =>
        i ∈ m.table.members ∧
        e.tape.toList[e.headIndex]? = some i.condition.char ∧
        (k = 0 → i.id.value = m.initialId.value) ∧
        (0 < k → ∃ j, e.instruction = some j ∧ i.id.value = j.next.value) ∧
        (e'.tape.toList, e'.headIndex) = i.action.onText (e.tape.toList, e.headIndex)
    | none =>
        k = 0 ∧ m.history.size = 2 ∧ m.status = .halted ∧
        e'.tape = e.tape ∧ e'.headIndex = e.headIndex := by
  rcases h.replays with hreplays | ⟨hhalted, htwo⟩
  · obtain ⟨i, hleads⟩ := hreplays.leads k e e' he he'
    rw [hleads.instruction_eq]
    refine ⟨hleads.mem, hleads.condition_eq, ?_, ?_, hleads.text_eq⟩
    · rintro rfl
      obtain rfl := Option.some.inj (hreplays.first_eq.symm.trans he)
      rw [hleads.state_eq, Snapshot.stateAfter, h.first_instruction]
      rfl
    · intro hk
      obtain ⟨j, hj⟩ := hreplays.exists_instruction hk he
      refine ⟨j, hj, ?_⟩
      rw [hleads.state_eq, Snapshot.stateAfter, hj]
      rfl
  · have hk : k = 0 := by
      have hlt := History.lt_size_of_get? he'
      rw [History.size_eq_length, htwo] at hlt
      simp only [List.length_cons, List.length_nil] at hlt
      omega
    subst hk
    rw [History.get?, htwo] at he he'
    cases he
    cases he'
    rw [h.first_instruction]
    refine ⟨rfl, ?_, hhalted, rfl, rfl⟩
    rw [History.size_eq_length, htwo]
    rfl

theorem execute_size (h : m.Recorded first) {i : Instruction} (hcurrent : m.current = some i) :
    (m.execute i).history.size = (m.execute i).steps + 1 := by
  have hsize := h.size_eq
  rw [if_neg (by simp [hcurrent])] at hsize
  exact congrArg (· + 1) hsize

theorem record_waiting (h : m.Recorded first) (hhistory : m.history.toList = [first])
    (hcurrent : m.current = none) : m.record.history.toList = [first, first] := by
  obtain ⟨e, hready⟩ := h.ready
  have hlast : m.history.last? = some first := by
    rw [History.last?_eq_getLast?, hhistory]
    rfl
  obtain rfl := Option.some.inj (hlast.symm.trans hready.last?_eq)
  -- Nothing has been executed, so what is recorded is what was recorded first.
  have hsnapshot : m.snapshot = first := by
    rw [snapshot, ← hready.tape_eq, ← hready.headIndex_eq, hcurrent, ← h.first_instruction]
  rw [record, History.toList_push, hhistory, hsnapshot]
  rfl

theorem next (h : m.Recorded first) : m.next.Recorded first := by
  cases m.stepping with
  | refused hstatus _ => rwa [next_of_halted hstatus]
  | unstarted hstatus hcurrent hstep =>
      rw [next_of_step hstep]
      constructor
      case tracks => exact h.tracks
      case first_instruction => exact h.first_instruction
      case ready => exact ⟨_, rfl, rfl, rfl, nofun⟩
      case replays => exact .inr ⟨rfl, h.record_waiting (h.waiting hstatus hcurrent) hcurrent⟩
      case waiting => exact nofun
      case size_eq =>
        rw [if_pos ⟨rfl, hcurrent⟩, History.size_eq_length,
          h.record_waiting (h.waiting hstatus hcurrent) hcurrent]
        rfl
  | last i hstatus hcurrent hfind hstep =>
      rw [next_of_step hstep]
      constructor
      case tracks => exact h.execute_tracks i
      case first_instruction => exact h.first_instruction
      case ready => exact ⟨_, rfl, rfl, rfl, nofun⟩
      case replays => exact .inl (h.execute_replays hstatus hcurrent)
      case waiting => exact nofun
      case size_eq =>
        have hstill : (m.execute i).current = some i := hcurrent
        rw [if_neg (by simp [hstill])]
        exact h.execute_size hcurrent
  | further i j hstatus hcurrent hfind hstep =>
      rw [next_of_step hstep]
      constructor
      case tracks => exact h.execute_tracks i
      case first_instruction => exact h.first_instruction
      case ready =>
        refine ⟨_, rfl, rfl, rfl, ?_⟩
        intro k _ hk
        obtain rfl := Option.some.inj hk
        obtain ⟨hmem, hstate, hcondition⟩ := TransitionTable.mem_of_find? hfind
        refine ⟨hmem, ?_, hcondition⟩
        change j.id.value = ((m.current.map Instruction.next).getD m.initialId).value
        rw [hstate, hcurrent]
        rfl
      case replays => exact .inl (h.execute_replays hstatus hcurrent)
      case waiting => exact nofun
      case size_eq =>
        rw [if_neg (by simp)]
        exact h.execute_size hcurrent

theorem after (h : m.Recorded first) (n : Nat) : (m.after n).Recorded first := by
  induction n with
  | zero => exact h
  | succ n ih => exact ih.next

end Recorded

theorem Built.recorded {m : Machine} (h : m.Built) :
    m.Recorded ⟨m.tapeText, none, m.headIndex⟩ := by
  obtain ⟨line, htracks⟩ := h.tracks
  obtain ⟨tape, table, initialId, htape, hstart⟩ := h.exists_start
  obtain ⟨-, rfl⟩ := start_eq_ok hstart
  constructor
  case tracks => exact ⟨line, 0, htracks⟩
  case first_instruction => rfl
  case ready =>
    refine ⟨_, rfl, rfl, rfl, ?_⟩
    intro i _ hcurrent
    exact TransitionTable.mem_of_find? hcurrent
  case replays =>
    refine .inl ⟨rfl, ?_⟩
    intro k e e' _ he'
    have := History.lt_size_of_get? he'
    change k + 1 < 1 at this
    omega
  case waiting => exact fun _ _ => rfl
  case size_eq =>
    rw [if_neg (by simp)]
    rfl

theorem history_record (m : Machine) : m.record.history = m.history.push m.snapshot := rfl

theorem history_execute (m : Machine) (i : Instruction) :
    (m.execute i).history =
      m.history.push ⟨(m.execute i).tapeText, m.current, (m.execute i).headIndex⟩ := rfl

theorem history_prefix_next (m : Machine) : m.history.toList <+: m.next.history.toList := by
  cases m.stepping with
  | refused hstatus _ => simp only [next_of_halted hstatus, List.prefix_refl]
  | unstarted _ _ hstep =>
      rw [next_of_step hstep, history_record, History.toList_push]
      exact List.prefix_append _ _
  | last i _ _ _ hstep =>
      rw [next_of_step hstep, history_execute, History.toList_push]
      exact List.prefix_append _ _
  | further i j _ _ _ hstep =>
      rw [next_of_step hstep, history_execute, History.toList_push]
      exact List.prefix_append _ _

theorem history_prefix_after (m : Machine) (n : Nat) :
    m.history.toList <+: (m.after n).history.toList := by
  induction n with
  | zero => exact List.prefix_refl _
  | succ n ih => exact ih.trans (history_prefix_next _)

theorem size_next_of_running {m : Machine} (h : m.status = .running) :
    m.next.history.size = m.history.size + 1 := by
  cases m.stepping with
  | refused hstatus _ =>
      rw [h] at hstatus
      contradiction
  | unstarted _ _ hstep => rw [next_of_step hstep]; rfl
  | last i _ _ _ hstep => rw [next_of_step hstep]; rfl
  | further i j _ _ _ hstep => rw [next_of_step hstep]; rfl

theorem history_replays {m : Machine} (hbuilt : m.Built) (calls : List Call) :
    let m' := m.callEach calls
    m'.history.get? 0 = some ⟨m.tapeText, none, m.headIndex⟩ ∧
    (∃ e, m'.history.last? = some e ∧ e.tape = m'.tapeText ∧ e.headIndex = m'.headIndex) ∧
    (m'.history.size = if m'.status = .halted ∧ m'.current = none then 2 else m'.steps + 1) ∧
    (m'.status = .running → (m'.call .step).history.size = m'.history.size + 1) ∧
    (∀ more, m'.history.toList <+: (m'.callEach more).history.toList) ∧
    ∀ k e e', m'.history.get? k = some e → m'.history.get? (k + 1) = some e' →
      match e'.instruction with
      | some i =>
          i ∈ m.table.members ∧
          e.tape.toList[e.headIndex]? = some i.condition.char ∧
          (k = 0 → i.id.value = m.initialId.value) ∧
          (0 < k → ∃ j, e.instruction = some j ∧ i.id.value = j.next.value) ∧
          (e'.tape.toList, e'.headIndex) = i.action.onText (e.tape.toList, e.headIndex)
      | none =>
          k = 0 ∧ m'.history.size = 2 ∧ m'.status = .halted ∧
          e'.tape = e.tape ∧ e'.headIndex = e.headIndex := by
  intro m'
  obtain ⟨n, hn⟩ : ∃ n, m' = m.after n := exists_callEach_eq_after calls m
  have hrecorded : m'.Recorded ⟨m.tapeText, none, m.headIndex⟩ := by
    rw [hn]
    exact hbuilt.recorded.after n
  have htable : m'.table = m.table := by
    rw [hn, table_after]
  have hinitial : m'.initialId = m.initialId := by
    rw [hn, initialId_after]
  refine ⟨hrecorded.first_eq, ?_, hrecorded.size_eq, size_next_of_running, ?_, ?_⟩
  · obtain ⟨e, hready⟩ := hrecorded.ready
    exact ⟨e, hready.last?_eq, hready.tape_eq, hready.headIndex_eq⟩
  · intro more
    obtain ⟨k, hk⟩ := exists_callEach_eq_after more m'
    rw [hk]
    exact history_prefix_after m' k
  · intro k e e' he he'
    rw [← htable, ← hinitial]
    exact hrecorded.consecutive he he'

/-- The second step goes off the left end and prepends a blank. -/
theorem history_replays_off_the_left_end :
    ∃ (m : Machine) (i j : Instruction), m.Built ∧
      let m' := m.callEach [.step, .run 2]
      m'.history.get? 0 = some ⟨"0", none, 0⟩ ∧
      m'.history.size = 3 ∧
      m'.history.get? 1 = some ⟨"1", some i, 0⟩ ∧
      m'.history.get? 2 = some ⟨"01", some j, 0⟩ ∧
      j.action = .move .left ∧ j.id.value = i.next.value ∧
      (("01".toList, 0) : List Char × Nat) = j.action.onText ("1".toList, 0) := by
  let i : Instruction := ⟨.ofNat 0, .zero, .write .one, .ofNat 0⟩
  let j : Instruction := ⟨.ofNat 0, .one, .move .left, .ofNat 1⟩
  obtain ⟨table, m, htable, hstart⟩ : ∃ table m,
      TransitionTable.ofList [i, j] = .ok table ∧
      start Tape.blank table (.ofNat 0) = .ok m := by
    refine exists_start Tape.blank ?_ ⟨_, List.mem_cons_self, rfl⟩
    simp [i, j, TransitionTable.Scan.ofList, TransitionTable.Scan.add,
      TransitionTable.Scan.start, Instruction.key, StateId.key]
  have hbuilt : m.Built := .ofParts ⟨⟨none, []⟩, _, rfl, rfl⟩ hstart
  have hlookup (id : StateId) (symbol : Symbol) : table.find? id symbol =
      [i, j].find? fun k => decide (k.id.Same id ∧ k.condition = symbol) := by
    rw [table.find?_eq_scan, (TransitionTable.ofList_eq_ok htable).1]
  obtain ⟨hfirst, -, hsize, -, -, hreplays⟩ := history_replays hbuilt [.step, .run 2]
  obtain ⟨-, hm⟩ := start_eq_ok hstart
  rw [hlookup] at hm
  have htable' : m.table = table := table_of_start hstart
  have hone : m.next = { m.execute i with current := some j } := by
    refine next_of_find_some (status_of_start hstart) ?_ ?_
    · rw [hm]
      rfl
    · rw [htable', hlookup, hm]
      rfl
  have htwo : m.next.next = { m.next.execute j with status := .halted } := by
    refine next_of_find_none ?_ ?_ ?_
    · rw [hone, hm]
      rfl
    · rw [hone]
    · rw [table_next, htable', hlookup, hone, hm]
      rfl
  have hcalls : m.callEach [.step, .run 2] = { m.next.execute j with status := .halted } := by
    change (m.next.run 2).1 = _
    rw [run_fst_eq_after, after_succ, htwo]
    exact next_of_halted rfl
  have hlist : (m.callEach [.step, .run 2]).history.toList =
      [⟨"0", none, 0⟩, ⟨"1", some i, 0⟩, ⟨"01", some j, 0⟩] := by
    rw [hcalls, hone, hm]
    rfl
  refine ⟨m, i, j, hbuilt, ?_⟩
  have hget (k : Nat) : (m.callEach [.step, .run 2]).history.get? k =
      [⟨"0", none, 0⟩, ⟨"1", some i, 0⟩, ⟨"01", some j, 0⟩][k]? := by
    rw [History.get?, hlist]
  obtain ⟨-, -, -, hstate, htext⟩ := hreplays 1 _ _ (hget 1) (hget 2)
  obtain ⟨i', hi', hid⟩ := hstate Nat.one_pos
  cases hi'
  refine ⟨?_, ?_, hget 1, hget 2, rfl, hid, htext⟩
  · rw [hfirst, hm]
    rfl
  · rw [hsize, hcalls, hone, hm]
    rfl

end Machine

end BinaryMachine
