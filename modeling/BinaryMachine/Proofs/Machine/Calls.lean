import BinaryMachine.Machine
import BinaryMachine.Proofs.Tape.Chain
import BinaryMachine.Proofs.TransitionTable.FirstCollision

/-!
# Machines under calls

A machine is driven by steps and bounded runs.  A refused step changes nothing,
not even where it works on the machine in place, so every sequence of calls comes
down to a number of steps.  There are four ways through a step, and what holds along
a run is proved for each of them.
-/

namespace BinaryMachine

namespace Machine

/-! ## Calls -/

/-- The machine that the caller has after a step.  If the step is refused it is the one
from before; `run_stepInPlace` shows the same of a step that works on the caller's
own machine. -/
def next (m : Machine) : Machine :=
  match m.step with
  | .ok (next, _) => next
  | .error _ => m

def outcome (m : Machine) : Except Failure Outcome :=
  m.step.map Prod.snd

def after (m : Machine) : Nat → Machine
  | 0 => m
  | n + 1 => (m.after n).next

inductive Call where
  | step
  | run (bound : Nat)
  deriving DecidableEq, Repr

def call (m : Machine) : Call → Machine
  | .step => m.next
  | .run bound => (m.run bound).1

def callEach (m : Machine) (calls : List Call) : Machine :=
  calls.foldl call m

/-- A machine that one of the constructors has just returned. -/
inductive Built : Machine → Prop
  | ofParts {tape : Tape} {table : TransitionTable} {initialId : StateId} {m : Machine} :
      tape.Reachable → Machine.start tape table initialId = .ok m → Built m
  | ofTexts {tape instructions separator : String} {initialId : StateId} {m : Machine} :
      Machine.ofTexts tape instructions separator initialId = .ok m → Built m
  | ofProgram {program : Program} {m : Machine} :
      Machine.ofProgram program = .ok m → Built m

theorem start_of_ofTexts {text instructions separator : String} {initialId : StateId}
    {m : Machine} (h : ofTexts text instructions separator initialId = .ok m) :
    ∃ tape table, tape.Reachable ∧ start tape table initialId = .ok m := by
  simp only [ofTexts] at h
  cases htape : Tape.ofText text with
  | error failure =>
      rw [htape] at h
      cases h
  | ok tape =>
      rw [htape] at h
      cases htable : TransitionTable.parse instructions separator with
      | error failure =>
          rw [htable] at h
          cases h
      | ok table =>
          rw [htable] at h
          exact ⟨tape, table, Tape.reachable_of_ofText htape, h⟩

theorem Built.exists_start {m : Machine} (h : m.Built) :
    ∃ tape table initialId, tape.Reachable ∧ start tape table initialId = .ok m := by
  cases h with
  | ofParts htape hstart => exact ⟨_, _, _, htape, hstart⟩
  | ofTexts htexts =>
      obtain ⟨tape, table, htape, hstart⟩ := start_of_ofTexts htexts
      exact ⟨tape, table, _, htape, hstart⟩
  | ofProgram hprogram =>
      obtain ⟨tape, table, htape, hstart⟩ := start_of_ofTexts hprogram
      exact ⟨tape, table, _, htape, hstart⟩

/-! ## One step -/

inductive Stepping (m : Machine) : Prop
  | refused : m.status = .halted → m.step = .error .alreadyHalted → Stepping m
  | unstarted : m.status = .running → m.current = none →
      m.step = .ok ({ m.record with status := .halted }, .halt) → Stepping m
  | last (i : Instruction) : m.status = .running → m.current = some i →
      (m.execute i).table.find? i.next ((m.execute i).head.read (m.execute i).tape) = none →
      m.step = .ok ({ m.execute i with status := .halted }, .halt) → Stepping m
  | further (i j : Instruction) : m.status = .running → m.current = some i →
      (m.execute i).table.find? i.next ((m.execute i).head.read (m.execute i).tape) = some j →
      m.step = .ok ({ m.execute i with current := some j }, .proceed) → Stepping m

theorem stepping (m : Machine) : m.Stepping := by
  cases hstatus : m.status with
  | halted =>
      refine .refused hstatus ?_
      unfold step
      rw [hstatus]
  | running =>
      cases hcurrent : m.current with
      | none =>
          refine .unstarted hstatus hcurrent ?_
          unfold step
          rw [hstatus, hcurrent]
      | some i =>
          have hstep : m.step = .ok ((m.execute i).goOn i) := by
            unfold step
            rw [hstatus, hcurrent]
          cases hfind : (m.execute i).table.find? i.next
              ((m.execute i).head.read (m.execute i).tape) with
          | none =>
              refine .last i hstatus hcurrent hfind ?_
              rw [hstep, goOn, hfind]
          | some j =>
              refine .further i j hstatus hcurrent hfind ?_
              rw [hstep, goOn, hfind]

variable {m : Machine}

theorem step_of_halted (h : m.status = .halted) : m.step = .error .alreadyHalted := by
  unfold step
  rw [h]

theorem next_of_halted (h : m.status = .halted) : m.next = m := by
  rw [next, step_of_halted h]

theorem next_of_running (h : m.status = .running) :
    m.next = match m.current with
      | none => { m.record with status := .halted }
      | some i => ((m.execute i).goOn i).1 := by
  rw [next, step, h]
  cases m.current <;> rfl

theorem next_of_step {m' : Machine} {outcome : Outcome} (h : m.step = .ok (m', outcome)) :
    m.next = m' := by
  rw [next, h]

theorem next_of_find_some {i j : Instruction} (hstatus : m.status = .running)
    (hcurrent : m.current = some i)
    (hfind : m.table.find? i.next ((m.execute i).head.read (m.execute i).tape) = some j) :
    m.next = { m.execute i with current := some j } := by
  rw [next_of_running hstatus, hcurrent]
  have hfind' : (m.execute i).table.find? i.next ((m.execute i).head.read (m.execute i).tape) =
      some j := hfind
  simp only [goOn, hfind']

theorem next_of_find_none {i : Instruction} (hstatus : m.status = .running)
    (hcurrent : m.current = some i)
    (hfind : m.table.find? i.next ((m.execute i).head.read (m.execute i).tape) = none) :
    m.next = { m.execute i with status := .halted } := by
  rw [next_of_running hstatus, hcurrent]
  have hfind' : (m.execute i).table.find? i.next ((m.execute i).head.read (m.execute i).tape) =
      none := hfind
  simp only [goOn, hfind']

/-- What a call returns can be told from the states before and after it. -/
theorem outcome_eq (m : Machine) :
    m.outcome =
      if m.status = .halted then .error .alreadyHalted
      else if m.next.status = .halted then .ok .halt
      else .ok .proceed := by
  cases m.stepping with
  | refused hstatus hstep =>
      rw [if_pos hstatus, outcome, hstep]
      rfl
  | unstarted hstatus _ hstep =>
      rw [if_neg (by simp [hstatus]), if_pos (by rw [next_of_step hstep]), outcome, hstep]
      rfl
  | last i hstatus _ _ hstep =>
      rw [if_neg (by simp [hstatus]), if_pos (by rw [next_of_step hstep]), outcome, hstep]
      rfl
  | further i j hstatus _ _ hstep =>
      have hnext : m.next.status ≠ .halted := by
        rw [next_of_step hstep]
        change m.status ≠ .halted
        simp [hstatus]
      rw [if_neg (by simp [hstatus]), if_neg hnext, outcome, hstep]
      rfl

theorem table_next (m : Machine) : m.next.table = m.table := by
  cases m.stepping with
  | refused hstatus _ => rw [next_of_halted hstatus]
  | unstarted _ _ hstep => rw [next_of_step hstep]; rfl
  | last i _ _ _ hstep => rw [next_of_step hstep]; rfl
  | further i j _ _ _ hstep => rw [next_of_step hstep]; rfl

theorem initialId_next (m : Machine) : m.next.initialId = m.initialId := by
  cases m.stepping with
  | refused hstatus _ => rw [next_of_halted hstatus]
  | unstarted _ _ hstep => rw [next_of_step hstep]; rfl
  | last i _ _ _ hstep => rw [next_of_step hstep]; rfl
  | further i j _ _ _ hstep => rw [next_of_step hstep]; rfl

/-! ## A step in place -/

/-- What works on the machine of its caller, one change after another.  Whatever has
been changed by the time of a failure stays changed. -/
abbrev InPlace := ExceptT Failure (StateM Machine)

def goOnInPlace (i : Instruction) : InPlace Outcome := do
  let m ← get
  match m.table.find? i.next (m.head.read m.tape) with
  | some next =>
      set { m with current := some next }
      return .proceed
  | none =>
      set { m with status := .halted }
      return .halt

def stepInPlace : InPlace Outcome := do
  if (← get).isHalted then
    throw .alreadyHalted
  match (← get).current with
  | none =>
      modify record
      modify fun m => { m with status := .halted }
      return .halt
  | some i =>
      modify fun m =>
        let (tape, head) := m.head.act m.tape i.action
        { m with tape, head }
      modify fun m => { m with steps := m.steps + 1 }
      modify record
      goOnInPlace i

theorem run_goOnInPlace (m : Machine) (i : Instruction) :
    (goOnInPlace i).run.run m = (.ok (m.goOn i).2, (m.goOn i).1) := by
  change (match m.table.find? i.next (m.head.read m.tape) with
    | some _ => _
    | none => _ : InPlace Outcome).run.run m = _
  rw [goOn]
  cases m.table.find? i.next (m.head.read m.tape) with
  | some j => rfl
  | none => rfl

theorem run_stepInPlace (m : Machine) : stepInPlace.run.run m = (m.outcome, m.next) := by
  obtain ⟨tape, head, table, initialId, current, status, history, steps⟩ := m
  cases status with
  | halted => rfl
  | running =>
      cases current with
      | none => rfl
      | some i => exact run_goOnInPlace _ i

/-! ## Runs -/

theorem after_of_halted (h : m.status = .halted) : ∀ n, m.after n = m := by
  intro n
  induction n with
  | zero => rfl
  | succ n ih => rw [after, ih, next_of_halted h]

theorem after_succ (m : Machine) (n : Nat) : m.after (n + 1) = m.next.after n := by
  induction n with
  | zero => rfl
  | succ n ih => rw [after, ih, after]

theorem after_add (m : Machine) (a b : Nat) : m.after (a + b) = (m.after a).after b := by
  induction b with
  | zero => rfl
  | succ b ih => rw [← Nat.add_assoc, after, ih, after]

theorem table_after (m : Machine) (n : Nat) : (m.after n).table = m.table := by
  induction n with
  | zero => rfl
  | succ n ih => rw [after, table_next, ih]

theorem initialId_after (m : Machine) (n : Nat) : (m.after n).initialId = m.initialId := by
  induction n with
  | zero => rfl
  | succ n ih => rw [after, initialId_next, ih]

theorem run_fst_eq_after (bound : Nat) : ∀ m : Machine, (m.run bound).1 = m.after bound := by
  induction bound with
  | zero =>
      intro m
      rfl
  | succ bound ih =>
      intro m
      rw [after_succ, run]
      cases m.stepping with
      | refused hstatus hstep =>
          rw [hstep, next_of_halted hstatus]
          exact (after_of_halted hstatus bound).symm
      | unstarted _ _ hstep =>
          rw [hstep, next_of_step hstep]
          exact (after_of_halted rfl bound).symm
      | last i _ _ _ hstep =>
          rw [hstep, next_of_step hstep]
          exact (after_of_halted rfl bound).symm
      | further i j _ _ _ hstep =>
          rw [hstep, next_of_step hstep]
          exact ih _

theorem exists_callEach_eq_after (calls : List Call) :
    ∀ m : Machine, ∃ n, m.callEach calls = m.after n := by
  induction calls with
  | nil =>
      intro m
      exact ⟨0, rfl⟩
  | cons c calls ih =>
      intro m
      have hfirst : ∃ k, m.call c = m.after k := by
        cases c with
        | step => exact ⟨1, rfl⟩
        | run bound => exact ⟨bound, run_fst_eq_after bound m⟩
      obtain ⟨k, hk⟩ := hfirst
      obtain ⟨n, hn⟩ := ih (m.call c)
      refine ⟨k + n, ?_⟩
      rw [after_add, ← hk]
      exact hn

/-! ## The tape of a machine -/

/-- The machine's tape lies on `line` and its head stands at `p`. -/
def Tracks (m : Machine) (line : Line) (p : Int) : Prop :=
  ∃ place, m.tape.Layout place line ∧ m.head.StandsAt m.tape place p

namespace Tracks

variable {line : Line} {p : Int}

theorem tapeText_eq (h : m.Tracks line p) : m.tapeText = line.text := by
  obtain ⟨place, hlayout, -⟩ := h
  exact hlayout.text_eq

theorem headIndex_eq (h : m.Tracks line p) : (m.headIndex : Int) = p - line.lo := by
  obtain ⟨place, hlayout, hhead⟩ := h
  exact hlayout.index_eq hhead

theorem read_eq (h : m.Tracks line p) : m.head.read m.tape = line.symbol p := by
  obtain ⟨place, hlayout, hhead⟩ := h
  exact hlayout.read_eq hhead

theorem mem (h : m.Tracks line p) : line.lo ≤ p ∧ p ≤ line.hi := by
  obtain ⟨place, hlayout, hhead⟩ := h
  exact ⟨hlayout.lo_le_of_standsAt hhead, hlayout.le_hi_of_standsAt hhead⟩

theorem headIndex_eq_toNat (h : m.Tracks line p) : m.headIndex = (p - line.lo).toNat := by
  have := h.headIndex_eq
  omega

theorem getElem?_tapeText (h : m.Tracks line p) :
    m.tapeText.toList[m.headIndex]? = some (m.head.read m.tape).char := by
  rw [h.tapeText_eq, h.read_eq, h.headIndex_eq_toNat]
  exact line.getElem?_text h.mem.1 h.mem.2

theorem blank_outside (h : m.Tracks line p) {q : Int} (hq : q < line.lo ∨ line.hi < q) :
    line.symbol q = .zero := by
  obtain ⟨place, hlayout, -⟩ := h
  exact hlayout.blank_outside q hq

theorem execute (h : m.Tracks line p) (i : Instruction) :
    (m.execute i).Tracks (line.act p i.action).1 (line.act p i.action).2 := by
  obtain ⟨place, hlayout, hhead⟩ := h
  obtain ⟨place', hacted, hstands, -⟩ := hlayout.act hhead i.action
  exact ⟨place', hacted, hstands⟩

end Tracks

section Start

variable {tape : Tape} {table : TransitionTable} {initialId : StateId}

theorem start_eq_ok (h : start tape table initialId = .ok m) :
    table.hasState initialId = true ∧
      m = ⟨tape, Head.atRoot tape, table, initialId,
        table.find? initialId ((Head.atRoot tape).read tape), .running,
        History.empty.push ⟨tape.text, none, (Head.atRoot tape).index tape⟩, 0⟩ := by
  unfold start at h
  split at h
  · next hstate =>
      cases h
      exact ⟨hstate, rfl⟩
  · cases h

theorem table_of_start (h : start tape table initialId = .ok m) : m.table = table := by
  rw [(start_eq_ok h).2]

theorem status_of_start (h : start tape table initialId = .ok m) : m.status = .running := by
  rw [(start_eq_ok h).2]

theorem steps_of_start (h : start tape table initialId = .ok m) : m.steps = 0 := by
  rw [(start_eq_ok h).2]

end Start

theorem exists_start (tape : Tape) {members : List Instruction} {initialId : StateId}
    (hcollision : (TransitionTable.Scan.ofList members).collision = none)
    (hstate : ∃ i ∈ members, i.id.value = initialId.value) :
    ∃ table m, TransitionTable.ofList members = .ok table ∧
      start tape table initialId = .ok m := by
  obtain ⟨table, htable⟩ := TransitionTable.exists_ofList_of_collision_none hcollision
  rw [← (TransitionTable.ofList_eq_ok htable).1] at hstate
  exact ⟨table, _, htable, if_pos ((table.hasState_iff initialId).2 hstate)⟩

theorem Built.tracks (h : m.Built) : ∃ line, m.Tracks line 0 := by
  obtain ⟨tape, table, initialId, htape, hstart⟩ := h.exists_start
  obtain ⟨place, line, hlayout⟩ := htape.layout
  obtain ⟨-, rfl⟩ := start_eq_ok hstart
  exact ⟨line, place, hlayout, hlayout.atRoot⟩

end Machine

end BinaryMachine
