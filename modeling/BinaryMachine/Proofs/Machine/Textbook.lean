import Mathlib.Data.ENat.Lattice
import BinaryMachine.Proofs.Machine.Calls

/-!
# Machines refine the textbook machine

The textbook machine has a transition function on state numbers and symbols, and
a tape that is a function on all integers.  It makes transitions as long as the
function is defined.  A machine in the course of a run shows the part of that
tape that has been materialised, counts the transitions and halts when there is
none left, one step late if there was none to begin with.
-/

namespace BinaryMachine

/-! ## The textbook machine -/

/-- The instruction for a state number and a symbol. -/
def transition (members : List Instruction) (state : Nat) (symbol : Symbol) :
    Option Instruction :=
  members.find? fun i => decide (i.id.value = state ∧ i.condition = symbol)

structure Configuration where
  state : Nat
  symbol : Int → Symbol
  position : Int

namespace Configuration

variable (δ : Nat → Symbol → Option Instruction)

def current (c : Configuration) : Option Instruction :=
  δ c.state (c.symbol c.position)

def apply (c : Configuration) (i : Instruction) : Configuration :=
  match i.action with
  | .write symbol =>
      ⟨i.next.value, Function.update c.symbol c.position symbol, c.position⟩
  | .move direction => ⟨i.next.value, c.symbol, c.position + direction.offset⟩

def next (c : Configuration) : Configuration :=
  match c.current δ with
  | some i => c.apply i
  | none => c

def after (c : Configuration) : Nat → Configuration
  | 0 => c
  | n + 1 => (c.after n).next δ

/-- The number of transitions before the transition function is undefined. -/
noncomputable def transitions (c : Configuration) : ℕ∞ :=
  ⨅ (n : Nat) (_ : (c.after δ n).current δ = none), (n : ℕ∞)

variable {δ}

theorem next_of_none {c : Configuration} (h : c.current δ = none) : c.next δ = c := by
  rw [next, h]

theorem next_of_some {c : Configuration} {i : Instruction} (h : c.current δ = some i) :
    c.next δ = c.apply i := by
  rw [next, h]

theorem current_after_of_le {c : Configuration} {k n : Nat} (hle : k ≤ n)
    (h : (c.after δ k).current δ = none) : (c.after δ n).current δ = none := by
  induction n, hle using Nat.le_induction with
  | base => exact h
  | succ n _ ih => rw [after, next_of_none ih, ih]

theorem transitions_le_iff {c : Configuration} {n : Nat} :
    c.transitions δ ≤ n ↔ (c.after δ n).current δ = none := by
  constructor
  · intro hle
    -- Otherwise no transition is missing up to `n`, and the infimum lies above it.
    by_contra hsome
    have hlater : ∀ k : Nat, (c.after δ k).current δ = none → n + 1 ≤ k := by
      intro k hk
      by_contra hlt
      exact hsome (current_after_of_le (by omega) hk)
    have hbound : ((n + 1 : Nat) : ℕ∞) ≤ c.transitions δ :=
      le_iInf₂ fun k hk => by exact_mod_cast hlater k hk
    have := hbound.trans hle
    have : n + 1 ≤ n := by exact_mod_cast this
    omega
  · intro hnone
    exact iInf₂_le n hnone

end Configuration

/-! ## The textbook tape of a given tape -/

/-- The symbol at a distance from the root, as the text shows it. -/
def Tape.contentAt (tape : Tape) (p : Int) : Symbol :=
  let index := p + (Head.atRoot tape).index tape
  if 0 ≤ index then
    ((tape.text.toList[index.toNat]?).bind Symbol.ofChar?).getD .zero
  else
    .zero

namespace Configuration

/-- At the root of a tape, with blanks outside of it. -/
def initial (tape : Tape) (initialId : StateId) : Configuration where
  state := initialId.value
  symbol := tape.contentAt
  position := 0

/-- The positions of the cells of `tape` and those visited in `n` transitions. -/
def touched (δ : Nat → Symbol → Option Instruction) (c : Configuration) (tape : Tape)
    (n : Nat) : Set Int :=
  {p | 0 ≤ p + (Head.atRoot tape).index tape ∧ p + (Head.atRoot tape).index tape < tape.width ∨
    ∃ k ≤ n, (c.after δ k).position = p}

end Configuration

theorem Tape.Layout.contentAt_eq {tape : Tape} {place : CellId → Int} {line : Line}
    (h : tape.Layout place line) : tape.contentAt = line.symbol := by
  have hindex := h.index_eq h.atRoot
  funext p
  rw [Tape.contentAt, hindex]
  by_cases hlo : line.lo ≤ p
  · rw [if_pos (by omega), h.text_eq]
    by_cases hhi : p ≤ line.hi
    · have hposition : (p + (0 - line.lo)).toNat = (p - line.lo).toNat := by
        omega
      rw [hposition, line.getElem?_text hlo hhi]
      simp
    · have hlength := line.length_text
      have hnone : line.text.toList[(p + (0 - line.lo)).toNat]? = none := by
        rw [List.getElem?_eq_none_iff, String.length_toList, hlength]
        omega
      rw [hnone, h.blank_outside p (by omega)]
      rfl
  · rw [if_neg (by omega), h.blank_outside p (by omega)]

/-! ## Simulation -/

structure Machine.Simulates (m : Machine) (δ : Nat → Symbol → Option Instruction)
    (c : Configuration) (line : Line) : Prop where
  tracks : m.Tracks line c.position
  symbol_eq : line.symbol = c.symbol
  find?_eq : ∀ id symbol, m.table.find? id symbol = δ id.value symbol
  current_eq : m.status = .running → m.current = c.current δ
  current_none : m.status = .halted → c.current δ = none

namespace Machine.Simulates

variable {m : Machine} {δ : Nat → Symbol → Option Instruction} {c : Configuration}
  {line : Line} {i : Instruction}

theorem execute_tracks (h : m.Simulates δ c line) (i : Instruction) :
    ∃ line', (m.execute i).Tracks line' (c.apply i).position ∧
      line'.symbol = (c.apply i).symbol ∧
      line'.lo = min (c.apply i).position line.lo ∧
      line'.hi = max (c.apply i).position line.hi := by
  have hmem := h.tracks.mem
  have hexecute := h.tracks.execute i
  refine ⟨(line.act c.position i.action).1, ?_⟩
  cases haction : i.action with
  | write symbol =>
      rw [haction] at hexecute
      simp only [Configuration.apply, haction, Line.act]
      refine ⟨hexecute, ?_, ?_, ?_⟩
      · simp only [Line.write, h.symbol_eq]
      · exact (min_eq_right hmem.1).symm
      · exact (max_eq_right hmem.2).symm
  | move d =>
      rw [haction] at hexecute
      simp only [Configuration.apply, haction, Line.act]
      exact ⟨hexecute, h.symbol_eq, min_comm _ _, max_comm _ _⟩

/-- The look-up after an action is the one that the textbook machine makes. -/
theorem find?_execute (h : m.Simulates δ c line) (i : Instruction) :
    (m.execute i).table.find? i.next ((m.execute i).head.read (m.execute i).tape) =
      (c.apply i).current δ := by
  obtain ⟨line', htracks, hsymbol, -⟩ := h.execute_tracks i
  have hstate : (c.apply i).state = i.next.value := by
    unfold Configuration.apply
    split <;> rfl
  rw [htracks.read_eq, hsymbol, Configuration.current, hstate]
  exact h.find?_eq _ _

theorem next (h : m.Simulates δ c line) :
    ∃ line', m.next.Simulates δ (c.next δ) line' ∧
      line'.lo = min (c.next δ).position line.lo ∧
      line'.hi = max (c.next δ).position line.hi := by
  have hmem := h.tracks.mem
  cases m.stepping with
  | refused hstatus _ =>
      rw [next_of_halted hstatus, Configuration.next_of_none (h.current_none hstatus)]
      exact ⟨line, h, (min_eq_right hmem.1).symm, (max_eq_right hmem.2).symm⟩
  | unstarted hstatus hcurrent hstep =>
      have hnone : c.current δ = none := (h.current_eq hstatus).symm.trans hcurrent
      rw [next_of_step hstep, Configuration.next_of_none hnone]
      exact ⟨line, ⟨h.tracks, h.symbol_eq, h.find?_eq, nofun, fun _ => hnone⟩,
        (min_eq_right hmem.1).symm, (max_eq_right hmem.2).symm⟩
  | last i hstatus hcurrent hfind hstep =>
      have hi : c.current δ = some i := (h.current_eq hstatus).symm.trans hcurrent
      obtain ⟨line', htracks, hsymbol, hlo, hhi⟩ := h.execute_tracks i
      have hnone := (h.find?_execute i).symm.trans hfind
      rw [next_of_step hstep, Configuration.next_of_some hi]
      exact ⟨line', ⟨htracks, hsymbol, h.find?_eq, nofun, fun _ => hnone⟩, hlo, hhi⟩
  | further i j hstatus hcurrent hfind hstep =>
      have hi : c.current δ = some i := (h.current_eq hstatus).symm.trans hcurrent
      obtain ⟨line', htracks, hsymbol, hlo, hhi⟩ := h.execute_tracks i
      have hsome := (h.find?_execute i).symm.trans hfind
      rw [next_of_step hstep, Configuration.next_of_some hi]
      refine ⟨line', ⟨htracks, hsymbol, h.find?_eq, fun _ => hsome.symm, ?_⟩, hlo, hhi⟩
      intro hhalted
      exact absurd (hstatus.symm.trans hhalted) nofun

/-- A step halts exactly where the textbook machine has come to its end. -/
theorem next_halted_iff (h : m.Simulates δ c line) :
    m.next.status = .halted ↔ (c.next δ).current δ = none := by
  obtain ⟨line', hnext, -⟩ := h.next
  refine ⟨hnext.current_none, ?_⟩
  intro hnone
  cases m.stepping with
  | refused hstatus _ => rwa [next_of_halted hstatus]
  | unstarted _ _ hstep => rw [next_of_step hstep]
  | last i _ _ _ hstep => rw [next_of_step hstep]
  | further i j hstatus _ _ hstep =>
      -- A machine that goes on has an instruction, and so has the textbook machine.
      rw [next_of_step hstep] at hnext
      have hcurrent := (hnext.current_eq hstatus).trans hnone
      contradiction

theorem next_steps (h : m.Simulates δ c line) :
    m.next.steps = if c.current δ = none then m.steps else m.steps + 1 := by
  cases m.stepping with
  | refused hstatus _ => rw [next_of_halted hstatus, if_pos (h.current_none hstatus)]
  | unstarted hstatus hcurrent hstep =>
      rw [next_of_step hstep, if_pos ((h.current_eq hstatus).symm.trans hcurrent)]
      rfl
  | last i hstatus hcurrent _ hstep =>
      have hi : c.current δ = some i := (h.current_eq hstatus).symm.trans hcurrent
      rw [next_of_step hstep, hi]
      rfl
  | further i j hstatus hcurrent _ hstep =>
      have hi : c.current δ = some i := (h.current_eq hstatus).symm.trans hcurrent
      rw [next_of_step hstep, hi]
      rfl

end Machine.Simulates

/-! ## Runs -/

theorem Configuration.touched_succ (δ : Nat → Symbol → Option Instruction)
    (c : Configuration) (tape : Tape) (n : Nat) :
    c.touched δ tape (n + 1) = insert (c.after δ (n + 1)).position (c.touched δ tape n) := by
  ext p
  simp only [touched, Set.mem_insert_iff, Set.mem_ofPred_eq]
  constructor
  · rintro (hcell | ⟨k, hk, hposition⟩)
    · exact .inr (.inl hcell)
    · rcases Nat.le_succ_iff.1 hk with hk | rfl
      · exact .inr (.inr ⟨k, hk, hposition⟩)
      · exact .inl hposition.symm
  · rintro (rfl | hcell | ⟨k, hk, hposition⟩)
    · exact .inr ⟨n + 1, Nat.le_refl _, rfl⟩
    · exact .inl hcell
    · exact .inr ⟨k, Nat.le_succ_of_le hk, hposition⟩

/-- Where a machine and the textbook machine are after `n` steps. -/
structure Machine.Progress (m : Machine) (δ : Nat → Symbol → Option Instruction)
    (c : Configuration) (tape : Tape) (line : Line) (n : Nat) : Prop where
  simulates : (m.after n).Simulates δ (c.after δ n) line
  lo_least : IsLeast (c.touched δ tape n) line.lo
  hi_greatest : IsGreatest (c.touched δ tape n) line.hi
  halted_iff : (m.after n).status = .halted ↔ 1 ≤ n ∧ (c.after δ n).current δ = none
  steps_eq : ((m.after n).steps : ℕ∞) = min (n : ℕ∞) (c.transitions δ)

namespace Machine.Progress

variable {m : Machine} {tape : Tape} {members : List Instruction}
  {table : TransitionTable} {initialId : StateId}

theorem start (htape : tape.Reachable) (htable : TransitionTable.ofList members = .ok table)
    (hstart : Machine.start tape table initialId = .ok m) :
    ∃ line, m.Progress (transition members) (.initial tape initialId) tape line 0 := by
  obtain ⟨place, line, hlayout⟩ := htape.layout
  obtain ⟨-, rfl⟩ := start_eq_ok hstart
  obtain ⟨rfl, -⟩ := TransitionTable.ofList_eq_ok htable
  have hindex := hlayout.index_eq hlayout.atRoot
  have hwidth := hlayout.width_eq
  have hlo := hlayout.lo_le_of_standsAt hlayout.atRoot
  have hhi := hlayout.le_hi_of_standsAt hlayout.atRoot
  have hfind : ∀ id symbol,
      table.find? id symbol = transition table.members id.value symbol :=
    table.find?_eq_scan_value
  refine ⟨line, ?_, ⟨?_, ?_⟩, ⟨?_, ?_⟩, ?_, ?_⟩
  · constructor
    case tracks => exact ⟨place, hlayout, hlayout.atRoot⟩
    case symbol_eq => exact hlayout.contentAt_eq.symm
    case find?_eq => exact hfind
    case current_eq =>
      intro _
      change table.find? initialId ((Head.atRoot tape).read tape) =
        transition table.members initialId.value (tape.contentAt 0)
      rw [hfind, hlayout.read_eq hlayout.atRoot, hlayout.contentAt_eq]
    case current_none => exact nofun
  · left
    omega
  · rintro p (hcell | ⟨k, hk, hposition⟩)
    · omega
    · obtain rfl := Nat.le_zero.1 hk
      exact hlo.trans (le_of_eq hposition)
  · left
    omega
  · rintro p (hcell | ⟨k, hk, hposition⟩)
    · omega
    · obtain rfl := Nat.le_zero.1 hk
      exact (le_of_eq hposition.symm).trans hhi
  · constructor
    · exact nofun
    · rintro ⟨hle, -⟩
      omega
  · exact (min_eq_left zero_le).symm

variable {δ : Nat → Symbol → Option Instruction} {c : Configuration} {line : Line} {n : Nat}

theorem succ (h : m.Progress δ c tape line n) :
    ∃ line', m.Progress δ c tape line' (n + 1) := by
  obtain ⟨line', hnext, hlo, hhi⟩ := h.simulates.next
  refine ⟨line', hnext, ?_, ?_, ?_, ?_⟩
  · rw [Configuration.touched_succ, hlo]
    exact h.lo_least.insert _
  · rw [Configuration.touched_succ, hhi]
    exact h.hi_greatest.insert _
  · rw [Machine.after, h.simulates.next_halted_iff]
    exact ⟨fun hnone => ⟨Nat.le_add_left 1 n, hnone⟩, And.right⟩
  · -- Either no transition is left, or one more is made and counted.
    rw [Machine.after, h.simulates.next_steps]
    by_cases hnone : (c.after δ n).current δ = none
    · have hle := Configuration.transitions_le_iff.2 hnone
      have hle' : (n : ℕ∞) ≤ (n + 1 : Nat) := by
        exact_mod_cast Nat.le_succ n
      rw [if_pos hnone, h.steps_eq, min_eq_right hle, min_eq_right (hle.trans hle')]
    · have hlt : (n : ℕ∞) < c.transitions δ := by
        rw [← not_le, Configuration.transitions_le_iff]
        exact hnone
      have hle : ((n + 1 : Nat) : ℕ∞) ≤ c.transitions δ := by
        push_cast
        exact Order.add_one_le_of_lt hlt
      rw [if_neg hnone, min_eq_left hle, Nat.cast_add, h.steps_eq, min_eq_left hlt.le,
        Nat.cast_add]

theorem after (h : m.Progress δ c tape line 0) :
    ∀ n, ∃ line', m.Progress δ c tape line' n := by
  intro n
  induction n with
  | zero => exact ⟨line, h⟩
  | succ n ih =>
      obtain ⟨line', h'⟩ := ih
      exact h'.succ

theorem halted_iff_max_le (h : m.Progress δ c tape line n) :
    (m.after n).status = .halted ↔ max (c.transitions δ) 1 ≤ n := by
  rw [h.halted_iff, max_le_iff, Configuration.transitions_le_iff, and_comm]
  simp

end Machine.Progress

namespace Machine

theorem steps_refine_textbook {tape : Tape} {members : List Instruction}
    {table : TransitionTable} {initialId : StateId} {m : Machine} (htape : tape.Reachable)
    (htable : TransitionTable.ofList members = .ok table)
    (hstart : start tape table initialId = .ok m) (n : Nat) :
    let δ := transition members
    let c := Configuration.initial tape initialId
    let N := c.transitions δ
    ((m.after n).steps : ℕ∞) = min (n : ℕ∞) N ∧
    (∃ lo hi, IsLeast (c.touched δ tape n) lo ∧ IsGreatest (c.touched δ tape n) hi ∧
      (m.after n).tapeText = Line.text ⟨(c.after δ n).symbol, lo, hi⟩ ∧
      ((m.after n).headIndex : Int) = (c.after δ n).position - lo) ∧
    (((n + 1 : Nat) : ℕ∞) < max N 1 → (m.after n).outcome = .ok .proceed) ∧
    (((n + 1 : Nat) : ℕ∞) = max N 1 → (m.after n).outcome = .ok .halt) ∧
    (max N 1 < ((n + 1 : Nat) : ℕ∞) → (m.after n).outcome = .error .alreadyHalted) ∧
    ((m.after n).status = .halted ↔ max N 1 ≤ (n : ℕ∞)) := by
  intro δ c N
  obtain ⟨_, hprogress⟩ := Progress.start htape htable hstart
  obtain ⟨line, hn⟩ := hprogress.after n
  obtain ⟨_, hsucc⟩ := hn.succ
  have hhalted : (m.after n).status = .halted ↔ max N 1 ≤ (n : ℕ∞) := hn.halted_iff_max_le
  have hnext : (m.after n).next.status = .halted ↔ max N 1 ≤ ((n + 1 : Nat) : ℕ∞) :=
    hsucc.halted_iff_max_le
  have hstep : (n : ℕ∞) < ((n + 1 : Nat) : ℕ∞) := by
    exact_mod_cast Nat.lt_succ_self n
  refine ⟨hn.steps_eq, ?_, ?_, ?_, ?_, hhalted⟩
  · refine ⟨line.lo, line.hi, hn.lo_least, hn.hi_greatest, ?_, ?_⟩
    · rw [hn.simulates.tracks.tapeText_eq, ← hn.simulates.symbol_eq]
    · exact hn.simulates.tracks.headIndex_eq
  · intro hlt
    rw [outcome_eq, if_neg, if_neg]
    · exact mt hnext.1 hlt.not_ge
    · exact mt hhalted.1 (hstep.trans hlt).not_ge
  · intro heq
    rw [outcome_eq, if_neg, if_pos]
    · exact hnext.2 heq.ge
    · exact mt hhalted.1 (heq ▸ hstep).not_ge
  · intro hlt
    rw [outcome_eq, if_pos]
    exact hhalted.2 (Order.le_of_lt_add_one (by exact_mod_cast hlt))

theorem steps_refine_textbook_off_the_left_end :
    ∃ (tape : Tape) (table : TransitionTable) (m : Machine),
      tape.Reachable ∧
      TransitionTable.ofList
        [⟨.ofNat 0, .one, .move .left, .ofNat 0⟩, ⟨.ofNat 0, .zero, .write .one, .ofNat 1⟩] =
          .ok table ∧
      start tape table (.ofNat 0) = .ok m ∧
      (m.after 2).outcome = .ok .halt ∧ (m.after 3).steps = 3 := by
  let script : TapeScript := ⟨some "1", [.move .left, .write '1']⟩
  let members : List Instruction :=
    [⟨.ofNat 0, .one, .move .left, .ofNat 0⟩, ⟨.ofNat 0, .zero, .write .one, .ofNat 1⟩]
  let tape := ((Session.on (Tape.ofSymbols [.one])).performEach script.commands).tape
  have htape : tape.Reachable := ⟨script, _, rfl, rfl⟩
  obtain ⟨table, m, htable, hstart⟩ : ∃ table m,
      TransitionTable.ofList members = .ok table ∧ start tape table (.ofNat 0) = .ok m := by
    refine exists_start tape ?_ ⟨_, List.mem_cons_self, rfl⟩
    simp [members, TransitionTable.Scan.ofList, TransitionTable.Scan.add,
      TransitionTable.Scan.start, Instruction.key, StateId.key]
  have hle : (Configuration.initial tape (.ofNat 0)).transitions (transition members) ≤
      (3 : Nat) :=
    Configuration.transitions_le_iff.2 (by decide +kernel)
  have hlt : ¬ (Configuration.initial tape (.ofNat 0)).transitions (transition members) ≤
      (2 : Nat) :=
    mt Configuration.transitions_le_iff.1 (by decide +kernel)
  have hge : ((3 : Nat) : ℕ∞) ≤
      (Configuration.initial tape (.ofNat 0)).transitions (transition members) := by
    exact_mod_cast Order.add_one_le_of_lt (not_le.1 hlt)
  have hthree := le_antisymm hle hge
  refine ⟨tape, table, m, htape, htable, hstart, ?_, ?_⟩
  · refine (steps_refine_textbook htape htable hstart 2).2.2.2.1 ?_
    rw [hthree]
    rfl
  · have hsteps := (steps_refine_textbook htape htable hstart 3).1
    rw [hthree, min_self] at hsteps
    exact_mod_cast hsteps

end Machine

end BinaryMachine
