import BinaryMachine.Proofs.Tape.Line

/-!
# Where the cells of a tape lie

Every cell of a tape that is built by moves and writes lies at one position of
the integer line, and its links lead to the cells next to it.  A layout is the
assignment of positions.  The positions of existing cells never change, so a
layout survives a move off an end by placing just the new cell.  The walks along
the links are then computed from positions: the left end is the cell at the
lowest position, the text is read from there, and the index is a distance.
-/

namespace BinaryMachine

open Line

namespace Tape

/-! ## Both directions at once -/

def neighbour? (tape : Tape) (id : CellId) : Direction → Option CellId
  | .left => tape.leftOf id
  | .right => tape.rightOf id

def extend (tape : Tape) (id : CellId) : Direction → Tape
  | .left => tape.extendLeft id
  | .right => tape.extendRight id

theorem move_eq (tape : Tape) (head : Head) (d : Direction) :
    head.move tape d =
      match tape.neighbour? head.cell d with
      | some other => (tape, ⟨other⟩)
      | none => (tape.extend head.cell d, ⟨tape.width⟩) := by
  cases d <;> rfl

theorem cell?_eq_none (tape : Tape) {id : CellId} (h : tape.width ≤ id) :
    tape.cell? id = none := by
  simpa [cell?, width] using h

theorem cell?_eq_some (tape : Tape) {id : CellId} (h : id < tape.width) :
    ∃ cell, tape.cell? id = some cell := by
  exact ⟨tape.cells[id], Array.getElem?_eq_getElem h⟩

@[simp] theorem width_extend (tape : Tape) (id : CellId) (d : Direction) :
    (tape.extend id d).width = tape.width + 1 := by
  cases d <;> simp [extend]

@[simp] theorem count_extend (tape : Tape) (id : CellId) (d : Direction) :
    (tape.extend id d).count = tape.count + 1 := by
  cases d <;> rfl

@[simp] theorem root_extend (tape : Tape) (id : CellId) (d : Direction) :
    (tape.extend id d).root = tape.root := by
  cases d <;> rfl

theorem symbolAt_extend (tape : Tape) (id other : CellId) (d : Direction) :
    (tape.extend id d).symbolAt other = tape.symbolAt other := by
  have hfresh := tape.cell?_eq_none (Nat.le_refl tape.width)
  cases d <;> simp only [extend, symbolAt, cell?_extendLeft, cell?_extendRight] <;>
    by_cases hwidth : other = tape.width <;> by_cases hid : id = other <;>
    cases hcell : tape.cell? other <;> simp_all

theorem serialAt_extend (tape : Tape) (id other : CellId) (d : Direction) :
    (tape.extend id d).serialAt other =
      if other = tape.width then tape.count else tape.serialAt other := by
  cases d <;> simp only [extend, serialAt, cell?_extendLeft, cell?_extendRight] <;>
    by_cases hwidth : other = tape.width <;> by_cases hid : id = other <;>
    cases hcell : tape.cell? other <;> simp_all

theorem neighbour?_extend (tape : Tape) {id : CellId} (hid : id < tape.width)
    (other : CellId) (d e : Direction) :
    (tape.extend id d).neighbour? other e =
      if other = tape.width then (if e = d then none else some id)
      else if other = id ∧ e = d then some tape.width
      else tape.neighbour? other e := by
  obtain ⟨cell, hcell⟩ := tape.cell?_eq_some hid
  cases d <;> cases e <;>
    simp only [extend, neighbour?, leftOf, rightOf, cell?_extendLeft, cell?_extendRight,
      eq_comm (a := id)] <;>
    by_cases hwidth : other = tape.width <;> by_cases hother : other = id <;>
    simp_all

theorem symbolAt_writeAt (tape : Tape) {id : CellId} (hid : id < tape.width)
    (other : CellId) (symbol : Symbol) :
    (tape.writeAt id symbol).symbolAt other =
      if other = id then symbol else tape.symbolAt other := by
  obtain ⟨cell, hcell⟩ := tape.cell?_eq_some hid
  by_cases hother : id = other
  · subst hother
    simp [symbolAt, cell?_writeAt, hcell]
  · simp [symbolAt, cell?_writeAt, hother, Ne.symm hother]

theorem serialAt_writeAt (tape : Tape) (id other : CellId) (symbol : Symbol) :
    (tape.writeAt id symbol).serialAt other = tape.serialAt other := by
  by_cases hother : id = other <;> cases hcell : tape.cell? other <;>
    simp [serialAt, cell?_writeAt, hother, hcell]

theorem neighbour?_writeAt (tape : Tape) (id other : CellId) (symbol : Symbol)
    (d : Direction) :
    (tape.writeAt id symbol).neighbour? other d = tape.neighbour? other d := by
  cases d <;> by_cases hother : id = other <;> cases hcell : tape.cell? other <;>
    simp [neighbour?, leftOf, rightOf, cell?_writeAt, hother, hcell]

/-! ## Layouts -/

/-- The cells of `tape` lie on `line`, each at the position that `place` gives it. -/
structure Layout (tape : Tape) (place : CellId → Int) (line : Line) : Prop where
  root_eq : tape.root = 0
  root_lt : 0 < tape.width
  place_root : place 0 = 0
  count_eq : tape.count = tape.width
  width_eq : (tape.width : Int) = line.hi - line.lo + 1
  serial_eq : ∀ id < tape.width, tape.serialAt id = id
  lo_le : ∀ id < tape.width, line.lo ≤ place id
  le_hi : ∀ id < tape.width, place id ≤ line.hi
  injective : ∀ a < tape.width, ∀ b < tape.width, place a = place b → a = b
  occupied : ∀ p, line.lo ≤ p → p ≤ line.hi → ∃ id < tape.width, place id = p
  neighbour_iff : ∀ id < tape.width, ∀ d other,
    tape.neighbour? id d = some other ↔ other < tape.width ∧ place other = place id + d.offset
  symbol_eq : ∀ id < tape.width, tape.symbolAt id = line.symbol (place id)
  blank_outside : ∀ p, p < line.lo ∨ line.hi < p → line.symbol p = .zero

namespace Layout

variable {tape : Tape} {place : CellId → Int} {line : Line} {id : CellId}

theorem neighbour_none_iff (h : tape.Layout place line) (hid : id < tape.width)
    (d : Direction) :
    tape.neighbour? id d = none ↔
      place id + d.offset < line.lo ∨ line.hi < place id + d.offset := by
  constructor
  · intro hnone
    by_contra hinside
    obtain ⟨other, hother, hplace⟩ := h.occupied (place id + d.offset) (by omega) (by omega)
    have hsome := (h.neighbour_iff id hid d other).2 ⟨hother, hplace⟩
    rw [hnone] at hsome
    contradiction
  · intro houtside
    cases hlink : tape.neighbour? id d with
    | none => rfl
    | some other =>
        obtain ⟨hother, hplace⟩ := (h.neighbour_iff id hid d other).1 hlink
        have := h.lo_le other hother
        have := h.le_hi other hother
        omega

theorem leftOf_none_iff (h : tape.Layout place line) (hid : id < tape.width) :
    tape.leftOf id = none ↔ place id = line.lo := by
  have hnone := h.neighbour_none_iff hid .left
  have := h.lo_le id hid
  have := h.le_hi id hid
  simp only [neighbour?, Direction.offset] at hnone
  rw [hnone]
  omega

theorem rightOf_none_iff (h : tape.Layout place line) (hid : id < tape.width) :
    tape.rightOf id = none ↔ place id = line.hi := by
  have hnone := h.neighbour_none_iff hid .right
  have := h.lo_le id hid
  have := h.le_hi id hid
  simp only [neighbour?, Direction.offset] at hnone
  rw [hnone]
  omega

/-! ## Operations -/

theorem blank : Tape.blank.Layout (fun _ => 0) Line.blank where
  root_eq := rfl
  root_lt := by decide
  place_root := rfl
  count_eq := rfl
  width_eq := by decide
  serial_eq := by decide
  lo_le := by simp [Line.blank]
  le_hi := by simp [Line.blank]
  injective := by
    intro a ha b hb _
    simp only [width, Tape.blank, List.size_toArray, List.length_cons, List.length_nil] at ha hb
    omega
  occupied := by
    intro p hlo hhi
    simp only [Line.blank] at hlo hhi
    exact ⟨0, by decide, by omega⟩
  neighbour_iff := by
    intro id hid d other
    simp only [width, Tape.blank, List.size_toArray, List.length_cons, List.length_nil] at hid
    obtain rfl : id = 0 := by omega
    cases d <;> simp [neighbour?, leftOf, rightOf, cell?, Tape.blank, Direction.offset]
  symbol_eq := by
    intro id hid
    simp only [width, Tape.blank, List.size_toArray, List.length_cons, List.length_nil] at hid
    obtain rfl : id = 0 := by omega
    rfl
  blank_outside := by simp [Line.blank]

theorem writeAt (h : tape.Layout place line) (hid : id < tape.width) (symbol : Symbol) :
    (tape.writeAt id symbol).Layout place (line.write (place id) symbol) where
  root_eq := h.root_eq
  root_lt := by simpa using h.root_lt
  place_root := h.place_root
  count_eq := by
    rw [width_writeAt]
    exact h.count_eq
  width_eq := by simpa using h.width_eq
  serial_eq := by simpa [serialAt_writeAt] using h.serial_eq
  lo_le := by simpa using h.lo_le
  le_hi := by simpa using h.le_hi
  injective := by simpa using h.injective
  occupied := by simpa using h.occupied
  neighbour_iff := by simpa [neighbour?_writeAt] using h.neighbour_iff
  symbol_eq := by
    intro other hother
    rw [width_writeAt] at hother
    rw [symbolAt_writeAt tape hid]
    by_cases hsame : other = id
    · simp [hsame, Line.write]
    · have hplace : place other ≠ place id := by
        intro hplace
        exact hsame (h.injective other hother id hid hplace)
      simp [hsame, Line.write, hplace, h.symbol_eq other hother]
  blank_outside := by
    intro p houtside
    have := h.lo_le id hid
    have := h.le_hi id hid
    have hp : p ≠ place id := by
      rintro rfl
      simp only [Line.write] at houtside
      omega
    simpa [Line.write, hp] using h.blank_outside p houtside

private theorem neighbour_iff_extend (h : tape.Layout place line) (hid : id < tape.width)
    {d : Direction} (hnone : tape.neighbour? id d = none) {place' : CellId → Int}
    (hold : ∀ other < tape.width, place' other = place other)
    (hcreated : place' tape.width = place id + d.offset)
    {other third : Nat} (hother : other < tape.width + 1) (e : Direction) :
    (tape.extend id d).neighbour? other e = some third ↔
      third < tape.width + 1 ∧ place' third = place' other + e.offset := by
  have houtside := (h.neighbour_none_iff hid d).1 hnone
  have hlo := h.lo_le id hid
  have hhi := h.le_hi id hid
  rw [neighbour?_extend tape hid]
  rcases Nat.lt_succ_iff_lt_or_eq.1 hother with hother | rfl
  · have hlo' := h.lo_le other hother
    have hhi' := h.le_hi other hother
    rw [if_neg (Nat.ne_of_lt hother), hold other hother]
    by_cases hedge : other = id ∧ e = d
    · -- The link that was missing now leads to the new cell.
      obtain ⟨rfl, rfl⟩ := hedge
      rw [if_pos ⟨rfl, rfl⟩, Option.some.injEq]
      constructor
      · rintro rfl
        exact ⟨Nat.lt_succ_self _, hcreated⟩
      · rintro ⟨hthird, hplace⟩
        rcases Nat.lt_succ_iff_lt_or_eq.1 hthird with hthird | rfl
        · rw [hold third hthird] at hplace
          have := h.lo_le third hthird
          have := h.le_hi third hthird
          omega
        · rfl
    · rw [if_neg hedge, h.neighbour_iff other hother]
      constructor
      · rintro ⟨hthird, hplace⟩
        exact ⟨Nat.lt_succ_of_lt hthird, (hold third hthird).trans hplace⟩
      · rintro ⟨hthird, hplace⟩
        rcases Nat.lt_succ_iff_lt_or_eq.1 hthird with hthird | rfl
        · exact ⟨hthird, (hold third hthird).symm.trans hplace⟩
        · -- No other old cell is next to the new one.
          rw [hcreated] at hplace
          have hside : e = d ∧ place other = place id := by
            cases d <;> cases e <;> simp only [Direction.offset] at houtside hplace <;>
              simp <;> omega
          exact absurd ⟨h.injective other hother id hid hside.2, hside.1⟩ hedge
  · -- From the new cell only the way back leads anywhere.
    rw [if_pos rfl, hcreated]
    by_cases hsame : e = d
    · subst hsame
      simp only [if_true, reduceCtorEq, false_iff]
      rintro ⟨hthird, hplace⟩
      rcases Nat.lt_succ_iff_lt_or_eq.1 hthird with hthird | rfl
      · rw [hold third hthird] at hplace
        have := h.lo_le third hthird
        have := h.le_hi third hthird
        cases e <;> simp only [Direction.offset] at houtside hplace <;> omega
      · rw [hcreated] at hplace
        cases e <;> simp only [Direction.offset] at hplace <;> omega
    · have hback : place id + d.offset + e.offset = place id := by
        cases d <;> cases e <;>
          first
          | exact absurd rfl hsame
          | simp only [Direction.offset]; omega
      rw [if_neg hsame, hback, Option.some.injEq]
      constructor
      · rintro rfl
        exact ⟨Nat.lt_succ_of_lt hid, hold id hid⟩
      · rintro ⟨hthird, hplace⟩
        rcases Nat.lt_succ_iff_lt_or_eq.1 hthird with hthird | rfl
        · rw [hold third hthird] at hplace
          exact h.injective id hid third hthird hplace.symm
        · rw [hcreated] at hplace
          cases d <;> simp only [Direction.offset] at hplace <;> omega

/-- A move off an end places one new cell, just outside of the interval. -/
theorem extend (h : tape.Layout place line) (hid : id < tape.width) {d : Direction}
    (hnone : tape.neighbour? id d = none) :
    (tape.extend id d).Layout
      (Function.update place tape.width (place id + d.offset))
      (line.stand (place id + d.offset)) := by
  have houtside := (h.neighbour_none_iff hid d).1 hnone
  have hlo := h.lo_le id hid
  have hhi := h.le_hi id hid
  have hwidth := h.width_eq
  have hnew : ∀ other < tape.width + 1, other = tape.width ∨ other < tape.width := by
    omega
  have hold : ∀ other < tape.width,
      Function.update place tape.width (place id + d.offset) other = place other := by
    intro other hother
    exact Function.update_of_ne (Nat.ne_of_lt hother) _ _
  have hcreated : Function.update place tape.width (place id + d.offset) tape.width =
      place id + d.offset := Function.update_self _ _ _
  constructor
  case root_eq => simpa using h.root_eq
  case root_lt => simp
  case place_root => rw [hold 0 h.root_lt, h.place_root]
  case count_eq => simp [h.count_eq]
  case width_eq =>
    rw [width_extend, lo_stand, hi_stand]
    cases d <;> simp only [Direction.offset] at houtside ⊢ <;> omega
  case serial_eq =>
    intro other hother
    rw [width_extend] at hother
    rw [serialAt_extend]
    rcases hnew other hother with rfl | hother
    · simp [h.count_eq]
    · rw [if_neg (Nat.ne_of_lt hother), h.serial_eq other hother]
  case lo_le =>
    intro other hother
    rw [width_extend] at hother
    rw [lo_stand]
    rcases hnew other hother with rfl | hother
    · rw [hcreated]
      omega
    · rw [hold other hother]
      have := h.lo_le other hother
      omega
  case le_hi =>
    intro other hother
    rw [width_extend] at hother
    rw [hi_stand]
    rcases hnew other hother with rfl | hother
    · rw [hcreated]
      omega
    · rw [hold other hother]
      have := h.le_hi other hother
      omega
  case injective =>
    -- The new position lies outside of the interval that holds all old ones.
    have hfresh : ∀ other < tape.width, place other ≠ place id + d.offset := by
      intro other hother
      have := h.lo_le other hother
      have := h.le_hi other hother
      omega
    intro a ha b hb hplace
    rw [width_extend] at ha hb
    rcases hnew a ha with rfl | ha <;> rcases hnew b hb with rfl | hb
    · rfl
    · rw [hcreated, hold b hb] at hplace
      exact absurd hplace.symm (hfresh b hb)
    · rw [hcreated, hold a ha] at hplace
      exact absurd hplace (hfresh a ha)
    · rw [hold a ha, hold b hb] at hplace
      exact h.injective a ha b hb hplace
  case occupied =>
    intro p hplo hphi
    rw [lo_stand] at hplo
    rw [hi_stand] at hphi
    rw [width_extend]
    by_cases hp : p = place id + d.offset
    · exact ⟨tape.width, Nat.lt_succ_self _, hcreated.trans hp.symm⟩
    · have hinside : line.lo ≤ p ∧ p ≤ line.hi := by
        cases d <;> simp only [Direction.offset] at houtside hplo hphi hp <;> omega
      obtain ⟨other, hother, hplace⟩ := h.occupied p hinside.1 hinside.2
      exact ⟨other, Nat.lt_succ_of_lt hother, (hold other hother).trans hplace⟩
  case neighbour_iff =>
    intro other hother e third
    rw [width_extend] at hother ⊢
    exact h.neighbour_iff_extend hid hnone hold hcreated hother e
  case symbol_eq =>
    intro other hother
    rw [width_extend] at hother
    rw [symbolAt_extend, symbol_stand]
    rcases hnew other hother with rfl | hother
    · rw [hcreated, h.blank_outside _ houtside, symbolAt,
        tape.cell?_eq_none (Nat.le_refl tape.width)]
    · rw [hold other hother, h.symbol_eq other hother]
  case blank_outside =>
    intro p hp
    rw [lo_stand, hi_stand] at hp
    exact h.blank_outside p (by omega)

end Layout

end Tape

/-! ## Heads -/

def Head.StandsAt (head : Head) (tape : Tape) (place : CellId → Int) (p : Int) : Prop :=
  head.cell < tape.width ∧ place head.cell = p

theorem Head.StandsAt.write {head : Head} {tape : Tape} {place : CellId → Int} {p : Int}
    (h : head.StandsAt tape place p) (other : Head) (symbol : Symbol) :
    head.StandsAt (other.write tape symbol) place p := by
  refine ⟨?_, h.2⟩
  rw [Head.write, Tape.width_writeAt]
  exact h.1

namespace Tape.Layout

variable {tape : Tape} {place : CellId → Int} {line : Line} {head : Head} {p : Int}

theorem lo_le_of_standsAt (h : tape.Layout place line) (hhead : head.StandsAt tape place p) :
    line.lo ≤ p := by
  obtain ⟨hcell, rfl⟩ := hhead
  exact h.lo_le head.cell hcell

theorem le_hi_of_standsAt (h : tape.Layout place line) (hhead : head.StandsAt tape place p) :
    p ≤ line.hi := by
  obtain ⟨hcell, rfl⟩ := hhead
  exact h.le_hi head.cell hcell

theorem atRoot (h : tape.Layout place line) : (Head.atRoot tape).StandsAt tape place 0 := by
  refine ⟨?_, ?_⟩
  · simpa [Head.atRoot, h.root_eq] using h.root_lt
  · simpa [Head.atRoot, h.root_eq] using h.place_root

theorem head_eq_iff (h : tape.Layout place line) {other : Head} {q : Int}
    (hhead : head.StandsAt tape place p) (hother : other.StandsAt tape place q) :
    head = other ↔ p = q := by
  obtain ⟨hcell, rfl⟩ := hhead
  obtain ⟨hcell', rfl⟩ := hother
  constructor
  · rintro rfl
    rfl
  · intro hplace
    have hsame := h.injective head.cell hcell other.cell hcell' hplace
    cases head
    cases other
    exact congrArg Head.mk hsame

theorem read_eq (h : tape.Layout place line) (hhead : head.StandsAt tape place p) :
    head.read tape = line.symbol p := by
  obtain ⟨hcell, rfl⟩ := hhead
  exact h.symbol_eq head.cell hcell

theorem isAtLeftEnd_iff (h : tape.Layout place line) (hhead : head.StandsAt tape place p) :
    head.isAtLeftEnd tape = true ↔ p = line.lo := by
  obtain ⟨hcell, rfl⟩ := hhead
  simpa [Head.isAtLeftEnd] using h.leftOf_none_iff hcell

theorem isAtRightEnd_iff (h : tape.Layout place line) (hhead : head.StandsAt tape place p) :
    head.isAtRightEnd tape = true ↔ p = line.hi := by
  obtain ⟨hcell, rfl⟩ := hhead
  simpa [Head.isAtRightEnd] using h.rightOf_none_iff hcell

theorem write (h : tape.Layout place line) (hhead : head.StandsAt tape place p)
    (symbol : Symbol) : (head.write tape symbol).Layout place (line.write p symbol) := by
  obtain ⟨hcell, rfl⟩ := hhead
  exact h.writeAt hcell symbol

/-- One move: the head ends up one position further, every other head stays at
the position where it was. -/
theorem move (h : tape.Layout place line) (hhead : head.StandsAt tape place p)
    (d : Direction) :
    ∃ place', (head.move tape d).1.Layout place' (line.stand (p + d.offset)) ∧
      (head.move tape d).2.StandsAt (head.move tape d).1 place' (p + d.offset) ∧
      ∀ other q, Head.StandsAt other tape place q →
        other.StandsAt (head.move tape d).1 place' q := by
  obtain ⟨hcell, rfl⟩ := hhead
  rw [move_eq]
  cases hlink : tape.neighbour? head.cell d with
  | some other =>
      obtain ⟨hother, hplace⟩ := (h.neighbour_iff head.cell hcell d other).1 hlink
      have hlo := h.lo_le other hother
      have hhi := h.le_hi other hother
      rw [hplace] at hlo hhi
      rw [line.stand_of_mem hlo hhi]
      exact ⟨place, h, ⟨hother, hplace⟩, fun _ _ hstands => hstands⟩
  | none =>
      refine ⟨_, h.extend hcell hlink, ⟨?_, Function.update_self _ _ _⟩, ?_⟩
      · simp
      · rintro other q ⟨hother, hplace⟩
        refine ⟨?_, ?_⟩
        · rw [width_extend]
          exact Nat.lt_succ_of_lt hother
        · exact (Function.update_of_ne (Nat.ne_of_lt hother) _ _).trans hplace

/-- One action: the head ends up where the action leads on the line, every other
head stays at the position where it was. -/
theorem act (h : tape.Layout place line) (hhead : head.StandsAt tape place p)
    (action : Action) :
    ∃ place', (head.act tape action).1.Layout place' (line.act p action).1 ∧
      (head.act tape action).2.StandsAt (head.act tape action).1 place' (line.act p action).2 ∧
      ∀ other q, Head.StandsAt other tape place q →
        other.StandsAt (head.act tape action).1 place' q := by
  cases action with
  | write symbol =>
      exact ⟨place, h.write hhead symbol, hhead.write head symbol,
        fun _ _ hstands => hstands.write head symbol⟩
  | move direction => exact h.move hhead direction

theorem advanceRight?_eq_none_iff (h : tape.Layout place line)
    (hhead : head.StandsAt tape place p) :
    head.advanceRight? tape = none ↔ p = line.hi := by
  obtain ⟨hcell, rfl⟩ := hhead
  simpa [Head.advanceRight?] using h.rightOf_none_iff hcell

theorem advanceRight?_standsAt (h : tape.Layout place line)
    (hhead : head.StandsAt tape place p) {next : Head}
    (hnext : head.advanceRight? tape = some next) :
    next.StandsAt tape place (p + 1) := by
  obtain ⟨hcell, rfl⟩ := hhead
  obtain ⟨right, hright, rfl⟩ := Option.map_eq_some_iff.1 hnext
  exact (h.neighbour_iff head.cell hcell .right right).1 hright

/-! ## Walks -/

theorem walkLeft_lt_and_place (h : tape.Layout place line) :
    ∀ (bound : Nat) (id : CellId), id < tape.width → place id - line.lo ≤ bound →
      tape.walkLeft bound id < tape.width ∧ place (tape.walkLeft bound id) = line.lo := by
  intro bound
  induction bound with
  | zero =>
      intro id hid hbound
      have := h.lo_le id hid
      exact ⟨hid, by simp only [walkLeft]; omega⟩
  | succ bound ih =>
      intro id hid hbound
      rw [walkLeft]
      cases hlink : tape.leftOf id with
      | none => exact ⟨hid, (h.leftOf_none_iff hid).1 hlink⟩
      | some left =>
          obtain ⟨hleft, hplace⟩ := (h.neighbour_iff id hid .left left).1 hlink
          simp only [Direction.offset] at hplace
          exact ih left hleft (by omega)

theorem leftEnd_lt_and_place (h : tape.Layout place line) {id : CellId}
    (hid : id < tape.width) :
    tape.leftEndOf id < tape.width ∧ place (tape.leftEndOf id) = line.lo := by
  have := h.le_hi id hid
  have := h.width_eq
  exact h.walkLeft_lt_and_place tape.width id hid (by omega)

theorem goToLeftEnd_standsAt (h : tape.Layout place line)
    (hhead : head.StandsAt tape place p) :
    (head.goToLeftEnd tape).StandsAt tape place line.lo :=
  h.leftEnd_lt_and_place hhead.1

theorem toList_appendFrom (h : tape.Layout place line) :
    ∀ (bound : Nat) (id : CellId) (text : String), id < tape.width →
      line.hi - place id ≤ bound →
      (tape.appendFrom text bound id).toList =
        text.toList ++ (line.symbolsFrom (place id)).map Symbol.char := by
  intro bound
  induction bound with
  | zero =>
      intro id text hid hbound
      have hhi : place id = line.hi := by
        have := h.le_hi id hid
        omega
      simp [appendFrom, h.symbol_eq id hid, hhi, line.symbolsFrom_hi]
  | succ bound ih =>
      intro id text hid hbound
      rw [appendFrom]
      cases hlink : tape.rightOf id with
      | none =>
          have hhi := (h.rightOf_none_iff hid).1 hlink
          simp [h.symbol_eq id hid, hhi, line.symbolsFrom_hi]
      | some right =>
          obtain ⟨hright, hplace⟩ := (h.neighbour_iff id hid .right right).1 hlink
          simp only [Direction.offset] at hplace
          have hlt : place id < line.hi := by
            have := h.le_hi right hright
            omega
          simp only []
          rw [ih right _ hright (by omega), hplace, line.symbolsFrom_cons hlt]
          simp [h.symbol_eq id hid]

theorem text_eq (h : tape.Layout place line) : tape.text = line.text := by
  have hroot : tape.root < tape.width := by
    rw [h.root_eq]
    exact h.root_lt
  obtain ⟨hend, hplace⟩ := h.leftEnd_lt_and_place hroot
  have hwidth := h.width_eq
  apply String.toList_inj.1
  rw [text, h.toList_appendFrom tape.width _ "" hend (by omega), hplace]
  simp [Line.text, Line.symbols]

theorem distanceTo_eq (h : tape.Layout place line) {target : CellId}
    (htarget : target < tape.width) :
    ∀ (bound passed distance : Nat) (id : CellId), id < tape.width →
      place id + distance = place target → distance ≤ bound →
      tape.distanceTo target passed bound id = passed + distance := by
  intro bound
  induction bound with
  | zero =>
      intro passed distance id _ _ hbound
      rw [distanceTo]
      omega
  | succ bound ih =>
      intro passed distance id hid hplace hbound
      rw [distanceTo, h.serial_eq id hid]
      by_cases hsame : id = target
      · subst hsame
        rw [if_pos rfl]
        omega
      · rw [if_neg hsame]
        have hpos : distance ≠ 0 := by
          rintro rfl
          exact hsame (h.injective id hid target htarget (by simpa using hplace))
        have hlt : place id ≠ line.hi := by
          have := h.le_hi target htarget
          omega
        cases hlink : tape.rightOf id with
        | none => exact absurd ((h.rightOf_none_iff hid).1 hlink) hlt
        | some right =>
            obtain ⟨hright, hnext⟩ := (h.neighbour_iff id hid .right right).1 hlink
            simp only [Direction.offset] at hnext
            simp only []
            rw [ih (passed + 1) (distance - 1) right hright (by omega) (by omega)]
            omega

theorem index_eq (h : tape.Layout place line) (hhead : head.StandsAt tape place p) :
    (head.index tape : Int) = p - line.lo := by
  obtain ⟨hcell, rfl⟩ := hhead
  have hroot : tape.root < tape.width := by
    rw [h.root_eq]
    exact h.root_lt
  obtain ⟨hend, hplace⟩ := h.leftEnd_lt_and_place hroot
  have hlo := h.lo_le head.cell hcell
  have hhi := h.le_hi head.cell hcell
  have hwidth := h.width_eq
  rw [Head.index, indexOf, h.serial_eq head.cell hcell,
    h.distanceTo_eq hcell tape.width 0 (place head.cell - line.lo).toNat _ hend
      (by omega) (by omega)]
  omega

/-- The text and the index of the root tell on which line a tape lies. -/
theorem line_eq {tape' : Tape} {place' : CellId → Int} {line' : Line}
    (h : tape.Layout place line) (h' : tape'.Layout place' line')
    (htext : tape'.text = tape.text)
    (hroot : (Head.atRoot tape').index tape' = (Head.atRoot tape).index tape) :
    line' = line := by
  have hlo : line'.lo = line.lo := by
    have hindex := h.index_eq h.atRoot
    have hindex' := h'.index_eq h'.atRoot
    omega
  have hlines : line'.text = line.text := by
    rw [← h.text_eq, ← h'.text_eq, htext]
  have hhi : line'.hi = line.hi := by
    have hlength := congrArg String.length hlines
    rw [Line.length_text, Line.length_text] at hlength
    have hwidth := h.width_eq
    have hwidth' := h'.width_eq
    omega
  have hsymbol : line'.symbol = line.symbol := by
    funext p
    by_cases hinside : line.lo ≤ p ∧ p ≤ line.hi
    · have hchar := line.getElem?_text hinside.1 hinside.2
      have hchar' := line'.getElem?_text (hlo.trans_le hinside.1) (hinside.2.trans_eq hhi.symm)
      rw [hlines, hlo, hchar] at hchar'
      exact Symbol.char_injective (Option.some.inj hchar').symm
    · rw [h.blank_outside p (by omega), h'.blank_outside p (by omega)]
  cases line
  cases line'
  simp_all

end Tape.Layout

end BinaryMachine
