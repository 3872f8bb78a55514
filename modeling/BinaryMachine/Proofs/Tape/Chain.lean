import BinaryMachine.Proofs.Tape.Refinement

/-!
# The cells of a tape form one chain

From the left end the right links lead through every cell once.  A cell is
created next to an end, outside of all the cells there are.  So the cells on one
side of the root are the newer the farther they lie from it, and along the chain
the serial numbers fall down to the root and rise from there on.
-/

namespace BinaryMachine

namespace Tape

/-! ## The way along the right links -/

/-- The cells from `id` on, following at most `bound` right links. -/
def cellsFrom (tape : Tape) : Nat → CellId → List CellId
  | 0, id => [id]
  | bound + 1, id =>
      match tape.rightOf id with
      | some right => id :: tape.cellsFrom bound right
      | none => [id]

namespace Layout

variable {tape : Tape} {place : CellId → Int} {line : Line} {id : CellId}

/-- What holds of the last cell alone, and of a walk as soon as it holds of the
walk from the next cell on, holds of every walk to the right end. -/
theorem cellsFrom_induction (h : tape.Layout place line)
    {motive : CellId → List CellId → Prop}
    (last : ∀ id < tape.width, place id = line.hi → motive id [id])
    (step : ∀ id < tape.width, ∀ right < tape.width, place right = place id + 1 →
      ∀ ids, motive right ids → motive id (id :: ids)) :
    ∀ (bound : Nat) (id : CellId), id < tape.width → line.hi - place id ≤ bound →
      motive id (tape.cellsFrom bound id) := by
  intro bound
  induction bound with
  | zero =>
      intro id hid hbound
      have := h.le_hi id hid
      exact last id hid (by omega)
  | succ bound ih =>
      intro id hid hbound
      rw [cellsFrom]
      cases hlink : tape.rightOf id with
      | none => exact last id hid ((h.rightOf_none_iff hid).1 hlink)
      | some right =>
          obtain ⟨hright, hplace⟩ := (h.neighbour_iff id hid .right right).1 hlink
          simp only [Direction.offset] at hplace
          exact step id hid right hright hplace _ (ih right hright (by omega))

theorem mem_cellsFrom (h : tape.Layout place line) {bound : Nat} (hid : id < tape.width)
    (hbound : line.hi - place id ≤ bound) (other : CellId) :
    other ∈ tape.cellsFrom bound id ↔ other < tape.width ∧ place id ≤ place other := by
  apply h.cellsFrom_induction (motive := fun id ids =>
    other ∈ ids ↔ other < tape.width ∧ place id ≤ place other) ?_ ?_ bound id hid hbound
  · intro id hid hhi
    rw [List.mem_singleton]
    constructor
    · rintro rfl
      exact ⟨hid, Int.le_refl _⟩
    · rintro ⟨hother, hle⟩
      have := h.le_hi other hother
      exact h.injective other hother id hid (by omega)
  · intro id hid right hright hplace ids hids
    rw [List.mem_cons, hids, hplace]
    constructor
    · rintro (rfl | ⟨hother, hle⟩)
      · exact ⟨hid, Int.le_refl _⟩
      · exact ⟨hother, by omega⟩
    · rintro ⟨hother, hle⟩
      by_cases hsame : place other = place id
      · exact .inl (h.injective other hother id hid hsame)
      · exact .inr ⟨hother, by omega⟩

theorem pairwise_cellsFrom (h : tape.Layout place line) {bound : Nat} (hid : id < tape.width)
    (hbound : line.hi - place id ≤ bound) :
    (tape.cellsFrom bound id).Pairwise fun a b => place a < place b := by
  have hboth : (tape.cellsFrom bound id).Pairwise (fun a b => place a < place b) ∧
      ∀ other ∈ tape.cellsFrom bound id, place id ≤ place other := by
    apply h.cellsFrom_induction (motive := fun id ids =>
      ids.Pairwise (fun a b => place a < place b) ∧ ∀ other ∈ ids, place id ≤ place other)
      ?_ ?_ bound id hid hbound
    · intro id _ _
      simp
    · rintro id _ right _ hplace ids ⟨hpairwise, hle⟩
      rw [List.pairwise_cons, List.forall_mem_cons]
      refine ⟨⟨?_, hpairwise⟩, Int.le_refl _, ?_⟩
      · intro other hother
        have := hle other hother
        omega
      · intro other hother
        have := hle other hother
        omega
  exact hboth.1

theorem getLast?_cellsFrom (h : tape.Layout place line) {last : CellId}
    (hlast : last < tape.width) (hhi : place last = line.hi) {bound : Nat}
    (hid : id < tape.width) (hbound : line.hi - place id ≤ bound) :
    (tape.cellsFrom bound id).getLast? = some last := by
  apply h.cellsFrom_induction (motive := fun _ ids => ids.getLast? = some last)
    ?_ ?_ bound id hid hbound
  · intro id hid hplace
    rw [h.injective id hid last hlast (hplace.trans hhi.symm)]
    rfl
  · intro id _ right _ _ ids hids
    rw [List.getLast?_cons, hids]
    rfl

theorem perm_cellsFrom (h : tape.Layout place line) {first : CellId}
    (hfirst : first < tape.width) (hplace : place first = line.lo) :
    (tape.cellsFrom tape.width first).Perm (List.range tape.width) := by
  have hwidth := h.width_eq
  have hbound : line.hi - place first ≤ tape.width := by
    omega
  have hnodup : (tape.cellsFrom tape.width first).Nodup := by
    apply (h.pairwise_cellsFrom hfirst hbound).imp
    rintro a b hlt rfl
    exact absurd hlt (Int.lt_irrefl _)
  rw [List.perm_ext_iff_of_nodup hnodup List.nodup_range]
  intro id
  rw [h.mem_cellsFrom hfirst hbound, List.mem_range, hplace]
  exact ⟨fun hid => hid.1, fun hid => ⟨hid, h.lo_le id hid⟩⟩

end Layout

/-! ## Growing outwards -/

/-- Every cell lies to one side of all the older ones. -/
def Outward (tape : Tape) : Prop :=
  ∀ new < tape.width,
    (∀ old < new, tape.indexOf old < tape.indexOf new) ∨
    (∀ old < new, tape.indexOf new < tape.indexOf old)

namespace Layout

variable {tape : Tape} {place : CellId → Int} {line : Line} {id : CellId}

theorem indexOf_eq (h : tape.Layout place line) (hid : id < tape.width) :
    (tape.indexOf id : Int) = place id - line.lo := by
  have hstands : Head.StandsAt ⟨id⟩ tape place (place id) := ⟨hid, rfl⟩
  exact h.index_eq hstands

theorem outward_iff (h : tape.Layout place line) :
    tape.Outward ↔ ∀ new < tape.width,
      (∀ old < new, place old < place new) ∨ (∀ old < new, place new < place old) := by
  have hlt : ∀ a < tape.width, ∀ b < tape.width,
      tape.indexOf a < tape.indexOf b ↔ place a < place b := by
    intro a ha b hb
    have := h.indexOf_eq ha
    have := h.indexOf_eq hb
    omega
  constructor
  · intro hout new hnew
    rcases hout new hnew with hright | hleft
    · exact .inl fun old hold => (hlt old (hold.trans hnew) new hnew).1 (hright old hold)
    · exact .inr fun old hold => (hlt new hnew old (hold.trans hnew)).1 (hleft old hold)
  · intro hout new hnew
    rcases hout new hnew with hright | hleft
    · exact .inl fun old hold => (hlt old (hold.trans hnew) new hnew).2 (hright old hold)
    · exact .inr fun old hold => (hlt new hnew old (hold.trans hnew)).2 (hleft old hold)

theorem outward_writeAt (h : tape.Layout place line) (hid : id < tape.width)
    (hout : tape.Outward) (symbol : Symbol) : (tape.writeAt id symbol).Outward := by
  rw [(h.writeAt hid symbol).outward_iff, width_writeAt]
  exact h.outward_iff.1 hout

theorem outward_extend (h : tape.Layout place line) (hid : id < tape.width) {d : Direction}
    (hnone : tape.neighbour? id d = none) (hout : tape.Outward) :
    (tape.extend id d).Outward := by
  have houtside := (h.neighbour_none_iff hid d).1 hnone
  have hold := h.outward_iff.1 hout
  rw [(h.extend hid hnone).outward_iff, width_extend]
  intro new hnew
  rcases Nat.lt_succ_iff_lt_or_eq.1 hnew with hnew | rfl
  · rw [Function.update_of_ne (Nat.ne_of_lt hnew)]
    rcases hold new hnew with hright | hleft
    · refine .inl fun old hlt => ?_
      rw [Function.update_of_ne (Nat.ne_of_lt (hlt.trans hnew))]
      exact hright old hlt
    · refine .inr fun old hlt => ?_
      rw [Function.update_of_ne (Nat.ne_of_lt (hlt.trans hnew))]
      exact hleft old hlt
  · rw [Function.update_self]
    rcases houtside with hlo | hhi
    · refine .inr fun old hlt => ?_
      rw [Function.update_of_ne (Nat.ne_of_lt hlt)]
      exact hlo.trans_le (h.lo_le old hlt)
    · refine .inl fun old hlt => ?_
      rw [Function.update_of_ne (Nat.ne_of_lt hlt)]
      exact (h.le_hi old hlt).trans_lt hhi

theorem outward_move (h : tape.Layout place line) {head : Head} {p : Int}
    (hhead : head.StandsAt tape place p) (hout : tape.Outward) (d : Direction) :
    (head.move tape d).1.Outward := by
  rw [move_eq]
  cases hlink : tape.neighbour? head.cell d with
  | some other => exact hout
  | none => exact h.outward_extend hhead.1 hlink hout

private theorem outward_foldl (rest : List Symbol) :
    ∀ {tape : Tape} {head : Head} {place : CellId → Int} {line : Line} {p : Int},
      tape.Layout place line → head.StandsAt tape place p → tape.Outward →
      (rest.foldl (fun (tape, head) symbol =>
          let (tape, head) := Head.moveRight head tape
          (head.write tape symbol, head)) (tape, head)).1.Outward := by
  induction rest with
  | nil =>
      intro tape head place line p _ _ hout
      exact hout
  | cons symbol rest ih =>
      intro tape head place line p h hhead hout
      obtain ⟨place', hmoved, hstands, -⟩ := h.move hhead .right
      have hout' := h.outward_move hhead hout .right
      exact ih (hmoved.write hstands symbol) (hstands.write _ symbol)
        (hmoved.outward_writeAt hstands.1 hout' symbol)

theorem outward_blank : Tape.blank.Outward := by
  rw [blank.outward_iff]
  intro new hnew
  refine .inl fun old hlt => ?_
  change new < 1 at hnew
  omega

end Layout

theorem outward_ofSymbols (symbols : List Symbol) : (ofSymbols symbols).Outward := by
  cases symbols with
  | nil => exact Layout.outward_blank
  | cons symbol rest =>
      have hroot := Layout.blank.atRoot
      exact Layout.outward_foldl rest (Layout.blank.write hroot symbol) (hroot.write _ symbol)
        (Layout.blank.outward_writeAt hroot.1 Layout.outward_blank symbol)

end Tape

namespace Session.Follows

variable {session : Session} {model : LineSession} {place : CellId → Int}

theorem outward_perform (h : session.Follows model place) (hout : session.tape.Outward)
    (command : Command) : (session.perform command).1.tape.Outward := by
  cases command with
  | move direction => exact h.layout.outward_move h.head hout direction
  | write c =>
      simp only [Session.perform, Head.writeChar, Symbol.parse]
      cases Symbol.ofChar? c with
      | none => exact hout
      | some symbol => exact h.layout.outward_writeAt h.head.1 hout symbol
  | advanceRight =>
      simp only [Session.perform]
      cases session.head.advanceRight? session.tape <;> exact hout
  | cellIn content =>
      simp only [Session.perform]
      cases Tape.ofText content <;> exact hout
  | goToLeftEnd => exact hout
  | read => exact hout
  | cell => exact hout
  | root => exact hout
  | isAtRoot => exact hout
  | newHead => exact hout
  | cloneHead => exact hout
  | use head => exact hout
  | sharesCellWith head => exact hout

theorem outward_performEach (commands : List Command) :
    ∀ {session : Session} {model : LineSession} {place : CellId → Int},
      session.Follows model place → session.tape.Outward →
      (session.performEach commands).tape.Outward := by
  induction commands with
  | nil =>
      intro session model place _ hout
      exact hout
  | cons command rest ih =>
      intro session model place h hout
      obtain ⟨place', hnext⟩ := h.perform command
      exact ih hnext (h.outward_perform hout command)

theorem cell_lt (h : session.Follows model place) {head : Head} (hhead : head ∈ session.heads) :
    head.cell < session.tape.width := by
  obtain ⟨i, hi⟩ := List.mem_iff_getElem?.1 hhead
  have hstands := (h.stands i).1
  rwa [headAt, List.getD_eq_getElem?_getD, hi, Option.getD_some] at hstands

end Session.Follows

/-! ## One chain -/

namespace Tape

/-- The right links lead from `first` through all cells to `last`.  The serial
numbers fall down to the root's and rise from there on. -/
structure Chained (tape : Tape) (first last : CellId) : Prop where
  first_lt : first < tape.width
  leftOf_none_iff : ∀ id < tape.width, tape.leftOf id = none ↔ id = first
  last_lt : last < tape.width
  rightOf_none_iff : ∀ id < tape.width, tape.rightOf id = none ↔ id = last
  visits_each : (tape.cellsFrom tape.width first).Perm (List.range tape.width)
  ends : (tape.cellsFrom tape.width first).getLast? = some last
  serials : ∃ before after,
    (tape.cellsFrom tape.width first).map tape.serialAt =
      before ++ tape.serialAt tape.root :: after ∧
    (before ++ [tape.serialAt tape.root]).Pairwise (· > ·) ∧
    (tape.serialAt tape.root :: after).Pairwise (· < ·)
  newest_at_end : tape.width - 1 = first ∨ tape.width - 1 = last

/-- What holds of the cells of every tape, whatever has been done to it. -/
structure WellFormed (tape : Tape) : Prop where
  count_eq : tape.count = tape.width
  serial_eq : ∀ id cell, tape.cell? id = some cell → cell.serial = id
  root_eq : tape.root = 0
  link_lt : ∀ id cell other, tape.cell? id = some cell →
    cell.left = some other ∨ cell.right = some other → other < tape.width
  right_iff_left : ∀ a b, tape.rightOf a = some b ↔ tape.leftOf b = some a
  chained : ∃ first last, tape.Chained first last

namespace Layout

variable {tape : Tape} {place : CellId → Int} {line : Line}

/-- On each side of the root the cells that lie farther from it are newer. -/
theorem lt_of_outward (h : tape.Layout place line) (hout : tape.Outward) {a b : CellId}
    (ha : a < tape.width) (hb : b < tape.width)
    (hfarther : 0 ≤ place a ∧ place a < place b ∨ place b < place a ∧ place a ≤ 0) :
    a < b := by
  have hroot := h.place_root
  rcases Nat.lt_trichotomy a b with hlt | rfl | hgt
  · exact hlt
  · omega
  · -- If `a` were newer than both `b` and the root it would not lie between them.
    rcases h.outward_iff.1 hout a ha with hright | hleft
    · have := hright b hgt
      have := hright 0 (by omega)
      omega
    · have := hleft b hgt
      have := hleft 0 (by omega)
      omega

theorem serials_cellsFrom (h : tape.Layout place line) (hout : tape.Outward) {first : CellId}
    (hfirst : first < tape.width) (hplace : place first = line.lo) :
    ∃ before after,
      (tape.cellsFrom tape.width first).map tape.serialAt =
        before ++ tape.serialAt tape.root :: after ∧
      (before ++ [tape.serialAt tape.root]).Pairwise (· > ·) ∧
      (tape.serialAt tape.root :: after).Pairwise (· < ·) := by
  have hwidth := h.width_eq
  have hbound : line.hi - place first ≤ tape.width := by
    omega
  have hmem := h.mem_cellsFrom hfirst hbound
  have hroot : 0 ∈ tape.cellsFrom tape.width first :=
    (hmem 0).2 ⟨h.root_lt, by rw [hplace]; exact h.lo_le 0 h.root_lt⟩
  obtain ⟨before, after, hsplit⟩ := List.append_of_mem hroot
  have hlt : ∀ id ∈ before ++ 0 :: after, id < tape.width := by
    intro id hid
    rw [← hsplit] at hid
    exact ((hmem id).1 hid).1
  have hserial : ∀ ids : List CellId, (∀ id ∈ ids, id < tape.width) →
      ids.map tape.serialAt = ids := by
    intro ids hids
    exact (List.map_congr_left fun id hid => h.serial_eq id (hids id hid)).trans (List.map_id _)
  have hordered := h.pairwise_cellsFrom hfirst hbound
  rw [hsplit] at hordered
  have hfalling := hordered.sublist
    (List.Sublist.append_left (List.singleton_sublist.2 List.mem_cons_self) before)
  have hrising := hordered.sublist (List.sublist_append_right before (0 :: after))
  have hleft : ∀ id ∈ before ++ [0], id < tape.width ∧ place id ≤ 0 := by
    intro id hid
    rcases List.mem_append.1 hid with hbefore | hzero
    · have := (List.pairwise_append.1 hfalling).2.2 id hbefore 0 (List.mem_singleton_self 0)
      rw [h.place_root] at this
      exact ⟨hlt id (List.mem_append_left _ hbefore), Int.le_of_lt this⟩
    · rw [List.mem_singleton.1 hzero, h.place_root]
      exact ⟨h.root_lt, Int.le_refl 0⟩
  have hright : ∀ id ∈ 0 :: after, id < tape.width ∧ 0 ≤ place id := by
    intro id hid
    refine ⟨hlt id (List.mem_append_right _ hid), ?_⟩
    rcases List.mem_cons.1 hid with rfl | hafter
    · exact Int.le_of_eq h.place_root.symm
    · have := (List.pairwise_cons.1 hrising).1 id hafter
      rw [h.place_root] at this
      exact Int.le_of_lt this
  refine ⟨before, after, ?_, ?_, ?_⟩
  · rw [hsplit, hserial _ hlt, h.root_eq, h.serial_eq 0 h.root_lt]
  · rw [h.root_eq, h.serial_eq 0 h.root_lt]
    refine hfalling.imp_of_mem fun {a b} ha hb hplaces => ?_
    exact h.lt_of_outward hout (hleft b hb).1 (hleft a ha).1 (.inr ⟨hplaces, (hleft b hb).2⟩)
  · rw [h.root_eq, h.serial_eq 0 h.root_lt]
    refine hrising.imp_of_mem fun {a b} ha hb hplaces => ?_
    exact h.lt_of_outward hout (hright a ha).1 (hright b hb).1 (.inl ⟨(hright a ha).2, hplaces⟩)

/-- The newest cell lies outside of all others, so it is an end. -/
theorem newest_eq_end (h : tape.Layout place line) (hout : tape.Outward) {first last : CellId}
    (hfirst : first < tape.width) (hlo : place first = line.lo)
    (hlast : last < tape.width) (hhi : place last = line.hi) :
    tape.width - 1 = first ∨ tape.width - 1 = last := by
  have hnewest : tape.width - 1 < tape.width := Nat.sub_one_lt_of_lt h.root_lt
  have holder : ∀ id < tape.width, id ≠ tape.width - 1 → id < tape.width - 1 := by
    intro id hid hne
    omega
  rcases h.outward_iff.1 hout (tape.width - 1) hnewest with hright | hleft
  · right
    by_contra hne
    have := hright last (holder last hlast (Ne.symm hne))
    have := h.le_hi _ hnewest
    omega
  · left
    by_contra hne
    have := hleft first (holder first hfirst (Ne.symm hne))
    have := h.lo_le _ hnewest
    omega

theorem chained (h : tape.Layout place line) (hout : tape.Outward) :
    ∃ first last, tape.Chained first last := by
  have hroot_lo := h.lo_le 0 h.root_lt
  have hroot_hi := h.le_hi 0 h.root_lt
  have hwidth := h.width_eq
  obtain ⟨first, hfirst, hlo⟩ := h.occupied line.lo (Int.le_refl _) (by omega)
  obtain ⟨last, hlast, hhi⟩ := h.occupied line.hi (by omega) (Int.le_refl _)
  refine ⟨first, last, ?_⟩
  constructor
  case first_lt => exact hfirst
  case leftOf_none_iff =>
    intro id hid
    rw [h.leftOf_none_iff hid]
    constructor
    · intro hplace
      exact h.injective id hid first hfirst (hplace.trans hlo.symm)
    · rintro rfl
      exact hlo
  case last_lt => exact hlast
  case rightOf_none_iff =>
    intro id hid
    rw [h.rightOf_none_iff hid]
    constructor
    · intro hplace
      exact h.injective id hid last hlast (hplace.trans hhi.symm)
    · rintro rfl
      exact hhi
  case visits_each => exact h.perm_cellsFrom hfirst hlo
  case ends => exact h.getLast?_cellsFrom hlast hhi hfirst (by omega)
  case serials => exact h.serials_cellsFrom hout hfirst hlo
  case newest_at_end => exact h.newest_eq_end hout hfirst hlo hlast hhi

theorem lt_of_cell? {id : CellId} {cell : Cell} (hcell : tape.cell? id = some cell) :
    id < tape.width := by
  by_contra hge
  rw [tape.cell?_eq_none (Nat.le_of_not_lt hge)] at hcell
  contradiction

theorem lt_of_neighbour? {id other : CellId} {d : Direction}
    (hlink : tape.neighbour? id d = some other) : id < tape.width := by
  by_contra hge
  have hnone := tape.cell?_eq_none (Nat.le_of_not_lt hge)
  cases d <;> simp [neighbour?, leftOf, rightOf, hnone] at hlink

theorem rightOf_iff_leftOf (h : tape.Layout place line) (a b : CellId) :
    tape.rightOf a = some b ↔ tape.leftOf b = some a := by
  constructor
  · intro hlink
    have ha : a < tape.width := lt_of_neighbour? (d := .right) hlink
    obtain ⟨hb, hplace⟩ := (h.neighbour_iff a ha .right b).1 hlink
    simp only [Direction.offset] at hplace
    exact (h.neighbour_iff b hb .left a).2 ⟨ha, by simp only [Direction.offset]; omega⟩
  · intro hlink
    have hb : b < tape.width := lt_of_neighbour? (d := .left) hlink
    obtain ⟨ha, hplace⟩ := (h.neighbour_iff b hb .left a).1 hlink
    simp only [Direction.offset] at hplace
    exact (h.neighbour_iff a ha .right b).2 ⟨hb, by simp only [Direction.offset]; omega⟩

theorem wellFormed (h : tape.Layout place line) (hout : tape.Outward) : tape.WellFormed where
  count_eq := h.count_eq
  serial_eq := by
    intro id cell hcell
    have hserial := h.serial_eq id (lt_of_cell? hcell)
    rwa [serialAt, hcell] at hserial
  root_eq := h.root_eq
  link_lt := by
    intro id cell other hcell hlink
    have hid := lt_of_cell? hcell
    rcases hlink with hleft | hright
    · have hlink : tape.neighbour? id .left = some other := by
        simp [neighbour?, leftOf, hcell, hleft]
      exact ((h.neighbour_iff id hid .left other).1 hlink).1
    · have hlink : tape.neighbour? id .right = some other := by
        simp [neighbour?, rightOf, hcell, hright]
      exact ((h.neighbour_iff id hid .right other).1 hlink).1
  right_iff_left := h.rightOf_iff_leftOf
  chained := h.chained hout

end Layout

end Tape

theorem session_wellFormed {script : TapeScript} {tape : Tape}
    (hstart : script.start = .ok tape) :
    let session := (Session.on tape).performEach script.commands
    session.tape.WellFormed ∧ ∀ head ∈ session.heads, head.cell < session.tape.width := by
  intro session
  obtain ⟨place, hlayout⟩ := Tape.Layout.ofSymbols script.symbols
  have hout := Tape.outward_ofSymbols script.symbols
  rw [← TapeScript.start_eq_ofSymbols hstart] at hlayout hout
  have hon := Session.Follows.on hlayout
  obtain ⟨place', hfollows⟩ := hon.performEach script.commands
  exact ⟨hfollows.layout.wellFormed (hon.outward_performEach script.commands hout),
    fun head hhead => hfollows.cell_lt hhead⟩

theorem session_wellFormed_past_both_ends :
    ∃ tape, TapeScript.start ⟨some "01", []⟩ = .ok tape ∧
      let session := (Session.on tape).performEach
        [.move .left, .newHead, .move .right, .move .right, .use 0, .move .left]
      session.tape.WellFormed ∧ ∀ head ∈ session.heads, head.cell < session.tape.width :=
  ⟨_, rfl, @session_wellFormed ⟨some "01",
    [.move .left, .newHead, .move .right, .move .right, .use 0, .move .left]⟩ _ rfl⟩

/-! ## Reachable tapes -/

/-- However many heads have moved and written, the cells have a layout and have
grown outwards. -/
theorem TapeScript.exists_follows_outward {script : TapeScript} {tape : Tape}
    (hstart : script.start = .ok tape) :
    ∃ place, ((Session.on tape).performEach script.commands).Follows
        ((LineSession.on script.symbols).performEach script.commands) place ∧
      ((Session.on tape).performEach script.commands).tape.Outward := by
  obtain ⟨place, hlayout⟩ := Tape.Layout.ofSymbols script.symbols
  have hout := Tape.outward_ofSymbols script.symbols
  rw [← TapeScript.start_eq_ofSymbols hstart] at hlayout hout
  have hon := Session.Follows.on hlayout
  obtain ⟨place', hfollows⟩ := hon.performEach script.commands
  exact ⟨place', hfollows, hon.outward_performEach script.commands hout⟩

/-- A tape that is built by commands through any heads. -/
def Tape.Reachable (tape : Tape) : Prop :=
  ∃ script start, TapeScript.start script = .ok start ∧
    ((Session.on start).performEach script.commands).tape = tape

theorem Tape.Reachable.layout {tape : Tape} (h : tape.Reachable) :
    ∃ place line, tape.Layout place line := by
  obtain ⟨script, start, hstart, rfl⟩ := h
  obtain ⟨place, hfollows⟩ := TapeScript.exists_follows hstart
  exact ⟨place, _, hfollows.layout⟩

theorem Tape.reachable_of_ofText {text : String} {tape : Tape}
    (h : Tape.ofText text = .ok tape) : tape.Reachable :=
  ⟨⟨some text, []⟩, tape, h, rfl⟩

end BinaryMachine
