import BinaryMachine.Proofs.Tape.Chain

/-!
# What stays on a tape

A tape only ever grows.  Every cell keeps its place in the order of creation and its
serial number, and a link that is there leads to the same cell for good.  A link that
is still missing may be filled in later, but then with a cell that did not exist
before.  A new cell is written into the link of the cell next to it whatever that link
was; nothing is lost there since a head extends the tape only where it found no link.
-/

namespace BinaryMachine

namespace Tape

/-- All cells and links of `tape` are those of `later`, which may have more of both. -/
structure GrowsInto (tape later : Tape) : Prop where
  root_eq : later.root = tape.root
  cell : ∀ id cell, tape.cell? id = some cell →
    ∃ cell', later.cell? id = some cell' ∧ cell'.serial = cell.serial
  link : ∀ id d other, tape.neighbour? id d = some other → later.neighbour? id d = some other
  new_link : ∀ id d other, id < tape.width → tape.neighbour? id d = none →
    later.neighbour? id d = some other → tape.cell? other = none ∧ later.cell? other ≠ none

theorem width_le_iff_cell?_eq_none {tape : Tape} {id : CellId} :
    tape.width ≤ id ↔ tape.cell? id = none := by
  simp [cell?, width]

theorem serial_eq_serialAt {tape : Tape} {id : CellId} {cell : Cell}
    (h : tape.cell? id = some cell) : cell.serial = tape.serialAt id := by
  simp [serialAt, h]

namespace GrowsInto

variable {tape middle later : Tape}

theorem of_serialAt (hroot : later.root = tape.root) (hwidth : tape.width ≤ later.width)
    (hserial : ∀ id < tape.width, later.serialAt id = tape.serialAt id)
    (hlink : ∀ id d other, tape.neighbour? id d = some other →
      later.neighbour? id d = some other)
    (hnew : ∀ id d other, id < tape.width → tape.neighbour? id d = none →
      later.neighbour? id d = some other → tape.width ≤ other ∧ other < later.width) :
    tape.GrowsInto later where
  root_eq := hroot
  cell := by
    intro id cell hcell
    have hid := Layout.lt_of_cell? hcell
    rcases later.cell?_eq_some (Nat.lt_of_lt_of_le hid hwidth) with ⟨cell', hcell'⟩
    refine ⟨cell', hcell', ?_⟩
    rw [serial_eq_serialAt hcell, serial_eq_serialAt hcell', hserial id hid]
  link := hlink
  new_link := by
    intro id d other hid hnone hsome
    rcases hnew id d other hid hnone hsome with ⟨hle, hlt⟩
    rcases later.cell?_eq_some hlt with ⟨cell, hcell⟩
    exact ⟨width_le_iff_cell?_eq_none.1 hle, by simp [hcell]⟩

theorem refl (tape : Tape) : tape.GrowsInto tape where
  root_eq := rfl
  cell := fun _ cell hcell => ⟨cell, hcell, rfl⟩
  link := fun _ _ _ hlink => hlink
  new_link := by
    intro id d other _ hnone hsome
    rw [hnone] at hsome
    contradiction

theorem width_le (h : tape.GrowsInto later) : tape.width ≤ later.width := by
  by_contra hlt
  have hnone := width_le_iff_cell?_eq_none.1 (Nat.le_refl later.width)
  rcases tape.cell?_eq_some (Nat.lt_of_not_le hlt) with ⟨cell, hcell⟩
  rcases h.cell _ cell hcell with ⟨cell', hcell', -⟩
  rw [hnone] at hcell'
  contradiction

theorem cell?_ne_none (h : tape.GrowsInto later) {id : CellId} (hid : tape.cell? id ≠ none) :
    later.cell? id ≠ none := by
  rcases Option.ne_none_iff_exists'.1 hid with ⟨cell, hcell⟩
  rcases h.cell id cell hcell with ⟨cell', hcell', -⟩
  simp [hcell']

theorem trans (h : tape.GrowsInto middle) (h' : middle.GrowsInto later) :
    tape.GrowsInto later where
  root_eq := h'.root_eq.trans h.root_eq
  cell := by
    intro id cell hcell
    rcases h.cell id cell hcell with ⟨cell', hcell', hserial⟩
    rcases h'.cell id cell' hcell' with ⟨cell'', hcell'', hserial'⟩
    exact ⟨cell'', hcell'', hserial'.trans hserial⟩
  link := fun id d other hlink => h'.link id d other (h.link id d other hlink)
  new_link := by
    intro id d other hid hnone hsome
    cases hmiddle : middle.neighbour? id d with
    | none =>
        have hid' := Nat.lt_of_lt_of_le hid h.width_le
        rcases h'.new_link id d other hid' hmiddle hsome with ⟨hold, hlater⟩
        exact ⟨by_contra fun hcell => h.cell?_ne_none hcell hold, hlater⟩
    | some between =>
        -- The link was filled in on the way, and has led to that cell ever since.
        have hsame := h'.link id d between hmiddle
        rw [hsome] at hsame
        cases hsame
        rcases h.new_link id d other hid hnone hmiddle with ⟨hold, hcell⟩
        exact ⟨hold, h'.cell?_ne_none hcell⟩

end GrowsInto

/-! ## Single changes -/

/-- The link that is overwritten was missing. -/
theorem growsInto_extend {tape : Tape} {id : CellId} (hid : id < tape.width) {d : Direction}
    (hnone : tape.neighbour? id d = none) : tape.GrowsInto (tape.extend id d) := by
  apply GrowsInto.of_serialAt (root_extend tape id d)
  · rw [width_extend]
    exact Nat.le_succ _
  · intro other hother
    rw [serialAt_extend, if_neg (Nat.ne_of_lt hother)]
  · intro other e third hlink
    have hother := Layout.lt_of_neighbour? hlink
    rw [neighbour?_extend tape hid, if_neg (Nat.ne_of_lt hother), if_neg, hlink]
    rintro ⟨rfl, rfl⟩
    rw [hnone] at hlink
    contradiction
  · intro other e third hother hmissing hsome
    rw [neighbour?_extend tape hid, if_neg (Nat.ne_of_lt hother)] at hsome
    split at hsome
    · cases hsome
      rw [width_extend]
      exact ⟨Nat.le_refl _, Nat.lt_succ_self _⟩
    · rw [hmissing] at hsome
      contradiction

variable {tape : Tape} {head : Head}

theorem growsInto_move (hcell : head.cell < tape.width) (d : Direction) :
    tape.GrowsInto (head.move tape d).1 := by
  rw [move_eq]
  cases hlink : tape.neighbour? head.cell d with
  | none => exact growsInto_extend hcell hlink
  | some other => exact .refl tape

theorem width_move (head : Head) (tape : Tape) (d : Direction) :
    (head.move tape d).1.width =
      tape.width + if tape.neighbour? head.cell d = none then 1 else 0 := by
  rw [move_eq]
  cases tape.neighbour? head.cell d <;> simp

theorem symbolAt_move (head : Head) (tape : Tape) (d : Direction) (id : CellId) :
    (head.move tape d).1.symbolAt id = tape.symbolAt id := by
  rw [move_eq]
  cases tape.neighbour? head.cell d with
  | none => exact symbolAt_extend tape head.cell id d
  | some other => rfl

/-- Nothing differs but the symbol of one cell. -/
structure SameBut (tape later : Tape) (id : CellId) : Prop where
  root_eq : later.root = tape.root
  width_eq : later.width = tape.width
  count_eq : later.count = tape.count
  serial_eq : ∀ other, later.serialAt other = tape.serialAt other
  link_eq : ∀ other d, later.neighbour? other d = tape.neighbour? other d
  symbol_eq : ∀ other, other ≠ id → later.symbolAt other = tape.symbolAt other

theorem SameBut.refl (tape : Tape) (id : CellId) : tape.SameBut tape id :=
  ⟨rfl, rfl, rfl, fun _ => rfl, fun _ _ => rfl, fun _ _ => rfl⟩

theorem SameBut.growsInto {later : Tape} {id : CellId} (h : tape.SameBut later id) :
    tape.GrowsInto later := by
  apply GrowsInto.of_serialAt h.root_eq (Nat.le_of_eq h.width_eq.symm)
  · exact fun other _ => h.serial_eq other
  · intro other d third hlink
    rwa [h.link_eq]
  · intro other d third _ hnone hsome
    rw [h.link_eq, hnone] at hsome
    contradiction

theorem sameBut_writeAt {id : CellId} (hid : id < tape.width) (symbol : Symbol) :
    tape.SameBut (tape.writeAt id symbol) id where
  root_eq := rfl
  width_eq := width_writeAt tape id symbol
  count_eq := rfl
  serial_eq := fun other => serialAt_writeAt tape id other symbol
  link_eq := fun other d => neighbour?_writeAt tape id other symbol d
  symbol_eq := by
    intro other hother
    rw [symbolAt_writeAt tape hid, if_neg hother]

end Tape

/-! ## Commands -/

namespace Session

variable {session : Session}

/-- Only moves and writes touch the tape. -/
theorem tape_perform_of_ne (session : Session) {command : Command}
    (hmove : ∀ d, command ≠ .move d) (hwrite : ∀ c, command ≠ .write c) :
    (session.perform command).1.tape = session.tape := by
  cases command with
  | move direction => exact absurd rfl (hmove direction)
  | write c => exact absurd rfl (hwrite c)
  | advanceRight =>
      simp only [perform]
      cases session.head.advanceRight? session.tape <;> rfl
  | cellIn content =>
      simp only [perform]
      cases Tape.ofText content <;> rfl
  | _ => rfl

theorem tape_perform_write (session : Session) (c : Char) :
    (session.perform (.write c)).1.tape =
      match Symbol.ofChar? c with
      | some symbol => session.tape.writeAt session.head.cell symbol
      | none => session.tape := by
  simp only [perform, Head.writeChar, Symbol.parse]
  cases Symbol.ofChar? c <;> rfl

theorem sameBut_perform_write (hcell : session.head.cell < session.tape.width) (c : Char) :
    session.tape.SameBut (session.perform (.write c)).1.tape session.head.cell := by
  rw [tape_perform_write]
  cases Symbol.ofChar? c with
  | none => exact .refl _ _
  | some symbol => exact Tape.sameBut_writeAt hcell symbol

theorem growsInto_perform (hcell : session.head.cell < session.tape.width) (command : Command) :
    session.tape.GrowsInto (session.perform command).1.tape := by
  by_cases hmove : ∃ d, command = .move d
  · rcases hmove with ⟨d, rfl⟩
    exact Tape.growsInto_move hcell d
  by_cases hwrite : ∃ c, command = .write c
  · rcases hwrite with ⟨c, rfl⟩
    exact (sameBut_perform_write hcell c).growsInto
  · rw [session.tape_perform_of_ne (fun d hd => hmove ⟨d, hd⟩) (fun c hc => hwrite ⟨c, hc⟩)]
    exact .refl _

theorem Follows.growsInto_performEach (commands : List Command) :
    ∀ {session : Session} {model : LineSession} {place : CellId → Int},
      session.Follows model place →
      session.tape.GrowsInto (session.performEach commands).tape := by
  induction commands with
  | nil =>
      intro session model place _
      exact .refl _
  | cons command rest ih =>
      intro session model place h
      rcases h.perform command with ⟨place', hnext⟩
      exact (growsInto_perform h.head.1 command).trans (ih hnext)

end Session

/-- Whatever is done through any heads, the cells and links that are there stay; one
move makes at most one cell and writes nothing, one write makes and links nothing. -/
theorem cells_and_links_stay {script : TapeScript} {start : Tape}
    (hstart : script.start = .ok start) :
    let session := (Session.on start).performEach script.commands
    (∀ commands, session.tape.GrowsInto (session.performEach commands).tape) ∧
    (∀ d, (session.perform (.move d)).1.tape.width = session.tape.width +
        (if session.tape.neighbour? session.head.cell d = none then 1 else 0) ∧
      ∀ id, (session.perform (.move d)).1.tape.symbolAt id = session.tape.symbolAt id) ∧
    (∀ c, session.tape.SameBut (session.perform (.write c)).1.tape session.head.cell) ∧
    ∀ command, (∀ d, command ≠ .move d) → (∀ c, command ≠ .write c) →
      (session.perform command).1.tape = session.tape := by
  intro session
  rcases TapeScript.exists_follows hstart with ⟨place, hfollows⟩
  refine ⟨fun commands => hfollows.growsInto_performEach commands, ?_,
    Session.sameBut_perform_write hfollows.head.1, fun _ => session.tape_perform_of_ne⟩
  intro d
  exact ⟨Tape.width_move session.head session.tape d,
    Tape.symbolAt_move session.head session.tape d⟩

theorem cells_and_links_stay_past_both_ends :
    ∃ start, TapeScript.start ⟨some "01", []⟩ = .ok start ∧
      let session := (Session.on start).performEach [.move .left, .newHead, .move .right]
      let later := session.performEach [.move .right, .write '1', .use 0, .move .left]
      session.tape.GrowsInto later.tape ∧ later.tape.width = session.tape.width + 2 ∧
        session.tape.SameBut (session.perform (.write '0')).1.tape session.head.cell ∧
        (session.perform .goToLeftEnd).1.tape = session.tape := by
  refine ⟨_, rfl, ?_⟩
  have hall := @cells_and_links_stay ⟨some "01", [.move .left, .newHead, .move .right]⟩ _ rfl
  exact ⟨hall.1 _, rfl, hall.2.2.1 '0', hall.2.2.2 .goToLeftEnd nofun nofun⟩

end BinaryMachine
