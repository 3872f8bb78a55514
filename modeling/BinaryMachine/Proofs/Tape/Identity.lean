import BinaryMachine.Proofs.Tape.Chain

/-!
# What tells two tapes apart

A walk from the left end to the right end comes by every cell once and sees its
symbol and its serial number.  The serial number is the place of the cell in the
order of creation, so the walk says which cell lies where, and every link follows
from that.  Two tapes are equal exactly if their walks are.  As long as a tape has
not been extended to the left its serial numbers count the cells from the left end,
and then it is the tape that is built from its text; afterwards it is not.
-/

namespace BinaryMachine

namespace Tape

/-! ## The walk -/

def inOrder (tape : Tape) : List CellId :=
  tape.cellsFrom tape.width (tape.leftEndOf tape.root)

/-- The symbol and the serial number of every cell, from the left end to the right end. -/
def visible (tape : Tape) : List (Symbol × Nat) :=
  tape.inOrder.map fun id => (tape.symbolAt id, tape.serialAt id)

/-- A tape is made of its cells, and a cell of its symbol, its serial number and
its two links. -/
theorem eq_of_cells {tape tape' : Tape} (hroot : tape.root = tape'.root)
    (hcount : tape.count = tape'.count) (hwidth : tape.width = tape'.width)
    (hsymbol : ∀ id < tape.width, tape.symbolAt id = tape'.symbolAt id)
    (hserial : ∀ id < tape.width, tape.serialAt id = tape'.serialAt id)
    (hlink : ∀ id < tape.width, ∀ d, tape.neighbour? id d = tape'.neighbour? id d) :
    tape = tape' := by
  have hcells : tape.cells = tape'.cells := by
    apply Array.ext hwidth
    intro id hid hid'
    have hcell : tape.cell? id = some tape.cells[id] := Array.getElem?_eq_getElem hid
    have hcell' : tape'.cell? id = some tape'.cells[id] := Array.getElem?_eq_getElem hid'
    have hleft := hlink id hid .left
    have hright := hlink id hid .right
    have hsymbol := hsymbol id hid
    have hserial := hserial id hid
    simp only [symbolAt, serialAt, neighbour?, leftOf, rightOf, hcell, hcell', Option.bind_eq_bind,
      Option.bind_some] at hsymbol hserial hleft hright
    generalize tape.cells[id] = cell at *
    generalize tape'.cells[id] = cell' at *
    cases cell
    cases cell'
    simp_all
  cases tape
  cases tape'
  simp_all

namespace Layout

variable {tape tape' : Tape} {place place' : CellId → Int} {line line' : Line} {id : CellId}

theorem leftEnd_root (h : tape.Layout place line) :
    tape.leftEndOf tape.root < tape.width ∧ place (tape.leftEndOf tape.root) = line.lo := by
  apply h.leftEnd_lt_and_place
  rw [h.root_eq]
  exact h.root_lt

theorem perm_inOrder (h : tape.Layout place line) :
    tape.inOrder.Perm (List.range tape.width) :=
  h.perm_cellsFrom h.leftEnd_root.1 h.leftEnd_root.2

theorem mem_inOrder (h : tape.Layout place line) : id ∈ tape.inOrder ↔ id < tape.width := by
  rw [h.perm_inOrder.mem_iff, List.mem_range]

theorem nodup_inOrder (h : tape.Layout place line) : tape.inOrder.Nodup :=
  h.perm_inOrder.nodup_iff.2 List.nodup_range

theorem length_inOrder (h : tape.Layout place line) : tape.inOrder.length = tape.width := by
  rw [h.perm_inOrder.length_eq, List.length_range]

/-- A walk comes by the cell that lies `n` positions further on after `n` others. -/
theorem getElem?_cellsFrom (h : tape.Layout place line) {bound : Nat} (hid : id < tape.width)
    (hbound : line.hi - place id ≤ bound) {other : CellId} (hother : other < tape.width)
    (hle : place id ≤ place other) :
    (tape.cellsFrom bound id)[(place other - place id).toNat]? = some other := by
  revert hle
  apply h.cellsFrom_induction (motive := fun id ids =>
    place id ≤ place other → ids[(place other - place id).toNat]? = some other)
    ?_ ?_ bound id hid hbound
  · intro id hid hhi hle
    have hsame : place other = place id := by
      have := h.le_hi other hother
      omega
    rw [h.injective other hother id hid hsame]
    simp
  · intro id hid right _ hplace ids hids hle
    by_cases hsame : place other = place id
    · rw [h.injective other hother id hid hsame]
      simp
    · have hindex : (place other - place id).toNat = (place other - place right).toNat + 1 := by
        omega
      rw [hindex, List.getElem?_cons_succ]
      exact hids (by omega)

theorem getElem?_inOrder (h : tape.Layout place line) (hid : id < tape.width) :
    tape.inOrder[(place id - line.lo).toNat]? = some id := by
  obtain ⟨hend, hlo⟩ := h.leftEnd_root
  have hwidth := h.width_eq
  have hle := h.lo_le id hid
  rw [← hlo] at hle ⊢
  exact h.getElem?_cellsFrom hend (by omega) hid hle

theorem map_symbolAt_inOrder (h : tape.Layout place line) :
    tape.inOrder.map tape.symbolAt = line.symbols := by
  obtain ⟨hend, hlo⟩ := h.leftEnd_root
  have hwidth := h.width_eq
  rw [Line.symbols, ← hlo]
  apply h.cellsFrom_induction (motive := fun id ids =>
    ids.map tape.symbolAt = line.symbolsFrom (place id)) ?_ ?_ _ _ hend (by omega)
  · intro id hid hhi
    rw [hhi, line.symbolsFrom_hi, List.map_singleton, h.symbol_eq id hid, hhi]
  · intro id hid right hright hplace ids hids
    have hlt : place id < line.hi := by
      have := h.le_hi right hright
      omega
    rw [line.symbolsFrom_cons hlt, List.map_cons, hids, hplace, h.symbol_eq id hid]

/-- The serial numbers that the walk sees are the places in the order of creation. -/
theorem map_serialAt_inOrder (h : tape.Layout place line) :
    tape.inOrder.map tape.serialAt = tape.inOrder := by
  refine (List.map_congr_left fun id hid => ?_).trans (List.map_id _)
  exact h.serial_eq id (h.mem_inOrder.1 hid)

theorem visible_eq_zip (h : tape.Layout place line) :
    tape.visible = line.symbols.zip tape.inOrder := by
  calc tape.visible
      = (tape.inOrder.map tape.symbolAt).zip (tape.inOrder.map tape.serialAt) :=
        List.zip_map'.symm
    _ = line.symbols.zip tape.inOrder := by
        rw [h.map_symbolAt_inOrder, h.map_serialAt_inOrder]

/-! ## The walk says everything -/

theorem place_eq_of_inOrder_eq (h : tape.Layout place line) (h' : tape'.Layout place' line')
    (hcells : tape.inOrder = tape'.inOrder) (hid : id < tape.width) (hid' : id < tape'.width) :
    place id = place' id := by
  have hoffset : ∀ id < tape.width, id < tape'.width →
      place id - line.lo = place' id - line'.lo := by
    intro id hid hid'
    have hget := h.getElem?_inOrder hid
    have hget' := h'.getElem?_inOrder hid'
    rw [← hcells] at hget'
    have hlt := (List.getElem?_eq_some_iff.1 hget).1
    have hindex := (List.getElem?_inj hlt h.nodup_inOrder).1 (hget.trans hget'.symm)
    have := h.lo_le id hid
    have := h'.lo_le id hid'
    omega
  -- The root lies at the position zero on both lines, so the lines start at one position.
  have hroot := hoffset 0 h.root_lt h'.root_lt
  rw [h.place_root, h'.place_root] at hroot
  have := hoffset id hid hid'
  omega

theorem eq_of_visible_eq (h : tape.Layout place line) (h' : tape'.Layout place' line')
    (hvisible : tape.visible = tape'.visible) : tape = tape' := by
  have hserials : tape.visible.map Prod.snd = tape'.visible.map Prod.snd := by
    rw [hvisible]
  have hcells : tape.inOrder = tape'.inOrder := by
    simpa [visible, Function.comp_def, h.map_serialAt_inOrder, h'.map_serialAt_inOrder]
      using hserials
  have hwidth : tape.width = tape'.width := by
    rw [← h.length_inOrder, ← h'.length_inOrder, hcells]
  have hplace : ∀ id < tape.width, place id = place' id := fun id hid =>
    h.place_eq_of_inOrder_eq h' hcells hid (hwidth ▸ hid)
  apply eq_of_cells
  · rw [h.root_eq, h'.root_eq]
  · rw [h.count_eq, h'.count_eq, hwidth]
  · exact hwidth
  · intro id hid
    rw [visible, visible, ← hcells, List.map_inj_left] at hvisible
    exact congrArg Prod.fst (hvisible id (h.mem_inOrder.2 hid))
  · intro id hid
    rw [h.serial_eq id hid, h'.serial_eq id (hwidth ▸ hid)]
  · intro id hid d
    apply Option.ext
    intro other
    rw [h.neighbour_iff id hid, h'.neighbour_iff id (hwidth ▸ hid), ← hwidth]
    constructor
    · rintro ⟨hother, hnext⟩
      exact ⟨hother, by rw [← hplace other hother, ← hplace id hid, hnext]⟩
    · rintro ⟨hother, hnext⟩
      exact ⟨hother, by rw [hplace other hother, hplace id hid, hnext]⟩

/-! ## What is read off the walk -/

theorem map_fst_visible (h : tape.Layout place line) :
    tape.visible.map Prod.fst = line.symbols := by
  rw [← h.map_symbolAt_inOrder, visible, List.map_map]
  rfl

theorem map_snd_visible (h : tape.Layout place line) :
    tape.visible.map Prod.snd = tape.inOrder := by
  conv_rhs => rw [← h.map_serialAt_inOrder]
  rw [visible, List.map_map]
  rfl

theorem text_eq_of_visible (h : tape.Layout place line) :
    tape.text = String.ofList (tape.visible.map fun cell => cell.1.char) := by
  rw [h.text_eq, Line.text, ← h.map_fst_visible, List.map_map]
  rfl

theorem length_visible (h : tape.Layout place line) : tape.visible.length = tape.width := by
  rw [visible, List.length_map, h.length_inOrder]

theorem symbols_ne_nil (h : tape.Layout place line) : line.symbols ≠ [] := by
  rw [← h.map_fst_visible, ← List.length_pos_iff, List.length_map, h.length_visible]
  exact h.root_lt

/-- The root is the cell with the serial number zero. -/
theorem index_root_eq (h : tape.Layout place line) :
    (Head.atRoot tape).index tape = (tape.visible.map Prod.snd).idxOf 0 := by
  have hindex := h.index_eq h.atRoot
  have hget := h.getElem?_inOrder h.root_lt
  rw [h.place_root] at hget
  obtain ⟨hlt, hroot⟩ := List.getElem?_eq_some_iff.1 hget
  have hidxOf := h.nodup_inOrder.idxOf_getElem _ hlt
  rw [hroot] at hidxOf
  rw [h.map_snd_visible, hidxOf]
  omega

/-! ## Tapes that start at the root -/

/-- A tape that starts at the root has grown to the right only. -/
theorem inOrder_eq_range (h : tape.Layout place line) (hout : tape.Outward)
    (hlo : line.lo = 0) : tape.inOrder = List.range tape.width := by
  obtain ⟨hend, hplace⟩ := h.leftEnd_root
  have hwidth := h.width_eq
  have hrising : tape.inOrder.Pairwise (· < ·) := by
    refine (h.pairwise_cellsFrom hend (by omega)).imp_of_mem fun {a b} ha hb hlt => ?_
    have ha := h.mem_inOrder.1 ha
    have hb := h.mem_inOrder.1 hb
    have := h.lo_le a ha
    exact h.lt_of_outward hout ha hb (.inl ⟨by omega, hlt⟩)
  exact h.perm_inOrder.eq_of_pairwise (fun _ _ _ _ hab hba => absurd hba (Nat.lt_asymm hab))
    hrising List.pairwise_lt_range

theorem visible_eq_zipIdx (h : tape.Layout place line) (hout : tape.Outward)
    (hlo : line.lo = 0) : tape.visible = line.symbols.zipIdx := by
  have hlength : tape.width = line.symbols.length := by
    rw [← h.length_visible, ← h.map_fst_visible, List.length_map]
  rw [h.visible_eq_zip, h.inOrder_eq_range hout hlo, hlength, List.range_eq_range',
    List.zipIdx_eq_zip_range']

theorem ofText_text (h : tape.Layout place line) :
    Tape.ofText tape.text = .ok (Tape.ofSymbols line.symbols) := by
  apply Tape.ofText_eq_ofSymbols
  rw [h.text_eq, Line.text, String.toList_ofList]

/-- Only the tape that starts at the root is the one that is built from its text. -/
theorem eq_ofSymbols_iff (h : tape.Layout place line) (hout : tape.Outward) :
    tape = Tape.ofSymbols line.symbols ↔ line.lo = 0 := by
  obtain ⟨place', h'⟩ := Layout.ofSymbols line.symbols
  constructor
  · intro hsame
    have hindex := h.index_eq h.atRoot
    have hindex' := h'.index_eq h'.atRoot
    rw [← hsame, hindex] at hindex'
    simpa [Line.ofSymbols] using hindex'
  · intro hlo
    apply h.eq_of_visible_eq h'
    rw [h.visible_eq_zipIdx hout hlo, h'.visible_eq_zipIdx (outward_ofSymbols _) rfl,
      Line.symbols_ofSymbols_of_ne_nil h.symbols_ne_nil]

end Layout

end Tape

/-! ## Extending to the left -/

namespace Session

/-- The command makes a new cell on the left of the left end. -/
def ExtendsLeft (session : Session) (command : Command) : Prop :=
  command = .move .left ∧ session.head.isAtLeftEnd session.tape = true

/-- No command of the list does so when its turn comes. -/
def NeverExtendsLeft : Session → List Command → Prop
  | _, [] => True
  | session, command :: rest =>
      ¬ session.ExtendsLeft command ∧ NeverExtendsLeft (session.perform command).1 rest

namespace Follows

variable {session : Session} {model : LineSession} {place : CellId → Int}

theorem lo_perform (h : session.Follows model place) (command : Command) :
    session.ExtendsLeft command ∧ (model.perform command).lo = model.lo - 1 ∨
      ¬ session.ExtendsLeft command ∧ (model.perform command).lo = model.lo := by
  have hle : model.lo ≤ model.head := h.layout.lo_le_of_standsAt h.head
  have hgoTo : ∀ p, (model.goTo p).lo = min model.lo p := fun p =>
    congrArg Line.lo (model.line_goTo p)
  cases command with
  | move direction =>
      have hend : session.head.isAtLeftEnd session.tape = true ↔ model.head = model.lo :=
        h.layout.isAtLeftEnd_iff h.head
      cases direction with
      | left =>
          simp only [ExtendsLeft, true_and, hend, LineSession.perform, hgoTo, Direction.offset]
          omega
      | right =>
          refine .inr ⟨by simp [ExtendsLeft], ?_⟩
          simp only [LineSession.perform, hgoTo, Direction.offset]
          omega
  | goToLeftEnd =>
      refine .inr ⟨by simp [ExtendsLeft], ?_⟩
      simp only [LineSession.perform, hgoTo]
      omega
  | advanceRight =>
      refine .inr ⟨by simp [ExtendsLeft], ?_⟩
      simp only [LineSession.perform]
      split
      · rfl
      · rw [hgoTo]
        omega
  | write c =>
      refine .inr ⟨by simp [ExtendsLeft], ?_⟩
      simp only [LineSession.perform]
      cases Symbol.ofChar? c <;> rfl
  | _ => exact .inr ⟨by simp [ExtendsLeft], rfl⟩

theorem lo_performEach (commands : List Command) :
    ∀ {session : Session} {model : LineSession} {place : CellId → Int},
      session.Follows model place →
      (model.performEach commands).lo ≤ model.lo ∧
        ((model.performEach commands).lo = model.lo ↔ session.NeverExtendsLeft commands) := by
  induction commands with
  | nil =>
      intro session model place _
      simp [LineSession.performEach, NeverExtendsLeft]
  | cons command rest ih =>
      intro session model place h
      obtain ⟨place', hnext⟩ := h.perform command
      obtain ⟨hle, hiff⟩ := ih hnext
      rw [LineSession.performEach, List.foldl_cons, ← LineSession.performEach, NeverExtendsLeft,
        ← hiff]
      -- What has been lost on the left never comes back.
      rcases h.lo_perform command with ⟨hextends, hlo⟩ | ⟨hstays, hlo⟩
      · rw [hlo] at hle ⊢
        exact ⟨by omega, fun hsame => by omega, fun hnever => absurd hextends hnever.1⟩
      · rw [hlo] at hle ⊢
        exact ⟨hle, fun hsame => ⟨hstays, hsame⟩, fun hnever => hnever.2⟩

end Follows

end Session

/-! ## Equal tapes -/

/-- Tapes with equal walks are equal, and then everything that is seen of them agrees.
The converse fails: the last two tapes show the same, but have grown in another order. -/
theorem tapes_equal_iff_walks_equal {script script' : TapeScript} {start start' : Tape}
    (hstart : script.start = .ok start) (hstart' : script'.start = .ok start') :
    let tape := ((Session.on start).performEach script.commands).tape
    let tape' := ((Session.on start').performEach script'.commands).tape
    (tape = tape' ↔ tape.visible = tape'.visible) ∧
    (tape.visible = tape'.visible →
      tape.text = tape'.text ∧ tape.width = tape'.width ∧
        (Head.atRoot tape).index tape = (Head.atRoot tape').index tape') ∧
    (∃ again, Tape.ofText tape.text = .ok again ∧
      (tape = again ↔ (Session.on start).NeverExtendsLeft script.commands)) ∧
    ∃ a b : Tape, a.Reachable ∧ b.Reachable ∧ a.text = b.text ∧
      (Head.atRoot a).index a = (Head.atRoot b).index b ∧ a ≠ b := by
  intro tape tape'
  obtain ⟨place, hfollows, hout⟩ := TapeScript.exists_follows_outward hstart
  obtain ⟨place', hfollows'⟩ := TapeScript.exists_follows hstart'
  have h := hfollows.layout
  have h' := hfollows'.layout
  refine ⟨⟨congrArg Tape.visible, h.eq_of_visible_eq h'⟩, ?_, ⟨_, h.ofText_text, ?_⟩, ?_⟩
  · intro hvisible
    rw [h.text_eq_of_visible, h'.text_eq_of_visible, ← h.length_visible, ← h'.length_visible,
      h.index_root_eq, h'.index_root_eq, hvisible]
    exact ⟨rfl, rfl, rfl⟩
  · obtain ⟨placeStart, hlayout⟩ := Tape.Layout.ofSymbols script.symbols
    rw [← TapeScript.start_eq_ofSymbols hstart] at hlayout
    have hlo := (Session.Follows.on hlayout).lo_performEach script.commands
    have hzero : (LineSession.on script.symbols).lo = 0 :=
      congrArg Line.lo (LineSession.line_on script.symbols)
    rw [h.eq_ofSymbols_iff hout, ← hlo.2, hzero]
    rfl
  · refine ⟨_, _, ⟨⟨none, [.move .left, .newHead, .move .right]⟩, _, rfl, rfl⟩,
      ⟨⟨none, [.move .right, .newHead, .move .left]⟩, _, rfl, rfl⟩, ?_, ?_, ?_⟩
    · rfl
    · rfl
    · decide

theorem tapes_equal_iff_walks_equal_grown_in_other_orders :
    ∃ start, TapeScript.start ⟨some "01", []⟩ = .ok start ∧
      let tape := ((Session.on start).performEach [.move .left, .write '1']).tape
      let tape' := ((Session.on Tape.blank).performEach
        [.move .left, .write '1', .newHead, .move .right, .write '1']).tape
      (tape = tape' ↔ tape.visible = tape'.visible) ∧
      (tape.visible = tape'.visible →
        tape.text = tape'.text ∧ tape.width = tape'.width ∧
          (Head.atRoot tape).index tape = (Head.atRoot tape').index tape') ∧
      (∃ again, Tape.ofText tape.text = .ok again ∧
        (tape = again ↔ (Session.on start).NeverExtendsLeft [.move .left, .write '1'])) ∧
      ∃ a b : Tape, a.Reachable ∧ b.Reachable ∧ a.text = b.text ∧
        (Head.atRoot a).index a = (Head.atRoot b).index b ∧ a ≠ b :=
  ⟨_, rfl, @tapes_equal_iff_walks_equal ⟨some "01", [.move .left, .write '1']⟩
    ⟨none, [.move .left, .write '1', .newHead, .move .right, .write '1']⟩ _ _ rfl rfl⟩

end BinaryMachine
