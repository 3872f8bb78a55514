import BinaryMachine.Proofs.Tape.Identity

/-!
# Walks along the links come to an end

The walks to the left end, from there over the whole tape, and up to a given cell are
loops that follow links for as long as there are any.  Here they run without a bound.
The cells lie on a line, so each loop ends after as many rounds as there are positions
to go, which are fewer than there are cells, and any bound that allows for these rounds
changes nothing.  A walk up to a cell never runs off the right end.
-/

namespace BinaryMachine

/-! ## Loops -/

/-- A loop is left when its condition says so, or from the middle of a round. -/
inductive LoopExit where
  | finished
  | broken
  deriving DecidableEq, Repr

/-- From `s` the loop goes round `n` times and is left, as `exit` says, in the state `t`. -/
inductive Loop {σ : Type} (turn : σ → Except LoopExit σ) : Nat → σ → LoopExit → σ → Prop
  | leave {s : σ} {exit : LoopExit} (h : turn s = .error exit) : Loop turn 0 s exit s
  | again {n : Nat} {s s' t : σ} {exit : LoopExit} (h : turn s = .ok s')
      (hrest : Loop turn n s' exit t) : Loop turn (n + 1) s exit t

theorem Loop.unique {σ : Type} {turn : σ → Except LoopExit σ} {n m : Nat} {s t u : σ}
    {exit other : LoopExit} (h : Loop turn n s exit t) (h' : Loop turn m s other u) :
    n = m ∧ exit = other ∧ t = u := by
  induction h generalizing m with
  | leave hexit =>
      cases h' with
      | leave hexit' =>
          rw [hexit] at hexit'
          cases hexit'
          exact ⟨rfl, rfl, rfl⟩
      | again hnext _ =>
          rw [hexit] at hnext
          contradiction
  | again hnext _ ih =>
      cases h' with
      | leave hexit =>
          rw [hnext] at hexit
          contradiction
      | again hnext' hrest =>
          rw [hnext] at hnext'
          cases hnext'
          rcases ih hrest with ⟨hrounds, hexit, hstate⟩
          exact ⟨congrArg Nat.succ hrounds, hexit, hstate⟩

namespace Tape

/-- One round on the way to the left end. -/
def leftTurn (tape : Tape) (id : CellId) : Except LoopExit CellId :=
  match tape.leftOf id with
  | some left => .ok left
  | none => .error .finished

/-- One round of writing down the symbols to the right of a cell. -/
def textTurn (tape : Tape) : CellId × String → Except LoopExit (CellId × String)
  | (id, text) =>
      match tape.rightOf id with
      | some right => .ok (right, text.push (tape.symbolAt right).char)
      | none => .error .finished

/-- One round of counting the links to the cell with the serial number `target`.  At
the right end the count is broken off. -/
def indexTurn (tape : Tape) (target : Nat) : CellId × Nat → Except LoopExit (CellId × Nat)
  | (id, passed) =>
      if tape.serialAt id = target then
        .error .finished
      else
        match tape.rightOf id with
        | some right => .ok (right, passed + 1)
        | none => .error .broken

/-! ## Rounds -/

namespace Layout

variable {tape : Tape} {place : CellId → Int} {line : Line}

theorem exists_neighbour (h : tape.Layout place line) {id : CellId} (hid : id < tape.width)
    (d : Direction) (hlo : line.lo ≤ place id + d.offset) (hhi : place id + d.offset ≤ line.hi) :
    ∃ other, tape.neighbour? id d = some other ∧ other < tape.width ∧
      place other = place id + d.offset := by
  rcases h.occupied _ hlo hhi with ⟨other, hother, hplace⟩
  exact ⟨other, (h.neighbour_iff id hid d other).2 ⟨hother, hplace⟩, hother, hplace⟩

theorem loop_leftTurn (h : tape.Layout place line) (n : Nat) :
    ∀ {id : CellId} {bound : Nat}, id < tape.width → place id = line.lo + n → n ≤ bound →
      Loop tape.leftTurn n id .finished (tape.walkLeft bound id) := by
  induction n with
  | zero =>
      intro id bound hid hplace _
      have hnone : tape.leftOf id = none := (h.leftOf_none_iff hid).2 (by simpa using hplace)
      have hstay : tape.walkLeft bound id = id := by
        cases bound <;> simp only [walkLeft, hnone]
      rw [hstay]
      exact .leave (by simp only [leftTurn, hnone])
  | succ n ih =>
      intro id bound hid hplace hbound
      have hhi := h.le_hi id hid
      rcases h.exists_neighbour hid .left (by simp only [Direction.offset]; omega)
        (by simp only [Direction.offset]; omega) with ⟨left, hlink, hleft, hnext⟩
      simp only [neighbour?, Direction.offset] at hlink hnext
      cases bound with
      | zero => contradiction
      | succ bound =>
          rw [walkLeft, hlink]
          exact .again (by simp only [leftTurn, hlink])
            (ih hleft (by omega) (Nat.le_of_succ_le_succ hbound))

theorem loop_textTurn (h : tape.Layout place line) (n : Nat) :
    ∀ {id : CellId} {text : String} {bound : Nat}, id < tape.width → place id + n = line.hi →
      n ≤ bound →
      ∃ last, Loop tape.textTurn n (id, text.push (tape.symbolAt id).char) .finished
        (last, tape.appendFrom text bound id) := by
  induction n with
  | zero =>
      intro id text bound hid hplace _
      have hnone : tape.rightOf id = none := (h.rightOf_none_iff hid).2 (by simpa using hplace)
      have hstay : tape.appendFrom text bound id = text.push (tape.symbolAt id).char := by
        cases bound <;> simp only [appendFrom, hnone]
      rw [hstay]
      exact ⟨id, .leave (by simp only [textTurn, hnone])⟩
  | succ n ih =>
      intro id text bound hid hplace hbound
      have hlo := h.lo_le id hid
      rcases h.exists_neighbour hid .right (by simp only [Direction.offset]; omega)
        (by simp only [Direction.offset]; omega) with ⟨right, hlink, hright, hnext⟩
      simp only [neighbour?, Direction.offset] at hlink hnext
      cases bound with
      | zero => contradiction
      | succ bound =>
          rcases @ih right (text.push (tape.symbolAt id).char) bound hright (by omega)
            (Nat.le_of_succ_le_succ hbound) with ⟨last, hrest⟩
          rw [appendFrom, hlink]
          exact ⟨last, .again (by simp only [textTurn, hlink]) hrest⟩

theorem loop_indexTurn (h : tape.Layout place line) {target : CellId}
    (htarget : target < tape.width) (n : Nat) :
    ∀ {id : CellId} {passed bound : Nat}, id < tape.width → place id + n = place target →
      n ≤ bound →
      Loop (tape.indexTurn target) n (id, passed) .finished
        (target, tape.distanceTo target passed bound id) := by
  induction n with
  | zero =>
      intro id passed bound hid hplace hbound
      have hsame : id = target := h.injective id hid target htarget (by simpa using hplace)
      have hserial := h.serial_eq id hid
      rw [h.distanceTo_eq htarget bound passed 0 id hid hplace hbound, Nat.add_zero, ← hsame]
      exact .leave (by simp only [indexTurn, hserial, if_pos])
  | succ n ih =>
      intro id passed bound hid hplace hbound
      have hlo := h.lo_le id hid
      have hhi := h.le_hi target htarget
      rcases h.exists_neighbour hid .right (by simp only [Direction.offset]; omega)
        (by simp only [Direction.offset]; omega) with ⟨right, hlink, hright, hnext⟩
      simp only [neighbour?, Direction.offset] at hlink hnext
      -- The cell lies before the target, so the walk has not met it yet.
      have hother : tape.serialAt id ≠ target := by
        rw [h.serial_eq id hid]
        rintro rfl
        omega
      cases bound with
      | zero => contradiction
      | succ bound =>
          rw [distanceTo, if_neg hother, hlink]
          exact .again (by simp only [indexTurn, if_neg hother, hlink])
            (ih hright (by omega) (Nat.le_of_succ_le_succ hbound))

/-! ## Whole walks -/

theorem loop_leftEndOf (h : tape.Layout place line) {id : CellId} (hid : id < tape.width) :
    ∃ n < tape.width, Loop tape.leftTurn n id .finished (tape.leftEndOf id) := by
  have hlo := h.lo_le id hid
  have hhi := h.le_hi id hid
  have hwidth := h.width_eq
  exact ⟨(place id - line.lo).toNat, by omega,
    h.loop_leftTurn _ hid (by omega) (by omega)⟩

theorem loop_text (h : tape.Layout place line) :
    ∃ last, Loop tape.textTurn (tape.width - 1)
      (tape.leftEndOf tape.root, "".push (tape.symbolAt (tape.leftEndOf tape.root)).char)
      .finished (last, tape.text) := by
  have hfirst := h.leftEnd_root
  have hwidth := h.width_eq
  have hpos := h.root_lt
  exact h.loop_textTurn _ hfirst.1 (by omega) (Nat.sub_le _ _)

theorem loop_index (h : tape.Layout place line) {head : Head} (hhead : head.cell < tape.width) :
    Loop (tape.indexTurn (head.serial tape)) (head.index tape) (tape.leftEndOf tape.root, 0)
      .finished (head.cell, head.index tape) := by
  have hfirst := h.leftEnd_root
  have hindex : (head.index tape : Int) = place head.cell - line.lo := h.indexOf_eq hhead
  have hhi := h.le_hi head.cell hhead
  have hwidth := h.width_eq
  have hserial : head.serial tape = head.cell := h.serial_eq head.cell hhead
  have hcount : head.index tape =
      tape.distanceTo head.cell 0 tape.width (tape.leftEndOf tape.root) := by
    rw [← hserial]
    rfl
  rw [hserial]
  conv => rhs; rw [hcount]
  exact h.loop_indexTurn hhead _ hfirst.1 (by omega) (by omega)

theorem index_lt_width (h : tape.Layout place line) {head : Head}
    (hhead : head.cell < tape.width) : head.index tape < tape.width := by
  have hindex := h.indexOf_eq hhead
  have hhi := h.le_hi head.cell hhead
  have hwidth := h.width_eq
  rw [Head.index]
  omega

end Layout

end Tape

/-- However a tape has grown, each walk along its links ends after fewer rounds than
there are cells and gives what the tape shows; the count up to a head is never broken off. -/
theorem walks_end {script : TapeScript} {start : Tape} (hstart : script.start = .ok start) :
    let session := (Session.on start).performEach script.commands
    let tape := session.tape
    let first := tape.leftEndOf tape.root
    (∀ head ∈ session.heads, head.cell < tape.width) ∧
    (∃ n < tape.width, Loop tape.leftTurn n tape.root .finished first) ∧
    (∃ last, Loop tape.textTurn (tape.width - 1) (first, "".push (tape.symbolAt first).char)
      .finished (last, tape.text)) ∧
    ∀ head : Head, head.cell < tape.width →
      (∃ n < tape.width,
        Loop tape.leftTurn n head.cell .finished (head.goToLeftEnd tape).cell) ∧
      Loop (tape.indexTurn (head.serial tape)) (head.index tape) (first, 0)
        .finished (head.cell, head.index tape) ∧
      head.index tape < tape.width ∧
      ∀ n s, ¬ Loop (tape.indexTurn (head.serial tape)) n (first, 0) .broken s := by
  intro session tape first
  rcases TapeScript.exists_follows hstart with ⟨place, hfollows⟩
  have h := hfollows.layout
  refine ⟨fun head => hfollows.cell_lt, h.loop_leftEndOf (h.root_eq ▸ h.root_lt), h.loop_text, ?_⟩
  intro head hhead
  refine ⟨h.loop_leftEndOf hhead, h.loop_index hhead, h.index_lt_width hhead, ?_⟩
  intro n s hbroken
  rcases (h.loop_index hhead).unique hbroken with ⟨-, hexit, -⟩
  contradiction

theorem walks_end_past_both_ends :
    ∃ start, TapeScript.start ⟨some "01", []⟩ = .ok start ∧
      let session := (Session.on start).performEach
        [.move .left, .newHead, .move .right, .move .right, .use 0, .move .left]
      let tape := session.tape
      tape.width = 5 ∧
        Loop (tape.indexTurn (session.head.serial tape)) 0 (tape.leftEndOf tape.root, 0)
          .finished (session.head.cell, 0) ∧
        ∀ n s, ¬ Loop (tape.indexTurn (session.head.serial tape)) n
          (tape.leftEndOf tape.root, 0) .broken s := by
  refine ⟨_, rfl, rfl, ?_⟩
  have hall := (@walks_end ⟨some "01",
    [.move .left, .newHead, .move .right, .move .right, .use 0, .move .left]⟩ _ rfl).2.2.2
  have hhead := hall ⟨4⟩ (by decide)
  exact ⟨hhead.2.1, hhead.2.2.2⟩

end BinaryMachine
