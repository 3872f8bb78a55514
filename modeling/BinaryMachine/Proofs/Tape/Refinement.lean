import Mathlib.Data.List.GetD
import BinaryMachine.Proofs.Tape.Content

/-!
# Heads on a tape refine positions on a line

The same commands that drive a session drive a model of it, in which every head
is an integer and the tape is a function from integers to symbols.  Each command
keeps the two related, so after any number of commands everything that can be
seen of the tape and of its heads is computed from the positions.
-/

namespace BinaryMachine

private theorem getD_set {α : Type} (l : List α) (j i : Nat) (a d : α) :
    (l.set j a).getD i d = if i = j ∧ i < l.length then a else l.getD i d := by
  by_cases hi : i = j <;> by_cases hlt : i < l.length <;> simp_all [eq_comm]

private theorem getD_append_singleton {α : Type} (l : List α) (i : Nat) (a d : α) :
    (l ++ [a]).getD i d = if i = l.length then a else l.getD i d := by
  rcases lt_trichotomy i l.length with hi | rfl | hi
  · rw [if_neg (Nat.ne_of_lt hi), List.getD_append _ _ _ _ hi]
  · simp
  · rw [if_neg (Nat.ne_of_gt hi), List.getD_eq_default, List.getD_eq_default]
    · exact Nat.le_of_lt hi
    · rw [List.length_append]
      exact hi

/-! ## Positions -/

/-- A tape as a function on positions, and heads as positions on it. -/
structure LineSession where
  symbol : Int → Symbol
  /-- The positions of the content, and every position to which a head has gone. -/
  reached : List Int
  heads : List Int
  current : Nat

namespace LineSession

/-- The least interval that holds the root and everything reached is `lo` to `hi`. -/
def lo (model : LineSession) : Int :=
  model.reached.foldr min 0

def hi (model : LineSession) : Int :=
  model.reached.foldr max 0

def line (model : LineSession) : Line :=
  ⟨model.symbol, model.lo, model.hi⟩

def on (symbols : List Symbol) : LineSession where
  symbol := (Line.ofSymbols symbols).symbol
  reached := (List.range symbols.length).map Int.ofNat
  heads := [0]
  current := 0

def headAt (model : LineSession) (i : Nat) : Int :=
  model.heads.getD i 0

def head (model : LineSession) : Int :=
  model.headAt model.current

def goTo (model : LineSession) (p : Int) : LineSession :=
  { model with reached := p :: model.reached, heads := model.heads.set model.current p }

def addHead (model : LineSession) (p : Int) : LineSession :=
  { model with heads := model.heads ++ [p], current := model.heads.length }

def perform (model : LineSession) : Command → LineSession
  | .move direction => model.goTo (model.head + direction.offset)
  | .goToLeftEnd => model.goTo model.lo
  | .advanceRight => if model.head = model.hi then model else model.goTo (model.head + 1)
  | .write c =>
      match Symbol.ofChar? c with
      | some symbol =>
          { model with symbol := Function.update model.symbol model.head symbol }
      | none => model
  | .newHead => model.addHead 0
  | .cloneHead => model.addHead model.head
  | .use head => { model with current := head }
  | .read | .cell | .root | .isAtRoot | .cellIn _ | .sharesCellWith _ => model

def performEach (model : LineSession) (commands : List Command) : LineSession :=
  commands.foldl perform model

private theorem foldr_min_range (n : Nat) :
    ∀ init : Int, init ≤ 0 → ((List.range n).map Int.ofNat).foldr min init = init := by
  induction n with
  | zero => simp
  | succ n ih =>
      intro init hinit
      have hn : min (Int.ofNat n) init = init := by
        have := Int.natCast_nonneg n
        simp only [Int.ofNat_eq_natCast]
        omega
      simp only [List.range_succ, List.map_append, List.map_cons, List.map_nil,
        List.foldr_append, List.foldr_cons, List.foldr_nil, hn]
      exact ih init hinit

private theorem foldr_max_range (n : Nat) :
    ∀ init : Int, ((n - 1 : Nat) : Int) ≤ init →
      ((List.range n).map Int.ofNat).foldr max init = init := by
  induction n with
  | zero => simp
  | succ n ih =>
      intro init hinit
      have hn : max (Int.ofNat n) init = init := by
        simp only [Int.ofNat_eq_natCast]
        omega
      simp only [List.range_succ, List.map_append, List.map_cons, List.map_nil,
        List.foldr_append, List.foldr_cons, List.foldr_nil, hn]
      exact ih init (by omega)

theorem line_on (symbols : List Symbol) : (on symbols).line = Line.ofSymbols symbols := by
  have hlo : (on symbols).lo = 0 := foldr_min_range symbols.length 0 (Int.le_refl 0)
  have hhi : (on symbols).hi = (symbols.length - 1 : Nat) := by
    cases symbols with
    | nil => rfl
    | cons symbol rest =>
        have hlast : max (Int.ofNat rest.length) 0 = rest.length := by
          simp
        simp only [on, hi, List.length_cons, List.range_succ, List.map_append, List.map_cons,
          List.map_nil, List.foldr_append, List.foldr_cons, List.foldr_nil, hlast]
        exact foldr_max_range rest.length rest.length (by omega)
  rw [line, hlo, hhi]
  rfl

theorem line_goTo (model : LineSession) (p : Int) :
    (model.goTo p).line = model.line.stand p := by
  simp [line, goTo, lo, hi, Line.stand, min_comm, max_comm]

theorem headAt_goTo (model : LineSession) (p : Int) (i : Nat) :
    (model.goTo p).headAt i =
      if i = model.current ∧ i < model.heads.length then p else model.headAt i :=
  getD_set model.heads model.current i p 0

theorem headAt_addHead (model : LineSession) (p : Int) (i : Nat) :
    (model.addHead p).headAt i = if i = model.heads.length then p else model.headAt i :=
  getD_append_singleton model.heads i p 0

end LineSession

/-! ## Simulation -/

namespace Session

/-- Performs the commands in order; one that fails changes nothing. -/
def performEach (session : Session) (commands : List Command) : Session :=
  commands.foldl (fun session command => (session.perform command).1) session

theorem headAt_withHead (session : Session) (head : Head) (i : Nat) :
    (session.withHead head).headAt i =
      if i = session.current ∧ i < session.heads.length then head else session.headAt i :=
  getD_set session.heads session.current i head (Head.atRoot session.tape)

theorem headAt_addHead (session : Session) (head : Head) (i : Nat) :
    (session.addHead head).headAt i =
      if i = session.heads.length then head else session.headAt i :=
  getD_append_singleton session.heads i head (Head.atRoot session.tape)

/-- Every head of the session stands where the model has it. -/
structure Follows (session : Session) (model : LineSession) (place : CellId → Int) :
    Prop where
  layout : session.tape.Layout place model.line
  current_eq : session.current = model.current
  length_eq : session.heads.length = model.heads.length
  stands : ∀ i, (session.headAt i).StandsAt session.tape place (model.headAt i)

namespace Follows

variable {session : Session} {model : LineSession} {place : CellId → Int}

theorem head (h : session.Follows model place) :
    session.head.StandsAt session.tape place model.head := by
  rw [Session.head, LineSession.head, h.current_eq]
  exact h.stands model.current

theorem on {tape : Tape} {symbols : List Symbol}
    (h : tape.Layout place (Line.ofSymbols symbols)) :
    (Session.on tape).Follows (LineSession.on symbols) place where
  layout := by
    rw [LineSession.line_on]
    exact h
  current_eq := rfl
  length_eq := rfl
  stands := by
    intro i
    cases i <;> exact h.atRoot

theorem goTo (h : session.Follows model place) {tape : Tape} {head : Head}
    {place' : CellId → Int} {p : Int} (hlayout : tape.Layout place' (model.line.stand p))
    (hhead : head.StandsAt tape place' p)
    (hkeep : ∀ other q, Head.StandsAt other session.tape place q →
      other.StandsAt tape place' q) :
    (Session.withHead { session with tape } head).Follows (model.goTo p) place' where
  layout := by
    rw [LineSession.line_goTo]
    exact hlayout
  current_eq := h.current_eq
  length_eq := by simpa [withHead, LineSession.goTo] using h.length_eq
  stands := by
    have hroot : Head.atRoot tape = Head.atRoot session.tape := by
      rw [Head.atRoot, Head.atRoot, hlayout.root_eq, h.layout.root_eq]
    intro i
    rw [headAt_withHead, LineSession.headAt_goTo, ← h.current_eq, ← h.length_eq]
    by_cases hi : i = session.current ∧ i < session.heads.length
    · rw [if_pos hi, if_pos hi]
      exact hhead
    · rw [if_neg hi, if_neg hi, headAt, hroot]
      exact hkeep _ _ (h.stands i)

theorem goToOld (h : session.Follows model place) {head : Head} {p : Int}
    (hhead : head.StandsAt session.tape place p) :
    (session.withHead head).Follows (model.goTo p) place := by
  apply h.goTo ?_ hhead (fun _ _ hstands => hstands)
  rw [Line.stand_of_mem _ (h.layout.lo_le_of_standsAt hhead)
    (h.layout.le_hi_of_standsAt hhead)]
  exact h.layout

theorem addHead (h : session.Follows model place) {head : Head} {p : Int}
    (hhead : head.StandsAt session.tape place p) :
    (session.addHead head).Follows (model.addHead p) place where
  layout := h.layout
  current_eq := h.length_eq
  length_eq := by simpa [Session.addHead, LineSession.addHead] using h.length_eq
  stands := by
    intro i
    rw [headAt_addHead, LineSession.headAt_addHead, ← h.length_eq]
    by_cases hi : i = session.heads.length
    · rw [if_pos hi, if_pos hi]
      exact hhead
    · rw [if_neg hi, if_neg hi]
      exact h.stands i

theorem write (h : session.Follows model place) (symbol : Symbol) :
    Follows { session with tape := session.head.write session.tape symbol }
      { model with symbol := Function.update model.symbol model.head symbol } place where
  layout := h.layout.write h.head symbol
  current_eq := h.current_eq
  length_eq := h.length_eq
  stands := fun i => (h.stands i).write session.head symbol

theorem perform (h : session.Follows model place) (command : Command) :
    ∃ place', (session.perform command).1.Follows (model.perform command) place' := by
  cases command with
  | move direction =>
      obtain ⟨place', hlayout, hhead, hkeep⟩ := h.layout.move h.head direction
      exact ⟨place', h.goTo hlayout hhead hkeep⟩
  | goToLeftEnd =>
      have hhead := h.layout.goToLeftEnd_standsAt h.head
      exact ⟨place, h.goToOld hhead⟩
  | advanceRight =>
      have hnone := h.layout.advanceRight?_eq_none_iff h.head
      simp only [Session.perform, LineSession.perform]
      cases hnext : session.head.advanceRight? session.tape with
      | none =>
          refine ⟨place, ?_⟩
          rw [if_pos (show model.head = model.hi from hnone.1 hnext)]
          exact h
      | some next =>
          have hne : model.head ≠ model.hi := by
            intro hend
            rw [hnone.2 hend] at hnext
            contradiction
          have hhead := h.layout.advanceRight?_standsAt h.head hnext
          refine ⟨place, ?_⟩
          rw [if_neg hne]
          exact h.goToOld hhead
  | write c =>
      simp only [Session.perform, LineSession.perform, Head.writeChar, Symbol.parse]
      cases Symbol.ofChar? c with
      | none => exact ⟨place, h⟩
      | some symbol => exact ⟨place, h.write symbol⟩
  | newHead => exact ⟨place, h.addHead h.layout.atRoot⟩
  | cloneHead => exact ⟨place, h.addHead h.head⟩
  | use head => exact ⟨place, h.layout, rfl, h.length_eq, h.stands⟩
  | cellIn content =>
      refine ⟨place, ?_⟩
      simp only [Session.perform, LineSession.perform]
      cases Tape.ofText content <;> exact h
  | read => exact ⟨place, h⟩
  | cell => exact ⟨place, h⟩
  | root => exact ⟨place, h⟩
  | isAtRoot => exact ⟨place, h⟩
  | sharesCellWith head => exact ⟨place, h⟩

theorem performEach (commands : List Command) :
    ∀ {session : Session} {model : LineSession} {place : CellId → Int},
      session.Follows model place →
      ∃ place', (session.performEach commands).Follows (model.performEach commands) place' := by
  induction commands with
  | nil =>
      intro session model place h
      exact ⟨place, h⟩
  | cons command rest ih =>
      intro session model place h
      obtain ⟨place', hnext⟩ := h.perform command
      exact ih hnext

end Follows

end Session

/-! ## What can be seen -/

/-- What a head shows of its tape is what the line holds around the position `p`. -/
structure Head.ReadsAs (head : Head) (tape : Tape) (line : Line) (p : Int) : Prop where
  index_eq : (head.index tape : Int) = p - line.lo
  read_eq : head.read tape = line.symbol p
  char_eq : tape.text.toList[head.index tape]? = some (head.read tape).char
  leftEnd_iff : head.isAtLeftEnd tape = true ↔ p = line.lo
  rightEnd_iff : head.isAtRightEnd tape = true ↔ p = line.hi

theorem Tape.Layout.readsAs {tape : Tape} {place : CellId → Int} {line : Line} {head : Head}
    {p : Int} (h : tape.Layout place line) (hhead : head.StandsAt tape place p) :
    head.ReadsAs tape line p where
  index_eq := h.index_eq hhead
  read_eq := h.read_eq hhead
  char_eq := by
    have hindex := h.index_eq hhead
    have hposition : head.index tape = (p - line.lo).toNat := by
      omega
    rw [hposition, h.text_eq, h.read_eq hhead,
      line.getElem?_text (h.lo_le_of_standsAt hhead) (h.le_hi_of_standsAt hhead)]
  leftEnd_iff := h.isAtLeftEnd_iff hhead
  rightEnd_iff := h.isAtRightEnd_iff hhead

structure Session.ReadsAs (session : Session) (model : LineSession) : Prop where
  text_eq : session.tape.text = model.line.text
  width_eq : (session.tape.width : Int) = model.hi - model.lo + 1
  length_text : session.tape.text.length = session.tape.width
  current_eq : session.current = model.current
  length_heads : session.heads.length = model.heads.length
  head : ∀ (i : Nat) (head : Head) (p : Int),
    session.heads[i]? = some head → model.heads[i]? = some p →
    head.ReadsAs session.tape model.line p
  same_cell_iff : ∀ (i j : Nat) (head other : Head) (p q : Int),
    session.heads[i]? = some head → session.heads[j]? = some other →
    model.heads[i]? = some p → model.heads[j]? = some q → (head.cell = other.cell ↔ p = q)
  advanceRight_iff : session.perform .advanceRight = (session, .answer false) ↔
    model.head = model.hi
  write_other : ∀ c, c ≠ '0' → c ≠ '1' →
    session.perform (.write c) = (session, .failed (.badSymbol c))

namespace Session.Follows

variable {session : Session} {model : LineSession} {place : CellId → Int}

theorem standsAt_of_getElem? (h : session.Follows model place) {i : Nat} {head : Head}
    {p : Int} (hhead : session.heads[i]? = some head) (hp : model.heads[i]? = some p) :
    head.StandsAt session.tape place p := by
  have hstands := h.stands i
  simpa [headAt, LineSession.headAt, hhead, hp] using hstands

theorem readsAs (h : session.Follows model place) : session.ReadsAs model where
  text_eq := h.layout.text_eq
  width_eq := h.layout.width_eq
  length_text := by
    have hwidth := h.layout.width_eq
    rw [h.layout.text_eq, Line.length_text]
    omega
  current_eq := h.current_eq
  length_heads := h.length_eq
  head := fun _ _ _ hhead hp => h.layout.readsAs (h.standsAt_of_getElem? hhead hp)
  same_cell_iff := by
    intro i j head other p q hhead hother hp hq
    have hstands := h.standsAt_of_getElem? hhead hp
    have hstands' := h.standsAt_of_getElem? hother hq
    rw [← h.layout.head_eq_iff hstands hstands']
    constructor
    · intro hcell
      cases head
      cases other
      exact congrArg Head.mk hcell
    · rintro rfl
      rfl
  advanceRight_iff := by
    have hnone := h.layout.advanceRight?_eq_none_iff h.head
    constructor
    · intro hperform
      simp only [Session.perform] at hperform
      cases hnext : session.head.advanceRight? session.tape with
      | none => exact hnone.1 hnext
      | some next => simp [hnext] at hperform
    · intro hend
      simp [Session.perform, hnone.2 hend]
  write_other := by
    intro c hzero hone
    have hnone : Symbol.ofChar? c = none := by
      cases hsymbol : Symbol.ofChar? c with
      | none => rfl
      | some symbol =>
          have := Symbol.ofChar?_eq_some_iff.1 hsymbol
          cases symbol <;> contradiction
    simp [Session.perform, Head.writeChar, Symbol.parse, hnone, bind, Except.bind]

end Session.Follows

/-- What a script does to a tape, it does to a line. -/
theorem TapeScript.exists_follows {script : TapeScript} {tape : Tape}
    (hstart : script.start = .ok tape) :
    ∃ place, ((Session.on tape).performEach script.commands).Follows
      ((LineSession.on script.symbols).performEach script.commands) place := by
  obtain ⟨place, hlayout⟩ := Tape.Layout.ofSymbols script.symbols
  rw [← TapeScript.start_eq_ofSymbols hstart] at hlayout
  exact (Session.Follows.on hlayout).performEach script.commands

theorem session_refines_line {script : TapeScript} {tape : Tape}
    (hstart : script.start = .ok tape) :
    ((Session.on tape).performEach script.commands).ReadsAs
      ((LineSession.on script.symbols).performEach script.commands) := by
  obtain ⟨place, hlayout⟩ := Tape.Layout.ofSymbols script.symbols
  rw [← TapeScript.start_eq_ofSymbols hstart] at hlayout
  obtain ⟨place', hfollows⟩ := (Session.Follows.on hlayout).performEach script.commands
  exact hfollows.readsAs

theorem session_refines_line_past_both_ends :
    ∃ tape, TapeScript.start ⟨some "01", []⟩ = .ok tape ∧
      ((Session.on tape).performEach
          [.move .left, .write '1', .newHead, .advanceRight, .move .right, .write 'x']).ReadsAs
        ((LineSession.on [.zero, .one]).performEach
          [.move .left, .write '1', .newHead, .advanceRight, .move .right, .write 'x']) :=
  ⟨_, rfl, @session_refines_line ⟨some "01",
    [.move .left, .write '1', .newHead, .advanceRight, .move .right, .write 'x']⟩ _ rfl⟩

end BinaryMachine
