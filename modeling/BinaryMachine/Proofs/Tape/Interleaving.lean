import BinaryMachine.Proofs.Tape.Commutation
import BinaryMachine.Proofs.Tape.Refinement

/-!
# Several heads at work on one tape

Two heads act on one tape in turns.  On the line an action of the one and an
action of the other may be exchanged unless both write at one position, so every
order of the turns comes to the same as letting the first head finish before the
second one starts.  What the order does decide is who creates a cell, and with
it the serial numbers.
-/

namespace BinaryMachine

/-! ## Operations -/

/-- What a head can do to its tape.  A write may be refused. -/
inductive Operation where
  | move (direction : Direction)
  | write (c : Char)
  deriving DecidableEq, Repr

namespace Operation

def command : Operation → Command
  | move direction => .move direction
  | write c => .write c

/-- A refused write does nothing. -/
def action? : Operation → Option Action
  | move direction => some (.move direction)
  | write c => (Symbol.ofChar? c).map .write

/-- The position at which a head that stands at `p` stands after the operation. -/
def goal (p : Int) : Operation → Int
  | move direction => p + direction.offset
  | write _ => p

def written (p : Int) : Operation → List Int
  | move _ => []
  | write c => if (Symbol.ofChar? c).isSome then [p] else []

/-- The positions at which a head that starts at `p` writes. -/
def writtenFrom (p : Int) : List Operation → List Int
  | [] => []
  | operation :: rest => operation.written p ++ writtenFrom (operation.goal p) rest

theorem writtenFrom_add (p k : Int) (operations : List Operation) :
    writtenFrom (p + k) operations = (writtenFrom p operations).map (· + k) := by
  induction operations generalizing p with
  | nil => rfl
  | cons operation rest ih =>
      have hgoal : operation.goal (p + k) = operation.goal p + k := by
        cases operation <;> simp only [goal]
        omega
      have hwritten : operation.written (p + k) = (operation.written p).map (· + k) := by
        cases operation with
        | move direction => rfl
        | write c => simp [written, apply_ite (List.map (· + k))]
      simp only [writtenFrom, hgoal, hwritten, ih, List.map_append]

end Operation

/-- The turns of the heads `a` and `b`, each of which keeps its own order. -/
inductive Interleaving (a b : Nat) :
    List Operation → List Operation → List (Nat × Operation) → Prop where
  | nil : Interleaving a b [] [] []
  | left {operation : Operation} {as bs : List Operation} {turns : List (Nat × Operation)} :
      Interleaving a b as bs turns →
      Interleaving a b (operation :: as) bs ((a, operation) :: turns)
  | right {operation : Operation} {as bs : List Operation} {turns : List (Nat × Operation)} :
      Interleaving a b as bs turns →
      Interleaving a b as (operation :: bs) ((b, operation) :: turns)

def turnCommands (turns : List (Nat × Operation)) : List Command :=
  turns.flatMap fun turn => [.use turn.1, turn.2.command]

/-! ## Turns on a line -/

/-- A line and the positions of the heads on it. -/
structure Board where
  line : Line
  heads : List Int

namespace Board

def headAt (board : Board) (i : Nat) : Int :=
  board.heads.getD i 0

def act (board : Board) (i : Nat) (action : Action) : Board where
  line := (board.line.act (board.headAt i) action).1
  heads := board.heads.set i (action.goal (board.headAt i))

def operate (board : Board) (i : Nat) (operation : Operation) : Board :=
  match operation.action? with
  | some action => board.act i action
  | none => board

/-- One head performs the operations, and no other head has a turn. -/
def finish (board : Board) (i : Nat) (operations : List Operation) : Board :=
  operations.foldl (fun board operation => board.operate i operation) board

def play (board : Board) (turns : List (Nat × Operation)) : Board :=
  turns.foldl (fun board turn => board.operate turn.1 turn.2) board

variable {board : Board} {a b i : Nat}

theorem headAt_act_of_ne (hne : a ≠ b) (action : Action) :
    (board.act a action).headAt b = board.headAt b := by
  simp [headAt, act, List.getElem?_set_ne hne]

theorem headAt_operate_of_ne (hne : a ≠ b) (operation : Operation) :
    (board.operate a operation).headAt b = board.headAt b := by
  unfold operate
  split
  · exact headAt_act_of_ne hne _
  · rfl

theorem length_heads_operate (operation : Operation) :
    (board.operate i operation).heads.length = board.heads.length := by
  unfold operate
  split <;> simp [act]

theorem headAt_operate (hi : i < board.heads.length) (operation : Operation) :
    (board.operate i operation).headAt i = operation.goal (board.headAt i) := by
  cases operation with
  | move direction =>
      simp [headAt, operate, Operation.action?, Operation.goal, act, Action.goal, hi]
  | write c =>
      cases hsymbol : Symbol.ofChar? c <;>
        simp [headAt, operate, Operation.action?, Operation.goal, act, Action.goal, hi, hsymbol]

theorem act_comm (hne : a ≠ b) {action other : Action}
    (h : ∀ symbol symbol', action = .write symbol → other = .write symbol' →
      board.headAt a ≠ board.headAt b) :
    (board.act a action).act b other = (board.act b other).act a action := by
  have hline := board.line.act_act_comm action other h
  have ha : (board.act b other).headAt a = board.headAt a := headAt_act_of_ne hne.symm other
  have hb : (board.act a action).headAt b = board.headAt b := headAt_act_of_ne hne action
  simp only [act] at ha hb ⊢
  simp only [ha, hb, hline, List.set_comm _ _ hne]

theorem operate_comm (hne : a ≠ b) {operation other : Operation}
    (h : ∀ p ∈ operation.written (board.headAt a), p ∉ other.written (board.headAt b)) :
    (board.operate b other).operate a operation =
      (board.operate a operation).operate b other := by
  cases hfirst : operation.action? with
  | none => simp only [operate, hfirst]
  | some action =>
      cases hsecond : other.action? with
      | none => simp only [operate, hfirst, hsecond]
      | some action' =>
          simp only [operate, hfirst, hsecond]
          symm
          apply act_comm hne
          rintro symbol symbol' rfl rfl
          cases operation <;> cases other <;>
            simp_all [Operation.action?, Operation.written, Option.map_eq_some_iff]

/-- An operation of the head `b` may be put off until the head `a` has finished. -/
theorem finish_operate_comm (hne : a ≠ b) {other : Operation} (as : List Operation) :
    ∀ {board : Board}, a < board.heads.length →
      (∀ p ∈ Operation.writtenFrom (board.headAt a) as, p ∉ other.written (board.headAt b)) →
      (board.operate b other).finish a as = (board.finish a as).operate b other := by
  induction as with
  | nil =>
      intro board _ _
      rfl
  | cons operation as ih =>
      intro board ha h
      simp only [Operation.writtenFrom, List.forall_mem_append] at h
      obtain ⟨hfirst, hrest⟩ := h
      rw [← headAt_operate ha, ← headAt_operate_of_ne hne operation] at hrest
      simp only [finish, List.foldl_cons] at ih ⊢
      rw [operate_comm hne hfirst]
      exact ih (by simpa [length_heads_operate] using ha) hrest

/-- Every order of the turns leaves what is left when the first head finishes
before the second one starts. -/
theorem play_eq_finish (hne : a ≠ b) {as bs : List Operation} {turns : List (Nat × Operation)}
    (h : Interleaving a b as bs turns) :
    ∀ {board : Board}, a < board.heads.length → b < board.heads.length →
      (∀ p ∈ Operation.writtenFrom (board.headAt a) as,
        p ∉ Operation.writtenFrom (board.headAt b) bs) →
      board.play turns = (board.finish a as).finish b bs := by
  induction h with
  | nil =>
      intro board _ _ _
      rfl
  | @left operation as bs turns _ ih =>
      intro board ha hb hwritten
      have hlength := board.length_heads_operate (i := a) operation
      simp only [Operation.writtenFrom, List.forall_mem_append] at hwritten
      rw [← hlength] at hb
      rw [← headAt_operate ha, ← headAt_operate_of_ne hne operation] at hwritten
      exact ih (hlength ▸ ha) hb hwritten.2
  | @right operation as bs turns _ ih =>
      intro board ha hb hwritten
      have hlength := board.length_heads_operate (i := b) operation
      have hfirst : ∀ p ∈ Operation.writtenFrom (board.headAt a) as,
          p ∉ operation.written (board.headAt b) := by
        intro p hp hmem
        exact hwritten p hp (List.mem_append_left _ hmem)
      have hrest : ∀ p ∈ Operation.writtenFrom (board.headAt a) as,
          p ∉ Operation.writtenFrom (operation.goal (board.headAt b)) bs := by
        intro p hp hmem
        exact hwritten p hp (List.mem_append_right _ hmem)
      rw [← headAt_operate hb, ← headAt_operate_of_ne hne.symm operation] at hrest
      calc
        board.play ((b, operation) :: turns) = (board.operate b operation).play turns := rfl
        _ = ((board.operate b operation).finish a as).finish b bs :=
          ih (hlength ▸ ha) (hlength ▸ hb) hrest
        _ = ((board.finish a as).operate b operation).finish b bs := by
          rw [finish_operate_comm hne as ha hfirst]

end Board

/-! ## Turns in a session -/

namespace LineSession

def board (model : LineSession) : Board :=
  ⟨model.line, model.heads⟩

theorem set_headAt (model : LineSession) (i : Nat) :
    model.heads.set i (model.headAt i) = model.heads := by
  rcases Nat.lt_or_ge i model.heads.length with hlt | hge
  · simp [headAt, List.getElem?_eq_getElem hlt]
  · exact List.set_eq_of_length_le hge

theorem board_turn (model : LineSession) (i : Nat) (operation : Operation) :
    (model.performEach [.use i, operation.command]).board = model.board.operate i operation := by
  cases operation with
  | move direction =>
      simp only [performEach, List.foldl_cons, List.foldl_nil, perform, Operation.command, board,
        line_goTo]
      rfl
  | write c =>
      simp only [performEach, List.foldl_cons, List.foldl_nil, perform, Operation.command,
        Board.operate, Operation.action?]
      cases Symbol.ofChar? c with
      | none => rfl
      | some symbol => exact congrArg (Board.mk _) (model.set_headAt i).symm

theorem board_turns (turns : List (Nat × Operation)) :
    ∀ model : LineSession,
      (model.performEach (turnCommands turns)).board = model.board.play turns := by
  induction turns with
  | nil =>
      intro model
      rfl
  | cons turn turns ih =>
      intro model
      have hnext := ih (model.performEach [.use turn.1, turn.2.command])
      rw [board_turn] at hnext
      exact hnext

end LineSession

namespace Session

/-- The tapes and the heads on them show the same.  A head that was never put down
stands on the root, so that its answers are those of the root. -/
structure LooksLike (session session' : Session) : Prop where
  text_eq : session'.tape.text = session.tape.text
  width_eq : session'.tape.width = session.tape.width
  length_heads : session'.heads.length = session.heads.length
  index_eq : ∀ i, (session'.headAt i).index session'.tape = (session.headAt i).index session.tape
  read_eq : ∀ i, (session'.headAt i).read session'.tape = (session.headAt i).read session.tape
  leftEnd_eq : ∀ i, (session'.headAt i).isAtLeftEnd session'.tape =
    (session.headAt i).isAtLeftEnd session.tape
  rightEnd_eq : ∀ i, (session'.headAt i).isAtRightEnd session'.tape =
    (session.headAt i).isAtRightEnd session.tape
  same_cell_iff : ∀ i j, session'.headAt i = session'.headAt j ↔
    session.headAt i = session.headAt j

theorem Follows.looksLike {session session' : Session} {model model' : LineSession}
    {place place' : CellId → Int} (h : session.Follows model place)
    (h' : session'.Follows model' place') (hboard : model'.board = model.board) :
    session.LooksLike session' := by
  have hline : model'.line = model.line := congrArg Board.line hboard
  have hheads : model'.heads = model.heads := congrArg Board.heads hboard
  have hheadAt : ∀ i, model'.headAt i = model.headAt i := by
    simp [LineSession.headAt, hheads]
  have hlayout' := h'.layout
  rw [hline] at hlayout'
  have hreads : ∀ i, (session.headAt i).ReadsAs session.tape model.line (model.headAt i) :=
    fun i => h.layout.readsAs (h.stands i)
  have hreads' : ∀ i, (session'.headAt i).ReadsAs session'.tape model.line (model.headAt i) := by
    intro i
    rw [← hheadAt i]
    exact hlayout'.readsAs (h'.stands i)
  constructor
  case text_eq => rw [h.layout.text_eq, hlayout'.text_eq]
  case width_eq =>
    have hwidth := h.layout.width_eq
    have hwidth' := hlayout'.width_eq
    omega
  case length_heads => rw [h.length_eq, h'.length_eq, hheads]
  case index_eq =>
    intro i
    have hindex := (hreads i).index_eq
    have hindex' := (hreads' i).index_eq
    omega
  case read_eq => exact fun i => (hreads' i).read_eq.trans (hreads i).read_eq.symm
  case leftEnd_eq =>
    exact fun i => Bool.eq_iff_iff.2 ((hreads' i).leftEnd_iff.trans (hreads i).leftEnd_iff.symm)
  case rightEnd_eq =>
    exact fun i => Bool.eq_iff_iff.2 ((hreads' i).rightEnd_iff.trans (hreads i).rightEnd_iff.symm)
  case same_cell_iff =>
    intro i j
    have hsame := h.layout.head_eq_iff (h.stands i) (h.stands j)
    have hsame' := h'.layout.head_eq_iff (h'.stands i) (h'.stands j)
    rw [hsame, hsame', hheadAt, hheadAt]

/-- What the heads write is told apart by the indices that they start from. -/
theorem Follows.writtenFrom_disjoint {session : Session} {model : LineSession}
    {place : CellId → Int} (h : session.Follows model place) {a b : Nat} {as bs : List Operation}
    (hwritten : ∀ p ∈ Operation.writtenFrom ((session.headAt a).index session.tape) as,
      p ∉ Operation.writtenFrom ((session.headAt b).index session.tape) bs) :
    ∀ p ∈ Operation.writtenFrom (model.headAt a) as,
      p ∉ Operation.writtenFrom (model.headAt b) bs := by
  have hindex : ∀ i, ((session.headAt i).index session.tape : Int) =
      model.headAt i + -model.line.lo :=
    fun i => h.layout.index_eq (h.stands i)
  rw [hindex, hindex, Operation.writtenFrom_add, Operation.writtenFrom_add] at hwritten
  intro p hp hmem
  exact hwritten _ (List.mem_map_of_mem hp) (List.mem_map_of_mem hmem)

end Session

/-- Two heads that write at no common position do not disturb each other: every order
of their turns leaves a tape and heads that show the same. -/
theorem interleavings_look_alike {script : TapeScript} {start : Tape}
    (hstart : script.start = .ok start) {a b : Nat} (hne : a ≠ b) :
    let session := (Session.on start).performEach script.commands
    a < session.heads.length → b < session.heads.length →
    ∀ as bs : List Operation,
      (∀ p ∈ Operation.writtenFrom ((session.headAt a).index session.tape) as,
        p ∉ Operation.writtenFrom ((session.headAt b).index session.tape) bs) →
      ∀ turns turns' : List (Nat × Operation),
        Interleaving a b as bs turns → Interleaving a b as bs turns' →
        (session.performEach (turnCommands turns)).LooksLike
          (session.performEach (turnCommands turns')) := by
  intro session ha hb as bs hwritten turns turns' hturns hturns'
  obtain ⟨_, hfollows⟩ := TapeScript.exists_follows hstart
  let model := (LineSession.on script.symbols).performEach script.commands
  obtain ⟨_, hplayed⟩ := hfollows.performEach (turnCommands turns)
  obtain ⟨_, hplayed'⟩ := hfollows.performEach (turnCommands turns')
  have hdisjoint := hfollows.writtenFrom_disjoint hwritten
  have ha' : a < model.board.heads.length := hfollows.length_eq ▸ ha
  have hb' : b < model.board.heads.length := hfollows.length_eq ▸ hb
  apply hplayed.looksLike hplayed'
  rw [LineSession.board_turns, LineSession.board_turns,
    Board.play_eq_finish hne hturns ha' hb' hdisjoint,
    Board.play_eq_finish hne hturns' ha' hb' hdisjoint]

/-- Both heads stand on the only cell and go off opposite ends.  Who goes first is
seen in the serial numbers and nowhere else. -/
theorem interleavings_look_alike_off_both_ends :
    ∃ start, TapeScript.start ⟨none, []⟩ = .ok start ∧
      let session := (Session.on start).performEach [.newHead, .newHead]
      let session₁ := session.performEach (turnCommands
        [(0, .move .left), (0, .write '1'), (1, .move .right), (1, .write '1')])
      let session₂ := session.performEach (turnCommands
        [(1, .move .right), (0, .move .left), (1, .write '1'), (0, .write '1')])
      session₁.LooksLike session₂ ∧ session₁.tape.text = "101" ∧
        (session₁.headAt 0).serial session₁.tape = 1 ∧
        (session₂.headAt 0).serial session₂.tape = 2 := by
  refine ⟨_, rfl, ?_, rfl, rfl, rfl⟩
  exact @interleavings_look_alike ⟨none, [.newHead, .newHead]⟩ _ rfl 0 1 (by decide)
    (by decide) (by decide) [.move .left, .write '1'] [.move .right, .write '1'] (by decide) _ _
    (.left (.left (.right (.right .nil)))) (.right (.left (.right (.left .nil))))

end BinaryMachine
