import BinaryMachine.Proofs.Tape.Content

/-!
# The tape from the other side

On a line left and right are the two signs of a number.  To exchange them is to
negate the positions, so a tape that is built with every move turned round shows
the text backwards, although texts and indices are always read from the left end.
-/

namespace BinaryMachine

def Direction.mirror : Direction → Direction
  | .left => .right
  | .right => .left

def Action.mirror : Action → Action
  | .write symbol => .write symbol
  | .move direction => .move direction.mirror

@[simp] theorem Direction.offset_mirror (direction : Direction) :
    direction.mirror.offset = -direction.offset := by
  cases direction <;> rfl

/-! ## Lines -/

namespace Line

def mirror (line : Line) : Line where
  symbol p := line.symbol (-p)
  lo := -line.hi
  hi := -line.lo

theorem mirror_stand (line : Line) (p : Int) :
    (line.stand p).mirror = line.mirror.stand (-p) := by
  simp only [mirror, stand, Line.mk.injEq, true_and]
  omega

theorem mirror_write (line : Line) (p : Int) (symbol : Symbol) :
    (line.write p symbol).mirror = line.mirror.write (-p) symbol := by
  simp only [mirror, write, Line.mk.injEq, and_true]
  funext q
  have hposition : -q = p ↔ q = -p := by
    omega
  simp [Function.update_apply, hposition]

theorem act_mirror (line : Line) (p : Int) (action : Action) :
    line.mirror.act (-p) action.mirror =
      ((line.act p action).1.mirror, -(line.act p action).2) := by
  cases action with
  | write symbol => simp [act, Action.mirror, mirror_write]
  | move direction =>
      have hgoal : -p + -direction.offset = -(p + direction.offset) := by
        omega
      simp [act, Action.mirror, mirror_stand, hgoal]

theorem symbols_mirror (line : Line) : line.mirror.symbols = line.symbols.reverse := by
  apply List.ext_getElem
  · simp only [List.length_reverse, length_symbols, mirror]
    omega
  · intro i hi hi'
    simp only [length_symbols, mirror] at hi
    simp only [symbols, symbolsFrom, mirror, List.getElem_reverse, List.getElem_map,
      List.getElem_range, List.length_map, List.length_range]
    congr 1
    omega

theorem toList_text_mirror (line : Line) :
    line.mirror.text.toList = line.text.toList.reverse := by
  simp [text, symbols_mirror]

end Line

/-! ## Tapes -/

namespace Head

variable {tape tape' : Tape} {head head' : Head} {line : Line} {p : Int}

/-- The tape lies on `line`, and the head stands at `p`. -/
def LiesOn (head : Head) (tape : Tape) (line : Line) (p : Int) : Prop :=
  ∃ place, tape.Layout place line ∧ head.StandsAt tape place p

theorem LiesOn.act (h : head.LiesOn tape line p) (action : Action) :
    (head.act tape action).2.LiesOn (head.act tape action).1
      (line.act p action).1 (line.act p action).2 := by
  obtain ⟨place, hlayout, hhead⟩ := h
  obtain ⟨place', hacted, hstands, -⟩ := hlayout.act hhead action
  exact ⟨place', hacted, hstands⟩

theorem LiesOn.atRoot (h : head.LiesOn tape line p) : (Head.atRoot tape).LiesOn tape line 0 := by
  obtain ⟨place, hlayout, -⟩ := h
  exact ⟨place, hlayout, hlayout.atRoot⟩

/-- The two tapes lie on one line, seen from two sides. -/
def Opposite (tape : Tape) (head : Head) (tape' : Tape) (head' : Head) : Prop :=
  ∃ line p, head.LiesOn tape line p ∧ head'.LiesOn tape' line.mirror (-p)

theorem Opposite.act (h : Opposite tape head tape' head') (action : Action) :
    Opposite (head.act tape action).1 (head.act tape action).2
      (head'.act tape' action.mirror).1 (head'.act tape' action.mirror).2 := by
  obtain ⟨line, p, hlies, hlies'⟩ := h
  have hacted' := hlies'.act action.mirror
  rw [Line.act_mirror] at hacted'
  exact ⟨_, _, hlies.act action, hacted'⟩

theorem Opposite.atRoot (h : Opposite tape head tape' head') :
    Opposite tape (Head.atRoot tape) tape' (Head.atRoot tape') := by
  obtain ⟨line, p, hlies, hlies'⟩ := h
  exact ⟨line, 0, hlies.atRoot, hlies'.atRoot⟩

theorem Opposite.read_eq (h : Opposite tape head tape' head') :
    head'.read tape' = head.read tape := by
  obtain ⟨line, p, ⟨place, hlayout, hhead⟩, place', hlayout', hhead'⟩ := h
  rw [hlayout.read_eq hhead, hlayout'.read_eq hhead']
  simp [Line.mirror]

/-- What is read from the left of one tape is read from the right of the other. -/
structure MirrorImage (tape : Tape) (head : Head) (tape' : Tape) (head' : Head) : Prop where
  text_eq : tape'.text.toList = tape.text.toList.reverse
  width_eq : tape'.width = tape.width
  index_add : head.index tape + head'.index tape' + 1 = tape.width

theorem Opposite.mirrorImage (h : Opposite tape head tape' head') :
    MirrorImage tape head tape' head' := by
  obtain ⟨line, p, ⟨place, hlayout, hhead⟩, place', hlayout', hhead'⟩ := h
  have hwidth := hlayout.width_eq
  have hwidth' := hlayout'.width_eq
  have hindex := hlayout.index_eq hhead
  have hindex' := hlayout'.index_eq hhead'
  simp only [Line.mirror] at hwidth' hindex'
  constructor
  · rw [hlayout.text_eq, hlayout'.text_eq, Line.toList_text_mirror]
  · omega
  · omega

end Head

/-! ## Building -/

/-- The blank tape after these actions of one head, and the head. -/
def Tape.build (actions : List Action) : Tape × Head :=
  actions.foldl (fun (tape, head) action => head.act tape action)
    (Tape.blank, Head.atRoot Tape.blank)

theorem Head.Opposite.foldl (actions : List Action) :
    ∀ {tape tape' : Tape} {head head' : Head}, Opposite tape head tape' head' →
      let built := actions.foldl (fun (tape, head) action => head.act tape action) (tape, head)
      let built' := (actions.map Action.mirror).foldl
        (fun (tape, head) action => head.act tape action) (tape', head')
      Opposite built.1 built.2 built'.1 built'.2 := by
  induction actions with
  | nil => exact id
  | cons action rest ih =>
      intro tape tape' head head' h
      exact ih (h.act action)

theorem Tape.opposite_build (actions : List Action) :
    Head.Opposite (build actions).1 (build actions).2
      (build (actions.map Action.mirror)).1 (build (actions.map Action.mirror)).2 := by
  apply Head.Opposite.foldl
  have hmirror : Line.blank.mirror = Line.blank := rfl
  refine ⟨Line.blank, 0, ⟨_, Layout.blank, Layout.blank.atRoot⟩, ?_⟩
  rw [hmirror]
  exact ⟨_, Layout.blank, Layout.blank.atRoot⟩

end BinaryMachine
