import BinaryMachine.Proofs.Tape.Line

/-!
# Actions that do not see each other

To materialise a position changes no symbol, and to write a symbol materialises
nothing.  So on a line only two writes at one position depend on their order.
What has been materialised beyond what is needed shows as blanks around the text.
-/

namespace BinaryMachine

/-! ## The order of two actions -/

/-- The position at which a head stands after an action. -/
def Action.goal (p : Int) : Action → Int
  | .write _ => p
  | .move direction => p + direction.offset

namespace Line

theorem act_snd (line : Line) (p : Int) (action : Action) :
    (line.act p action).2 = action.goal p := by
  cases action <;> rfl

theorem stand_stand_comm (line : Line) (p q : Int) :
    (line.stand p).stand q = (line.stand q).stand p := by
  simp [stand, min_assoc, max_assoc, min_comm p q, max_comm p q]

theorem act_stand_comm (line : Line) (p q : Int) (action : Action) :
    (line.act p action).1.stand q = ((line.stand q).act p action).1 := by
  cases action with
  | write symbol => rfl
  | move direction => exact line.stand_stand_comm _ q

/-- Two actions may be exchanged unless both write, at one position. -/
theorem act_act_comm (line : Line) {p q : Int} (action other : Action)
    (h : ∀ symbol symbol', action = .write symbol → other = .write symbol' → p ≠ q) :
    ((line.act p action).1.act q other).1 = ((line.act q other).1.act p action).1 := by
  cases other with
  | move direction => exact line.act_stand_comm p _ action
  | write symbol' =>
      cases action with
      | move direction => rfl
      | write symbol =>
          have hne : p ≠ q := h symbol symbol' rfl rfl
          simp [act, write, Function.update_comm hne]

/-! ## More blanks -/

/-- Materialises all the positions of a list. -/
def materialise (line : Line) (positions : List Int) : Line :=
  positions.foldl stand line

@[simp] theorem symbol_materialise (line : Line) (positions : List Int) :
    (line.materialise positions).symbol = line.symbol := by
  induction positions generalizing line with
  | nil => rfl
  | cons p positions ih => exact ih (line.stand p)

theorem lo_materialise_eq (line : Line) {positions : List Int}
    (h : ∀ p ∈ positions, line.lo ≤ p) : (line.materialise positions).lo = line.lo := by
  induction positions generalizing line with
  | nil => rfl
  | cons p positions ih =>
      rw [List.forall_mem_cons] at h
      have hlo : (line.stand p).lo = line.lo := min_eq_left h.1
      rw [← hlo] at h
      exact (ih (line.stand p) h.2).trans hlo

theorem lo_materialise_le (line : Line) (positions : List Int) :
    (line.materialise positions).lo ≤ line.lo := by
  induction positions generalizing line with
  | nil => exact Int.le_refl _
  | cons p positions ih => exact (ih (line.stand p)).trans (min_le_left _ _)

theorem le_hi_materialise (line : Line) (positions : List Int) :
    line.hi ≤ (line.materialise positions).hi := by
  induction positions generalizing line with
  | nil => exact Int.le_refl _
  | cons p positions ih => exact (le_max_left _ _).trans (ih (line.stand p))

theorem act_materialise (line : Line) (positions : List Int) (p : Int) (action : Action) :
    ((line.materialise positions).act p action).1 =
      (line.act p action).1.materialise positions := by
  induction positions generalizing line with
  | nil => rfl
  | cons q positions ih =>
      have hstand := line.act_stand_comm p q action
      simp only [materialise, List.foldl_cons] at ih ⊢
      rw [ih, hstand]

/-- A line that reaches farther shows blanks on both sides of the text. -/
theorem toList_text_of_le {line wider : Line} (hlo : wider.lo ≤ line.lo)
    (hle : line.lo ≤ line.hi) (hhi : line.hi ≤ wider.hi) (hsymbol : wider.symbol = line.symbol)
    (hblank : ∀ q, q < line.lo ∨ line.hi < q → line.symbol q = .zero) :
    wider.text.toList =
      List.replicate (line.lo - wider.lo).toNat '0' ++ line.text.toList ++
        List.replicate (wider.hi - line.hi).toNat '0' := by
  have hlength : (wider.hi - wider.lo + 1).toNat =
      (line.lo - wider.lo).toNat + (line.hi - line.lo + 1).toNat +
        (wider.hi - line.hi).toNat := by
    omega
  have hleft : ∀ i ∈ List.range (line.lo - wider.lo).toNat,
      (line.symbol (wider.lo + i)).char = '0' := by
    intro i hi
    rw [List.mem_range] at hi
    rw [hblank _ (by omega)]
    rfl
  have hright : ∀ i ∈ List.range (wider.hi - line.hi).toNat,
      (line.symbol (wider.lo +
        ((line.lo - wider.lo).toNat + (line.hi - line.lo + 1).toNat + i : Nat))).char = '0' := by
    intro i _
    rw [hblank _ (by omega)]
    rfl
  have hmiddle : ∀ i : Nat, wider.lo + ((line.lo - wider.lo).toNat + i : Nat) = line.lo + i := by
    omega
  simp only [text, symbols, symbolsFrom, String.toList_ofList, List.map_map, hsymbol, hlength,
    List.range_add, List.map_append]
  congr 1
  · congr 1
    · rw [List.eq_replicate_iff]
      simpa using hleft
    · simp only [Function.comp_def, hmiddle]
  · rw [List.eq_replicate_iff]
    simpa using hright

end Line

end BinaryMachine
