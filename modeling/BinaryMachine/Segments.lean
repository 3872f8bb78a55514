/-!
Cutting a text at a separator.  A cut is made as soon as the characters since
the last cut end in the separator; all occurrences have one length, so these
cuts are the leftmost occurrences that do not overlap.  The main statement says
that joining the segments with the separator gives the text back.
-/

namespace BinaryMachine

/-- A text read up to some point: the closed segments, the last one first, and
the characters since the last cut, the last one first. -/
structure Cutting where
  closed : List (List Char)
  current : List Char

namespace Cutting

/-- Takes one more character.  `separator` is given in reverse. -/
def feed (separator : List Char) (cut : Cutting) (c : Char) : Cutting :=
  let current := c :: cut.current
  if separator.isPrefixOf current then
    ⟨(current.drop separator.length).reverse :: cut.closed, []⟩
  else
    ⟨cut.closed, current⟩

/-- The segments, the open one included. -/
def segments (cut : Cutting) : List (List Char) :=
  (cut.current.reverse :: cut.closed).reverse

end Cutting

def cutAt (separator s : List Char) : List (List Char) :=
  (s.foldl (Cutting.feed separator.reverse) ⟨[], []⟩).segments

/-! ## Joining -/

theorem intercalate_append_singleton {separator last : List Char} {segments : List (List Char)}
    (h : segments ≠ []) :
    separator.intercalate (segments ++ [last]) =
      separator.intercalate segments ++ separator ++ last := by
  induction segments with
  | nil => exact absurd rfl h
  | cons segment rest ih =>
      cases rest with
      | nil => simp
      | cons next rest =>
          have := ih (by simp)
          simp only [List.cons_append] at this ⊢
          simp [this]

theorem intercalate_append_last (separator : List Char) (closed : List (List Char))
    (last more : List Char) :
    separator.intercalate (closed ++ [last ++ more]) =
      separator.intercalate (closed ++ [last]) ++ more := by
  cases closed with
  | nil => simp
  | cons segment rest =>
      rw [intercalate_append_singleton (by simp), intercalate_append_singleton (by simp)]
      simp

theorem Cutting.intercalate_feed (separator : List Char) (cut : Cutting) (c : Char) :
    separator.intercalate (cut.feed separator.reverse c).segments =
      separator.intercalate cut.segments ++ [c] := by
  have key : separator.intercalate (cut.closed.reverse ++ [cut.current.reverse ++ [c]]) =
      separator.intercalate (cut.closed.reverse ++ [cut.current.reverse]) ++ [c] :=
    intercalate_append_last separator cut.closed.reverse cut.current.reverse [c]
  unfold feed
  simp only
  split
  · next h =>
      obtain ⟨rest, hrest⟩ := List.isPrefixOf_iff_prefix.1 h
      have hdrop : (c :: cut.current).drop separator.reverse.length = rest := by
        rw [← hrest, List.drop_left]
      have hcurrent : cut.current.reverse ++ [c] = rest.reverse ++ separator := by
        have := congrArg List.reverse hrest
        simpa using this.symm
      rw [hdrop]
      simp only [segments, List.reverse_cons, List.reverse_nil]
      rw [intercalate_append_singleton (by simp), List.append_nil, ← key, hcurrent,
        intercalate_append_last]
  · simpa [segments] using key

theorem intercalate_cutAt (separator s : List Char) :
    separator.intercalate (cutAt separator s) = s := by
  have fold : ∀ (s : List Char) (cut : Cutting),
      separator.intercalate (s.foldl (Cutting.feed separator.reverse) cut).segments =
        separator.intercalate cut.segments ++ s := by
    intro s
    induction s with
    | nil => simp
    | cons c s ih =>
        intro cut
        rw [List.foldl_cons, ih, Cutting.intercalate_feed]
        simp
  simpa [cutAt, Cutting.segments] using fold s ⟨[], []⟩

theorem cutAt_ne_nil (separator s : List Char) : cutAt separator s ≠ [] := by
  simp [cutAt, Cutting.segments]

end BinaryMachine
