import Mathlib.Data.List.Infix
import Mathlib.Data.Nat.Find
import BinaryMachine.Segments

/-!
# Where a text is cut

A text is cut at the leftmost occurrence of the separator, and what stands
behind that occurrence is cut again.  The rule is stated without the scan that
carries it out, and determines the segments.  Segments that are kept apart from
the separator by a class of characters come back from the text they are joined
to, whatever the separator shares with them or with itself.
-/

namespace BinaryMachine

/-! ## The rule -/

/-- No occurrence of the separator in the text stands further to the left than
the one behind `segment`. -/
def Leftmost (separator segment rest : List Char) : Prop :=
  ∀ before after, segment ++ separator ++ rest = before ++ separator ++ after →
    segment.length ≤ before.length

inductive SplitsAt (separator : List Char) : List Char → List (List Char) → Prop
  | whole {s : List Char} : ¬ separator <:+: s → SplitsAt separator s [s]
  | cut {segment rest : List Char} {segments : List (List Char)} :
      Leftmost separator segment rest → SplitsAt separator rest segments →
      SplitsAt separator (segment ++ separator ++ rest) (segment :: segments)

variable {separator s segment rest : List Char} {segments : List (List Char)}

theorem exists_leftmost (h : separator <:+: s) :
    ∃ segment rest, s = segment ++ separator ++ rest ∧ Leftmost separator segment rest := by
  classical
  have hoccurs : ∃ n, ∃ before after : List Char,
      before.length = n ∧ s = before ++ separator ++ after := by
    obtain ⟨before, after, hs⟩ := h
    exact ⟨before.length, before, after, rfl, hs.symm⟩
  obtain ⟨segment, rest, hlength, hs⟩ := Nat.find_spec hoccurs
  refine ⟨segment, rest, hs, ?_⟩
  intro before after heq
  rw [hlength]
  exact Nat.find_min' hoccurs ⟨before, after, rfl, hs.trans heq⟩

/-! ## The scan -/

namespace Cutting

theorem foldl_feed_of_not_occurs (s : List Char) :
    ∀ cut : Cutting, ¬ separator <:+: cut.current.reverse ++ s →
      s.foldl (feed separator.reverse) cut = ⟨cut.closed, s.reverse ++ cut.current⟩ := by
  induction s with
  | nil =>
      intro cut _
      rfl
  | cons c s ih =>
      intro cut hnot
      have hcurrent : cut.current.reverse ++ c :: s = (c :: cut.current).reverse ++ s := by
        simp
      have hopen : ¬ separator.reverse.isPrefixOf (c :: cut.current) = true := by
        intro hprefix
        have hsuffix := List.reverse_suffix.2 (List.isPrefixOf_iff_prefix.1 hprefix)
        rw [List.reverse_reverse] at hsuffix
        apply hnot
        rw [hcurrent]
        exact hsuffix.isInfix.trans (List.prefix_append _ s).isInfix
      rw [hcurrent] at hnot
      rw [List.foldl_cons, feed, if_neg hopen, ih _ hnot]
      simp

/-- The segments that are closed already have no part in what comes. -/
theorem foldl_feed_append_closed (s : List Char) :
    ∀ (closed old : List (List Char)) (current : List Char),
      s.foldl (feed separator) ⟨closed ++ old, current⟩ =
        ⟨(s.foldl (feed separator) ⟨closed, current⟩).closed ++ old,
          (s.foldl (feed separator) ⟨closed, current⟩).current⟩ := by
  induction s with
  | nil =>
      intro closed old current
      rfl
  | cons c s ih =>
      intro closed old current
      simp only [List.foldl_cons, feed]
      split
      · exact ih (_ :: closed) old []
      · exact ih closed old (c :: current)

theorem foldl_feed_leftmost (hne : separator ≠ []) (h : Leftmost separator segment rest) :
    (segment ++ separator).foldl (feed separator.reverse) ⟨[], []⟩ = ⟨[segment], []⟩ := by
  obtain ⟨start, c, rfl⟩ : ∃ start c, separator = start ++ [c] :=
    ⟨_, _, (List.dropLast_append_getLast hne).symm⟩
  have hnot : ¬ start ++ [c] <:+: [] ++ (segment ++ start) := by
    rintro ⟨before, after, heq⟩
    have hlength := congrArg List.length heq
    have hlater : segment ++ (start ++ [c]) ++ rest =
        before ++ (start ++ [c]) ++ (after ++ c :: rest) := by
      calc segment ++ (start ++ [c]) ++ rest
          = ([] ++ (segment ++ start)) ++ c :: rest := by simp
        _ = before ++ (start ++ [c]) ++ after ++ c :: rest := by rw [heq]
        _ = before ++ (start ++ [c]) ++ (after ++ c :: rest) := List.append_assoc _ _ _
    have hleft := h before (after ++ c :: rest) hlater
    simp only [List.length_append, List.length_singleton, List.length_nil] at hlength
    omega
  rw [← List.append_assoc, List.foldl_append,
    foldl_feed_of_not_occurs (segment ++ start) ⟨[], []⟩ hnot]
  have hcurrent : c :: ((segment ++ start).reverse ++ []) =
      (start ++ [c]).reverse ++ segment.reverse := by
    simp
  simp only [List.foldl_cons, List.foldl_nil, feed]
  rw [hcurrent, if_pos (List.isPrefixOf_iff_prefix.2 (List.prefix_append _ _)), List.drop_left,
    List.reverse_reverse]

end Cutting

theorem cutAt_of_not_occurs (h : ¬ separator <:+: s) : cutAt separator s = [s] := by
  rw [cutAt, Cutting.foldl_feed_of_not_occurs s _ h]
  simp [Cutting.segments]

theorem cutAt_of_leftmost (hne : separator ≠ []) (h : Leftmost separator segment rest) :
    cutAt separator (segment ++ separator ++ rest) = segment :: cutAt separator rest := by
  rw [cutAt, List.foldl_append, Cutting.foldl_feed_leftmost hne h,
    ← List.nil_append [segment], Cutting.foldl_feed_append_closed]
  simp [cutAt, Cutting.segments]

theorem splitsAt_cutAt (hne : separator ≠ []) :
    ∀ s, SplitsAt separator s (cutAt separator s) := by
  intro s
  induction hlength : s.length using Nat.strong_induction_on generalizing s with
  | _ n ih =>
      by_cases hoccurs : separator <:+: s
      · obtain ⟨segment, rest, rfl, hleft⟩ := exists_leftmost hoccurs
        have hpos := List.length_pos_of_ne_nil hne
        rw [cutAt_of_leftmost hne hleft]
        refine .cut hleft (ih rest.length ?_ rest rfl)
        simp only [List.length_append] at hlength
        omega
      · rw [cutAt_of_not_occurs hoccurs]
        exact .whole hoccurs

theorem splitsAt_iff (hne : separator ≠ []) :
    SplitsAt separator s segments ↔ cutAt separator s = segments := by
  constructor
  · intro h
    induction h with
    | whole hnot => exact cutAt_of_not_occurs hnot
    | cut hleft _ ih => rw [cutAt_of_leftmost hne hleft, ih]
  · rintro rfl
    exact splitsAt_cutAt hne s

/-! ## Cutting what has been joined -/

section Joined

variable {p : Char → Bool}

theorem not_occurs_of_forall (hseparator : ∃ c ∈ separator, p c = false)
    (hs : ∀ c ∈ s, p c = true) : ¬ separator <:+: s := by
  intro hoccurs
  obtain ⟨c, hc, hforeign⟩ := hseparator
  have := hs c (hoccurs.subset hc)
  rw [hforeign] at this
  contradiction

/-- An occurrence that began in the segment would have the first foreign
character of the separator where the text has none yet. -/
theorem leftmost_of_forall (hseparator : ∃ c ∈ separator, p c = false)
    (hsegment : ∀ c ∈ segment, p c = true) : Leftmost separator segment rest := by
  intro before after heq
  obtain ⟨c, hfirst⟩ : ∃ c, separator.find? (fun c => !p c) = some c := by
    apply Option.isSome_iff_exists.1
    rw [List.find?_isSome]
    simpa using hseparator
  obtain ⟨hforeign, start, stop, rfl, hstart⟩ := List.find?_eq_some_iff_append.1 hfirst
  by_contra hlt
  have hplace : before.length + start.length < (segment ++ start).length := by
    rw [List.length_append]
    omega
  have hc : (segment ++ start)[before.length + start.length]? = some c := by
    have hright : (before ++ start ++ c :: (stop ++ after))[before.length + start.length]? =
        some c := by
      rw [← List.length_append, List.getElem?_append_right (Nat.le_refl _), Nat.sub_self]
      rfl
    have hboth : segment ++ start ++ c :: (stop ++ rest) =
        before ++ start ++ c :: (stop ++ after) := by
      simpa using heq
    rw [← hboth, List.getElem?_append_left hplace] at hright
    exact hright
  have hmem := List.mem_of_getElem? hc
  rcases List.mem_append.1 hmem with hmem | hmem
  · simp [hsegment c hmem] at hforeign
  · have := hstart c hmem
    rw [hforeign] at this
    contradiction

theorem splitsAt_intercalate (hseparator : ∃ c ∈ separator, p c = false)
    (hne : segments ≠ []) (hsegments : ∀ segment ∈ segments, ∀ c ∈ segment, p c = true) :
    SplitsAt separator (separator.intercalate segments) segments := by
  induction segments with
  | nil => exact absurd rfl hne
  | cons segment segments ih =>
      have hsegment := hsegments segment List.mem_cons_self
      cases segments with
      | nil =>
          rw [List.intercalate_singleton]
          exact .whole (not_occurs_of_forall hseparator hsegment)
      | cons next segments =>
          rw [List.intercalate_cons_cons]
          exact .cut (leftmost_of_forall hseparator hsegment)
            (ih (List.cons_ne_nil _ _)
              fun segment hmem => hsegments segment (List.mem_cons_of_mem _ hmem))

example : cutAt "1;1".toList "0,1,R,11;11,0,L,1".toList =
    ["0,1,R,1".toList, "1,0,L,1".toList] := by
  decide

end Joined

end BinaryMachine
