import Mathlib.Data.Finset.Card
import BinaryMachine.Proofs.Machine.Construction
import BinaryMachine.Proofs.StateId.Order

/-!
# Counting the numbers in a list of ids

The order of ids is the order of their numbers, so sorting brings the ids of one
number together, in the order in which they were.  Of each such group the first one
stays.  What is left counts the numbers in the list, whatever the ids look like and
however they were arranged.
-/

namespace BinaryMachine

namespace StateId

/-! ## Sorting -/

theorem isLE_cmp {a b : StateId} : (a.cmp b).isLE = true ↔ a.value ≤ b.value := by
  rw [cmp_eq_compare_value, Nat.isLE_compare]

theorem isLE_cmp_trans (a b c : StateId) (hab : (a.cmp b).isLE = true)
    (hbc : (b.cmp c).isLE = true) : (a.cmp c).isLE = true :=
  isLE_cmp.2 (Nat.le_trans (isLE_cmp.1 hab) (isLE_cmp.1 hbc))

theorem isLE_cmp_total (a b : StateId) : ((a.cmp b).isLE || (b.cmp a).isLE) = true := by
  rw [Bool.or_eq_true, isLE_cmp, isLE_cmp]
  exact Nat.le_total a.value b.value

/-- The ids of a list that stand for the number, in their order. -/
def occurrences (n : Nat) (ids : List StateId) : List StateId :=
  ids.filter fun id => id.value = n

theorem occurrences_cons (n : Nat) (id : StateId) (ids : List StateId) :
    occurrences n (id :: ids) =
      if id.value = n then id :: occurrences n ids else occurrences n ids := by
  simp [occurrences, List.filter_cons]

theorem occurrences_eq_nil_iff {n : Nat} {ids : List StateId} :
    occurrences n ids = [] ↔ ∀ id ∈ ids, id.value ≠ n := by
  simp [occurrences]

theorem value_of_mem_occurrences {n : Nat} {ids : List StateId} {id : StateId}
    (h : id ∈ occurrences n ids) : id.value = n := by
  simpa using (List.mem_filter.1 h).2

theorem perm_sort (ids : List StateId) : (sort ids).Perm ids :=
  List.mergeSort_perm ids _

theorem pairwise_sort (ids : List StateId) :
    (sort ids).Pairwise fun a b => a.value ≤ b.value :=
  (List.pairwise_mergeSort isLE_cmp_trans isLE_cmp_total ids).imp isLE_cmp.1

/-- Ids of one number are in order as they stand, so sorting leaves them so. -/
theorem occurrences_sort (n : Nat) (ids : List StateId) :
    occurrences n (sort ids) = occurrences n ids := by
  have hordered : (occurrences n ids).Pairwise fun a b => (a.cmp b).isLE = true := by
    apply List.pairwise_of_forall_mem_list
    intro a ha b hb
    rw [isLE_cmp, value_of_mem_occurrences ha, value_of_mem_occurrences hb]
  have hsublist : (occurrences n ids).Sublist (sort ids) :=
    List.sublist_mergeSort isLE_cmp_trans isLE_cmp_total hordered List.filter_sublist
  have hkept : (occurrences n ids).Sublist (occurrences n (sort ids)) := by
    have hfiltered := hsublist.filter fun id => decide (id.value = n)
    simpa [occurrences] using hfiltered
  have hlength : (occurrences n (sort ids)).length = (occurrences n ids).length :=
    ((perm_sort ids).filter _).length_eq
  exact (hkept.eq_of_length hlength.symm).symm

/-! ## Leaving out what has been seen -/

variable {last : StateId} {ids : List StateId}

/-- Behind an id that is at most as large as all others, those that are larger are left. -/
theorem pairwise_go (hordered : (last :: ids).Pairwise fun a b => a.value ≤ b.value) :
    (last :: dedup.go last ids).Pairwise fun a b => a.value < b.value := by
  induction ids generalizing last with
  | nil => exact List.pairwise_singleton _ _
  | cons id ids ih =>
      rcases List.pairwise_cons.1 hordered with ⟨hle, hrest⟩
      by_cases hsame : last.value = id.value
      · rw [dedup.go, if_pos (same_iff_value_eq.2 hsame)]
        exact ih (hordered.sublist (.cons_cons _ (List.sublist_cons_self id ids)))
      · rw [dedup.go, if_neg (mt same_iff_value_eq.1 hsame)]
        have hpairwise := ih hrest
        have hlt : last.value < id.value :=
          Nat.lt_of_le_of_ne (hle id List.mem_cons_self) hsame
        refine List.pairwise_cons.2 ⟨?_, hpairwise⟩
        intro other hother
        rcases List.mem_cons.1 hother with rfl | hother
        · exact hlt
        · exact Nat.lt_trans hlt ((List.pairwise_cons.1 hpairwise).1 other hother)

theorem occurrences_go (hordered : (last :: ids).Pairwise fun a b => a.value ≤ b.value)
    (n : Nat) :
    occurrences n (last :: dedup.go last ids) = (occurrences n (last :: ids)).take 1 := by
  induction ids generalizing last with
  | nil => by_cases hn : last.value = n <;> simp [dedup.go, hn, occurrences]
  | cons id ids ih =>
      rcases List.pairwise_cons.1 hordered with ⟨hle, hrest⟩
      by_cases hsame : last.value = id.value
      · -- The second of two equal ids has no part in what is left.
        rw [dedup.go, if_pos (same_iff_value_eq.2 hsame),
          ih (hordered.sublist (.cons_cons _ (List.sublist_cons_self id ids)))]
        by_cases hn : last.value = n <;> simp [occurrences_cons, ← hsame, hn]
      · rw [dedup.go, if_neg (mt same_iff_value_eq.1 hsame), occurrences_cons, ih hrest,
          occurrences_cons n last]
        by_cases hn : last.value = n
        · -- All others are larger, so this is the only one of its number.
          have hnone : occurrences n (id :: ids) = [] := by
            rw [occurrences_eq_nil_iff]
            intro other hother
            have hid := hle id List.mem_cons_self
            rcases List.mem_cons.1 hother with rfl | hother
            · omega
            · have := (List.pairwise_cons.1 hrest).1 other hother
              omega
          simp [hn, hnone]
        · simp [hn]

theorem pairwise_dedup (hordered : ids.Pairwise fun a b => a.value ≤ b.value) :
    (dedup ids).Pairwise fun a b => a.value < b.value := by
  cases ids with
  | nil => exact .nil
  | cons id ids => exact pairwise_go hordered

theorem occurrences_dedup (hordered : ids.Pairwise fun a b => a.value ≤ b.value) (n : Nat) :
    occurrences n (dedup ids) = (occurrences n ids).take 1 := by
  cases ids with
  | nil => rfl
  | cons id ids => exact occurrences_go hordered n

/-! ## Counting -/

/-- However a list has been put in order, as many ids stay as there are numbers in it. -/
theorem length_dedup (hordered : ids.Pairwise fun a b => a.value ≤ b.value) :
    (dedup ids).length = (ids.map value).toFinset.card := by
  have hnodup : ((dedup ids).map value).Nodup :=
    List.pairwise_map.2 ((pairwise_dedup hordered).imp Nat.ne_of_lt)
  have hnumbers : ((dedup ids).map value).toFinset = (ids.map value).toFinset := by
    ext n
    have hnone : occurrences n (dedup ids) = [] ↔ occurrences n ids = [] := by
      rw [occurrences_dedup hordered]
      simp
    rw [occurrences_eq_nil_iff, occurrences_eq_nil_iff] at hnone
    simpa using not_congr hnone
  rw [← hnumbers, List.toFinset_card_of_nodup hnodup, List.length_map]

theorem countDistinct_eq_card (ids : List StateId) :
    countDistinct ids = (ids.map value).toFinset.card := by
  have hnumbers : ((sort ids).map value).toFinset = (ids.map value).toFinset :=
    List.toFinset_eq_of_perm _ _ ((perm_sort ids).map value)
  rw [countDistinct, length_dedup (pairwise_sort ids), hnumbers]

end StateId

theorem TransitionTable.stateCount_eq_card (table : TransitionTable) :
    table.stateCount = (table.members.map fun i => i.id.value).toFinset.card := by
  rw [stateCount, StateId.countDistinct_eq_card, List.map_map]
  rfl

theorem Catalogue.exists_info {index : Nat} {program : Program}
    (hprogram : programs[index]? = some program) :
    ∃ m i, Machine.ofProgram program = .ok m ∧ info index = .ok i ∧
      i.stateCount = (m.table.members.map fun i => i.id.value).toFinset.card := by
  rcases exists_ofProgram program (List.mem_of_getElem? hprogram) with ⟨m, hm⟩
  have hinfo : info index = .ok ⟨index, program.name, program.initialId, program.tape,
      m.table.stateCount, m.table.size⟩ := by
    simp only [info, byIndex, hprogram, hm, bind, Except.bind]
    rfl
  exact ⟨m, _, hm, hinfo, m.table.stateCount_eq_card⟩

/-! ## States -/

namespace StateId

/-- Sorting orders ids by their numbers and moves no two of one number; of these the
first stays.  What stays is counted, in whatever order it was found, and the states of a
program are counted in this way. -/
theorem sorted_ids_count_numbers :
    (∀ ids : List StateId,
      (sort ids).Perm ids ∧
      (sort ids).Pairwise (fun a b => a.value ≤ b.value) ∧
      (∀ n, occurrences n (sort ids) = occurrences n ids) ∧
      (dedup (sort ids)).Pairwise (fun a b => a.value < b.value) ∧
      (∀ n, occurrences n (dedup (sort ids)) = (occurrences n ids).take 1) ∧
      (dedup (sort ids)).length = (ids.map value).toFinset.card ∧
      ∀ sorted : List StateId, sorted.Perm ids →
        sorted.Pairwise (fun a b => (a.cmp b).isLE = true) →
        (dedup sorted).length = (ids.map value).toFinset.card) ∧
    (∀ table : TransitionTable,
      table.stateCount = (table.members.map fun i => i.id.value).toFinset.card) ∧
    ∀ index program, Catalogue.programs[index]? = some program →
      ∃ m i, Machine.ofProgram program = .ok m ∧ Catalogue.info index = .ok i ∧
        i.stateCount = (m.table.members.map fun i => i.id.value).toFinset.card := by
  refine ⟨?_, TransitionTable.stateCount_eq_card, fun _ _ => Catalogue.exists_info⟩
  intro ids
  have hsorted := pairwise_sort ids
  refine ⟨perm_sort ids, hsorted, fun n => occurrences_sort n ids, pairwise_dedup hsorted,
    ?_, countDistinct_eq_card ids, ?_⟩
  · intro n
    rw [occurrences_dedup hsorted, occurrences_sort]
  · intro sorted hperm hordered
    have hnumbers : (sorted.map value).toFinset = (ids.map value).toFinset :=
      List.toFinset_eq_of_perm _ _ (hperm.map value)
    rw [length_dedup (hordered.imp isLE_cmp.1), hnumbers]

theorem sorted_ids_count_numbers_with_zeros_in_front :
    let seven : StateId := ⟨['0', '0', '7'], by simp, by simp [Char.isDigit]⟩
    let ids : List StateId := [.ofNat 10, .ofNat 7, .ofNat 9, seven]
    (dedup (sort ids)).length = 3 ∧
      (dedup [seven, .ofNat 7, .ofNat 9, .ofNat 10]).length = 3 ∧
      ∃ m i, Machine.ofProgram Catalogue.unaryAddition = .ok m ∧ Catalogue.info 2 = .ok i ∧
        i.stateCount = (m.table.members.map fun i => i.id.value).toFinset.card := by
  intro seven ids
  have hcard : (ids.map value).toFinset.card = 3 := by decide
  have hall := sorted_ids_count_numbers.1 ids
  have hperm : [seven, .ofNat 7, .ofNat 9, .ofNat 10].Perm ids := by decide
  rw [← hcard]
  exact ⟨hall.2.2.2.2.2.1, hall.2.2.2.2.2.2 _ hperm (by decide),
    sorted_ids_count_numbers.2.2 2 _ rfl⟩

end StateId

end BinaryMachine
