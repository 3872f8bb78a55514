import Mathlib.Data.List.Pairwise
import BinaryMachine.Proofs.StateId.Value
import BinaryMachine.TransitionTable

/-!
# The first collision of a list of instructions

A table is built in one pass that fills an index.  What the pass reports is what
a scan over all pairs of positions reports: the lexicographically least pair of
instructions that have one id value and one condition.  It is also the least of
the first two positions of every key, in whatever order the keys are visited.
-/

namespace BinaryMachine

theorem Instruction.key_eq_iff {a b : Instruction} :
    a.key = b.key ↔ a.id.value = b.id.value ∧ a.condition = b.condition := by
  rw [← collides_iff_key_eq, Collides, StateId.same_iff_value_eq]

namespace TransitionTable

/-! ## Colliding pairs -/

def CollidesAt (members : List Instruction) (i j : Nat) : Prop :=
  i < j ∧ ∃ a b, members[i]? = some a ∧ members[j]? = some b ∧
    a.id.value = b.id.value ∧ a.condition = b.condition

/-- The colliding pair that a scan in the order of the positions finds first. -/
def FirstCollision (members : List Instruction) (i j : Nat) : Prop :=
  CollidesAt members i j ∧
    ∀ i' j', CollidesAt members i' j' → i < i' ∨ i = i' ∧ j ≤ j'

theorem collidesAt_iff {members : List Instruction} {i j : Nat} :
    CollidesAt members i j ↔
      i < j ∧ ∃ a b, members[i]? = some a ∧ members[j]? = some b ∧ a.key = b.key := by
  simp only [CollidesAt, Instruction.key_eq_iff]

theorem FirstCollision.unique {members : List Instruction} {i j i' j' : Nat}
    (h : FirstCollision members i j) (h' : FirstCollision members i' j') :
    i = i' ∧ j = j' := by
  have := h.2 i' j' h'.1
  have := h'.2 i j h.1
  omega

theorem CollidesAt.lt_length {members : List Instruction} {i j : Nat}
    (h : CollidesAt members i j) : i < members.length ∧ j < members.length := by
  obtain ⟨hlt, a, b, -, hb, -⟩ := h
  have hj := (List.getElem?_eq_some_iff.1 hb).1
  exact ⟨Nat.lt_trans hlt hj, hj⟩

theorem getElem?_append_of_some {done : List Instruction} {p : Nat} {a : Instruction}
    (h : done[p]? = some a) (i : Instruction) : (done ++ [i])[p]? = some a := by
  rw [List.getElem?_append_left (List.getElem?_eq_some_iff.1 h).1, h]

theorem collidesAt_append {done : List Instruction} {i : Instruction} {p q : Nat} :
    CollidesAt (done ++ [i]) p q ↔
      CollidesAt done p q ∨
        q = done.length ∧ ∃ a, done[p]? = some a ∧ a.key = i.key := by
  simp only [collidesAt_iff]
  constructor
  · rintro ⟨hlt, a, b, ha, hb, hkey⟩
    have hq : q < done.length + 1 := by
      simpa using (List.getElem?_eq_some_iff.1 hb).1
    have hp : p < done.length := by
      omega
    rw [List.getElem?_append_left hp] at ha
    rcases Nat.lt_succ_iff_lt_or_eq.1 hq with hq | rfl
    · rw [List.getElem?_append_left hq] at hb
      exact .inl ⟨hlt, a, b, ha, hb, hkey⟩
    · rw [List.getElem?_concat_length, Option.some.injEq] at hb
      subst hb
      exact .inr ⟨rfl, a, ha, hkey⟩
  · rintro (⟨hlt, a, b, ha, hb, hkey⟩ | ⟨rfl, a, ha, hkey⟩)
    · exact ⟨hlt, a, b, getElem?_append_of_some ha i, getElem?_append_of_some hb i, hkey⟩
    · exact ⟨(List.getElem?_eq_some_iff.1 ha).1, a, i, getElem?_append_of_some ha i,
        List.getElem?_concat_length, hkey⟩

/-! ## One pass -/

namespace Scan

/-- After `done` the index holds the first instruction of every key, and the
collision is the first one of `done`. -/
structure Knows (scan : Scan) (done : List Instruction) : Prop where
  seen_eq : scan.seen = done.length
  index_none : ∀ key, scan.index[key]? = none → ∀ i ∈ done, i.key ≠ key
  index_some : ∀ (key : TransitionKey) (p : Nat) (i : Instruction),
    scan.index[key]? = some (p, i) → done[p]? = some i ∧ i.key = key ∧
      ∀ (q : Nat) (j : Instruction), done[q]? = some j → j.key = key → p ≤ q
  collision_none : scan.collision = none → ∀ p q, ¬ CollidesAt done p q
  collision_some : ∀ p a b, scan.collision = some (p, a, b) →
    ∃ q, FirstCollision done p q ∧ done[p]? = some a ∧ done[q]? = some b

theorem knows_start : start.Knows [] where
  seen_eq := rfl
  index_none := by simp
  index_some := by simp [start]
  collision_none := by
    intro _ p q h
    simpa using h.lt_length
  collision_some := by simp [start]

variable {scan : Scan} {done : List Instruction} {i : Instruction}

/-- The pair that the new instruction makes with the first one of its key. -/
theorem Knows.earlier (h : scan.Knows done) {position : Nat} {first : Instruction}
    (hhit : scan.index[i.key]? = some (position, first)) {p : Nat} {a b : Instruction}
    (hearlier : Scan.earlier scan.collision position first i = (p, a, b)) :
    ∃ q, FirstCollision (done ++ [i]) p q ∧
      (done ++ [i])[p]? = some a ∧ (done ++ [i])[q]? = some b := by
  obtain ⟨hfirst, hkey, hleast⟩ := h.index_some i.key position first hhit
  have hnew : CollidesAt (done ++ [i]) position done.length :=
    collidesAt_append.2 (.inr ⟨rfl, first, hfirst, hkey⟩)
  have hposition := getElem?_append_of_some hfirst i
  have hlast : (done ++ [i])[done.length]? = some i := List.getElem?_concat_length
  unfold Scan.earlier at hearlier
  cases hcollision : scan.collision with
  | none =>
      simp only [hcollision, Prod.mk.injEq] at hearlier
      obtain ⟨rfl, rfl, rfl⟩ := hearlier
      refine ⟨done.length, ⟨hnew, ?_⟩, hposition, hlast⟩
      intro p' q' hpair
      rcases collidesAt_append.1 hpair with hold | ⟨rfl, c, hc, hckey⟩
      · exact absurd hold (h.collision_none hcollision p' q')
      · have := hleast p' c hc hckey
        omega
  | some known =>
      obtain ⟨k, c, d⟩ := known
      obtain ⟨q, hknown, hc, hd⟩ := h.collision_some k c d hcollision
      simp only [hcollision] at hearlier
      by_cases hlt : position < k
      · -- The pair with the new instruction starts earlier than the known one.
        rw [if_pos hlt] at hearlier
        cases hearlier
        refine ⟨done.length, ⟨hnew, ?_⟩, hposition, hlast⟩
        intro p' q' hpair
        rcases collidesAt_append.1 hpair with hold | ⟨rfl, e, he, hekey⟩
        · have := hknown.2 p' q' hold
          omega
        · have := hleast p' e he hekey
          omega
      · rw [if_neg hlt] at hearlier
        cases hearlier
        refine ⟨q, ⟨collidesAt_append.2 (.inl hknown.1), ?_⟩,
          getElem?_append_of_some hc i, getElem?_append_of_some hd i⟩
        intro p' q' hpair
        rcases collidesAt_append.1 hpair with hold | ⟨rfl, e, he, hekey⟩
        · exact hknown.2 p' q' hold
        · have := hleast p' e he hekey
          have := hknown.1.lt_length
          omega

theorem Knows.add (h : scan.Knows done) (i : Instruction) :
    (scan.add i).Knows (done ++ [i]) := by
  unfold Scan.add
  cases hindex : scan.index[i.key]? with
  | none =>
      have hfresh := h.index_none i.key hindex
      have hpairs : ∀ p q, CollidesAt (done ++ [i]) p q ↔ CollidesAt done p q := by
        intro p q
        rw [collidesAt_append]
        constructor
        · rintro (hold | ⟨-, a, ha, hkey⟩)
          · exact hold
          · exact absurd hkey (hfresh a (List.mem_of_getElem? ha))
        · exact .inl
      constructor
      case seen_eq => simp [h.seen_eq]
      case index_none =>
        intro key hnone j hj
        rw [Std.HashMap.getElem?_insert] at hnone
        by_cases hkey : i.key = key
        · simp [hkey] at hnone
        · rcases List.mem_append.1 hj with hj | hj
          · exact h.index_none key (by simpa [hkey] using hnone) j hj
          · rw [List.mem_singleton] at hj
            subst hj
            exact hkey
      case index_some =>
        intro key p j hsome
        rw [Std.HashMap.getElem?_insert] at hsome
        by_cases hkey : i.key = key
        · simp only [hkey, beq_self_eq_true, if_true, Option.some.injEq, Prod.mk.injEq] at hsome
          obtain ⟨rfl, rfl⟩ := hsome
          refine ⟨by simp [h.seen_eq], hkey, ?_⟩
          intro q k hk hkkey
          apply Nat.le_of_not_lt
          intro hlt
          rw [List.getElem?_append_left (by rw [← h.seen_eq]; omega)] at hk
          exact hfresh k (List.mem_of_getElem? hk) (hkkey.trans hkey.symm)
        · have hold : scan.index[key]? = some (p, j) := by
            simpa [hkey] using hsome
          obtain ⟨hj, hjkey, hleast⟩ := h.index_some key p j hold
          refine ⟨getElem?_append_of_some hj i, hjkey, ?_⟩
          intro q k hk hkkey
          by_cases hq : q < done.length
          · rw [List.getElem?_append_left hq] at hk
            exact hleast q k hk hkkey
          · have := (List.getElem?_eq_some_iff.1 hj).1
            omega
      case collision_none =>
        intro hnone p q hpair
        exact h.collision_none hnone p q ((hpairs p q).1 hpair)
      case collision_some =>
        intro p a b hsome
        obtain ⟨q, ⟨hpair, hleast⟩, ha, hb⟩ := h.collision_some p a b hsome
        refine ⟨q, ⟨(hpairs p q).2 hpair, ?_⟩, getElem?_append_of_some ha i,
          getElem?_append_of_some hb i⟩
        intro p' q' hpair'
        exact hleast p' q' ((hpairs p' q').1 hpair')
  | some entry =>
      obtain ⟨position, first⟩ := entry
      constructor
      case seen_eq => simp [h.seen_eq]
      case index_none =>
        intro key hnone j hj
        rcases List.mem_append.1 hj with hj | hj
        · exact h.index_none key hnone j hj
        · rw [List.mem_singleton] at hj
          rintro rfl
          rw [hj, hindex] at hnone
          contradiction
      case index_some =>
        intro key p j hsome
        obtain ⟨hj, hjkey, hleast⟩ := h.index_some key p j hsome
        refine ⟨getElem?_append_of_some hj i, hjkey, ?_⟩
        intro q k hk hkkey
        by_cases hq : q < done.length
        · rw [List.getElem?_append_left hq] at hk
          exact hleast q k hk hkkey
        · have := (List.getElem?_eq_some_iff.1 hj).1
          omega
      case collision_none => simp
      case collision_some =>
        intro p a b hsome
        exact h.earlier hindex (Option.some.inj hsome)

theorem Knows.foldl (rest : List Instruction) :
    ∀ {scan : Scan} {done : List Instruction}, scan.Knows done →
      (rest.foldl Scan.add scan).Knows (done ++ rest) := by
  induction rest with
  | nil =>
      intro scan done h
      simpa using h
  | cons i rest ih =>
      intro scan done h
      simpa using ih (h.add i)

theorem knows_ofList (members : List Instruction) : (ofList members).Knows members := by
  simpa [ofList] using knows_start.foldl members

end Scan

theorem ofList_eq_ok {members : List Instruction} {table : TransitionTable}
    (h : ofList members = .ok table) :
    table.members = members ∧ (Scan.ofList members).collision = none := by
  unfold ofList at h
  split at h
  · cases h
  · next hnone =>
      cases h
      exact ⟨rfl, hnone⟩

theorem ofList_eq_error {members : List Instruction} {failure : Failure}
    (h : ofList members = .error failure) :
    ∃ p a b, (Scan.ofList members).collision = some (p, a, b) ∧
      failure = .collision a b := by
  unfold ofList at h
  split at h
  · next p a b hsome =>
      cases h
      exact ⟨p, a, b, hsome, rfl⟩
  · cases h

theorem exists_ofList_of_collision_none {members : List Instruction}
    (h : (Scan.ofList members).collision = none) : ∃ table, ofList members = .ok table := by
  cases hresult : ofList members with
  | ok table => exact ⟨table, rfl⟩
  | error failure =>
      obtain ⟨p, a, b, hsome, -⟩ := ofList_eq_error hresult
      rw [h] at hsome
      contradiction

/-! ## Key by key -/

def positions (members : List Instruction) (key : TransitionKey) : List Nat :=
  (List.range members.length).filter fun p => (members[p]?).map Instruction.key == some key

def firstTwo? : List Nat → Option (Nat × Nat)
  | p :: q :: _ => some (p, q)
  | _ => none

def least? : List (Nat × Nat) → Option (Nat × Nat)
  | [] => none
  | pair :: rest =>
      match least? rest with
      | none => some pair
      | some other =>
          some (if pair.1 < other.1 ∨ pair.1 = other.1 ∧ pair.2 ≤ other.2 then pair else other)

/-- The least of the first two positions of every key that has two. -/
def groupedCollision? (members : List Instruction) (order : List TransitionKey) :
    Option (Nat × Nat) :=
  least? (order.filterMap fun key => firstTwo? (positions members key))

theorem mem_positions {members : List Instruction} {key : TransitionKey} {p : Nat} :
    p ∈ positions members key ↔ ∃ a, members[p]? = some a ∧ a.key = key := by
  simp only [positions, List.mem_filter, List.mem_range, beq_iff_eq, Option.map_eq_some_iff]
  constructor
  · rintro ⟨-, h⟩
    exact h
  · rintro ⟨a, ha, hkey⟩
    exact ⟨(List.getElem?_eq_some_iff.1 ha).1, a, ha, hkey⟩

theorem collidesAt_iff_positions {members : List Instruction} {p q : Nat} :
    CollidesAt members p q ↔
      p < q ∧ ∃ key, p ∈ positions members key ∧ q ∈ positions members key := by
  simp only [collidesAt_iff, mem_positions]
  constructor
  · rintro ⟨hlt, a, b, ha, hb, hkey⟩
    exact ⟨hlt, b.key, ⟨a, ha, hkey⟩, ⟨b, hb, rfl⟩⟩
  · rintro ⟨hlt, key, ⟨a, ha, hakey⟩, ⟨b, hb, hbkey⟩⟩
    exact ⟨hlt, a, b, ha, hb, hakey.trans hbkey.symm⟩

theorem pairwise_positions (members : List Instruction) (key : TransitionKey) :
    (positions members key).Pairwise (· < ·) :=
  List.pairwise_lt_range.filter _

theorem firstTwo?_positions {members : List Instruction} {key : TransitionKey} {p q : Nat}
    (h : firstTwo? (positions members key) = some (p, q)) :
    CollidesAt members p q ∧ ∀ p' q', p' < q' → p' ∈ positions members key →
      q' ∈ positions members key → p < p' ∨ p = p' ∧ q ≤ q' := by
  have hsorted := pairwise_positions members key
  match hpositions : positions members key with
  | [] => simp [hpositions, firstTwo?] at h
  | [r] => simp [hpositions, firstTwo?] at h
  | r :: r' :: rest =>
      simp only [hpositions, firstTwo?, Option.some.injEq, Prod.mk.injEq] at h
      obtain ⟨rfl, rfl⟩ := h
      rw [hpositions] at hsorted
      simp only [List.pairwise_cons, List.mem_cons] at hsorted
      obtain ⟨hfirst, hsecond, -⟩ := hsorted
      have hlt := hfirst r' (.inl rfl)
      constructor
      · exact collidesAt_iff_positions.2 ⟨hlt, key, by simp [hpositions], by simp [hpositions]⟩
      · intro p' q' hlt' hp hq
        simp only [List.mem_cons] at hp hq
        rcases hp with rfl | hp
        · rcases hq with rfl | rfl | hq
          · omega
          · omega
          · have := hsecond q' hq
            omega
        · have := hfirst p' hp
          omega

theorem exists_firstTwo?_positions {members : List Instruction} {key : TransitionKey}
    {p q : Nat} (hlt : p < q) (hp : p ∈ positions members key)
    (hq : q ∈ positions members key) :
    ∃ pair, firstTwo? (positions members key) = some pair := by
  match hpositions : positions members key with
  | [] => simp [hpositions] at hp
  | [r] =>
      simp only [hpositions, List.mem_singleton] at hp hq
      omega
  | r :: r' :: rest => exact ⟨(r, r'), rfl⟩

theorem least?_eq_none {pairs : List (Nat × Nat)} (h : least? pairs = none) : pairs = [] := by
  cases pairs with
  | nil => rfl
  | cons pair rest =>
      rw [least?] at h
      split at h <;> cases h

theorem least?_eq_some {pairs : List (Nat × Nat)} {p q : Nat}
    (h : least? pairs = some (p, q)) :
    (p, q) ∈ pairs ∧ ∀ p' q', (p', q') ∈ pairs → p < p' ∨ p = p' ∧ q ≤ q' := by
  induction pairs generalizing p q with
  | nil => cases h
  | cons pair rest ih =>
      rw [least?] at h
      cases hrest : least? rest with
      | none =>
          rw [hrest] at h
          cases h
          obtain rfl := least?_eq_none hrest
          refine ⟨List.mem_cons_self, ?_⟩
          intro p' q' hmem
          cases List.mem_singleton.1 hmem
          omega
      | some other =>
          obtain ⟨hmem, hleast⟩ := ih hrest
          simp only [hrest, Option.some.injEq] at h
          split at h
          · next hle =>
              subst h
              refine ⟨List.mem_cons_self, ?_⟩
              intro p' q' hmem'
              rcases List.mem_cons.1 hmem' with heq | hmem'
              · cases heq
                omega
              · have := hleast p' q' hmem'
                simp only at hle
                omega
          · next hgt =>
              subst h
              refine ⟨List.mem_cons_of_mem _ hmem, ?_⟩
              intro p' q' hmem'
              rcases List.mem_cons.1 hmem' with heq | hmem'
              · subst heq
                simp only at hgt
                omega
              · exact hleast p' q' hmem'

/-- The order in which the keys are visited does not matter. -/
theorem groupedCollision?_eq_some_iff {members : List Instruction}
    {order : List TransitionKey} (horder : ∀ i ∈ members, i.key ∈ order) {p q : Nat} :
    groupedCollision? members order = some (p, q) ↔ FirstCollision members p q := by
  have sound : ∀ {p q}, groupedCollision? members order = some (p, q) →
      FirstCollision members p q := by
    intro p q h
    obtain ⟨hmem, hleast⟩ := least?_eq_some h
    obtain ⟨key, -, hkey⟩ := List.mem_filterMap.1 hmem
    refine ⟨(firstTwo?_positions hkey).1, ?_⟩
    intro p' q' hpair
    obtain ⟨hlt, key', hp, hq⟩ := collidesAt_iff_positions.1 hpair
    obtain ⟨⟨r, r'⟩, htwo⟩ := exists_firstTwo?_positions hlt hp hq
    obtain ⟨a, ha, rfl⟩ := mem_positions.1 hp
    have := (firstTwo?_positions htwo).2 p' q' hlt hp hq
    have := hleast r r' (List.mem_filterMap.2
      ⟨a.key, horder a (List.mem_of_getElem? ha), htwo⟩)
    omega
  constructor
  · exact sound
  · intro h
    cases hgrouped : groupedCollision? members order with
    | none =>
        have hempty := least?_eq_none hgrouped
        obtain ⟨hlt, key, hp, hq⟩ := collidesAt_iff_positions.1 h.1
        obtain ⟨pair, htwo⟩ := exists_firstTwo?_positions hlt hp hq
        obtain ⟨a, ha, rfl⟩ := mem_positions.1 hp
        have hmem : pair ∈ order.filterMap fun key => firstTwo? (positions members key) :=
          List.mem_filterMap.2 ⟨a.key, horder a (List.mem_of_getElem? ha), htwo⟩
        rw [hempty] at hmem
        contradiction
    | some pair =>
        obtain ⟨rfl, rfl⟩ := (sound hgrouped).unique h
        rfl

/-! ## The table that is built -/

theorem find?_eq_scan_value (table : TransitionTable) (id : StateId) (symbol : Symbol) :
    table.find? id symbol =
      table.members.find? fun i =>
        decide (i.id.value = id.value ∧ i.condition = symbol) := by
  simp only [find?_eq_scan, StateId.same_iff_value_eq]

theorem mem_of_find? {table : TransitionTable} {id : StateId} {symbol : Symbol}
    {i : Instruction} (h : table.find? id symbol = some i) :
    i ∈ table.members ∧ i.id.value = id.value ∧ i.condition = symbol := by
  rw [find?_eq_scan_value] at h
  exact ⟨List.mem_of_find?_eq_some h, by simpa using List.find?_some h⟩

theorem find?_of_mem (table : TransitionTable) {i : Instruction} (hi : i ∈ table.members) :
    table.find? i.id i.condition = some i := by
  rw [find?_eq_scan]
  cases hfind : table.members.find? fun j =>
      decide (j.id.Same i.id ∧ j.condition = i.condition) with
  | none =>
      have := List.find?_eq_none.1 hfind i hi
      simp [StateId.Same] at this
  | some j =>
      have hj := List.mem_of_find?_eq_some hfind
      have hcollides : j.Collides i := by
        simpa [Instruction.Collides] using List.find?_some hfind
      have : Std.Symm fun a b : Instruction => ¬ a.Collides b :=
        ⟨fun a b hab hba => hab ⟨hba.1.symm, hba.2.symm⟩⟩
      -- Two members that collide are one member.
      by_cases hne : j = i
      · rw [hne]
      · exact absurd hcollides (table.distinct.forall hj hi hne)

theorem find?_eq_some_iff {table : TransitionTable} {id : StateId} {symbol : Symbol}
    {i : Instruction} :
    table.find? id symbol = some i ↔
      i ∈ table.members ∧ i.id.value = id.value ∧ i.condition = symbol := by
  refine ⟨mem_of_find?, ?_⟩
  rintro ⟨hmem, hvalue, rfl⟩
  rw [← table.find?_of_mem hmem, find?_eq_scan_value, find?_eq_scan_value, hvalue]

theorem hasState_iff (table : TransitionTable) (id : StateId) :
    table.hasState id = true ↔ ∃ i ∈ table.members, i.id.value = id.value := by
  simp [hasState, StateId.same_iff_value_eq]

theorem ofList_eq_pairwise_scan (members : List Instruction) :
    ((∃ failure, ofList members = .error failure) ↔ ∃ i j, CollidesAt members i j) ∧
    (∀ failure, ofList members = .error failure →
      ∃ i j a b, FirstCollision members i j ∧ members[i]? = some a ∧ members[j]? = some b ∧
        failure = .collision a b ∧
        ∀ order : List TransitionKey, (∀ i ∈ members, i.key ∈ order) →
          groupedCollision? members order = some (i, j)) ∧
    ∀ table, ofList members = .ok table →
      table.members = members ∧
      (∀ id symbol, table.find? id symbol =
        members.find? fun i => decide (i.id.value = id.value ∧ i.condition = symbol)) ∧
      (∀ i ∈ members, table.find? i.id i.condition = some i) ∧
      ∀ id, table.hasState id = true ↔ ∃ i ∈ members, i.id.value = id.value := by
  have hknows := Scan.knows_ofList members
  refine ⟨⟨?_, ?_⟩, ?_, ?_⟩
  · rintro ⟨failure, hfailure⟩
    obtain ⟨p, a, b, hsome, -⟩ := ofList_eq_error hfailure
    obtain ⟨q, hfirst, -⟩ := hknows.collision_some p a b hsome
    exact ⟨p, q, hfirst.1⟩
  · rintro ⟨i, j, hpair⟩
    cases hresult : ofList members with
    | error failure => exact ⟨failure, rfl⟩
    | ok table =>
        exact absurd hpair (hknows.collision_none (ofList_eq_ok hresult).2 i j)
  · intro failure hfailure
    obtain ⟨p, a, b, hsome, hcollision⟩ := ofList_eq_error hfailure
    obtain ⟨q, hfirst, ha, hb⟩ := hknows.collision_some p a b hsome
    exact ⟨p, q, a, b, hfirst, ha, hb, hcollision,
      fun order horder => (groupedCollision?_eq_some_iff horder).2 hfirst⟩
  · intro table htable
    obtain ⟨rfl, -⟩ := ofList_eq_ok htable
    exact ⟨rfl, table.find?_eq_scan_value, fun i hi => table.find?_of_mem hi,
      table.hasState_iff⟩

end TransitionTable

end BinaryMachine
