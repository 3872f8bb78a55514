import BinaryMachine.Proofs.Machine.Course

/-!
# What the built-in programs compute

A number is written as so many marks.  The built-in programs add, put one mark at either
end and count for ever, and they do so on all numbers and not only on the content that
they come with.
-/

namespace BinaryMachine.Catalogue

/-- A number in unary. -/
def marks (n : Nat) : String :=
  String.ofList (List.replicate n '1')

/-- The same, as symbols. -/
def ones (n : Nat) : List Symbol :=
  List.replicate n .one

theorem map_char_ones (n : Nat) : (ones n).map Symbol.char = (marks n).toList := by
  simp only [ones, marks, List.map_replicate, String.toList_ofList]
  rfl

theorem ones_append (a b : Nat) : ones a ++ ones b = ones (a + b) :=
  List.replicate_append_replicate

theorem reverse_ones (n : Nat) : (ones n).reverse = ones n :=
  List.reverse_replicate

theorem length_ones (n : Nat) : (ones n).length = n :=
  List.length_replicate

theorem marks_append (a b : Nat) : marks a ++ marks b = marks (a + b) := by
  simp only [marks, ← String.ofList_append, List.replicate_append_replicate]

/-- With marks only on the left of the head, the text begins with so many of them. -/
theorem text_ones (n : Nat) (here : Symbol) (right : List Symbol) :
    (⟨ones n, here, right⟩ : Strip).text =
      marks n ++ String.ofList ((here :: right).map Symbol.char) := by
  apply String.toList_inj.1
  simp [Strip.text, Strip.symbols, reverse_ones, map_char_ones]

theorem text_ones_one (n : Nat) : (⟨ones n, .one, []⟩ : Strip).text = marks (n + 1) :=
  (text_ones n .one []).trans (marks_append n 1)

/-! ## Courses of the programs -/

/-- The first of these instructions for a state and a symbol. -/
def lookupIn (members : List Instruction) (id : StateId) (symbol : Symbol) :
    Option Instruction :=
  members.find? fun i => decide (i.id.Same id ∧ i.condition = symbol)

def additionMembers : List Instruction :=
  [⟨.ofNat 0, .one, .move .right, .ofNat 0⟩, ⟨.ofNat 0, .zero, .write .one, .ofNat 1⟩,
    ⟨.ofNat 1, .one, .move .right, .ofNat 1⟩, ⟨.ofNat 1, .zero, .move .left, .ofNat 2⟩,
    ⟨.ofNat 2, .one, .write .zero, .ofNat 3⟩]

def successorMembers : List Instruction :=
  [⟨.ofNat 0, .one, .move .right, .ofNat 0⟩, ⟨.ofNat 0, .zero, .write .one, .ofNat 1⟩]

def prependMembers : List Instruction :=
  [⟨.ofNat 0, .one, .move .left, .ofNat 0⟩, ⟨.ofNat 0, .zero, .write .one, .ofNat 1⟩]

def counterMembers : List Instruction :=
  [⟨.ofNat 1, .one, .move .right, .ofNat 1⟩, ⟨.ofNat 1, .zero, .write .one, .ofNat 1⟩]

/-- Over the first number, into the gap, over the mark there and the second number, and one
mark back. -/
theorem addition_course (a b : Nat) :
    Course (lookupIn additionMembers) (.ofNat 0) (.before [] (ones a ++ .zero :: ones b))
      (a + b + 4) (.ofNat 3) ⟨ones (a + b), .zero, [.zero]⟩ := by
  have hright : lookupIn additionMembers (.ofNat 0) .one =
      some ⟨.ofNat 0, .one, .move .right, .ofNat 0⟩ := rfl
  have hright' : lookupIn additionMembers (.ofNat 1) .one =
      some ⟨.ofNat 1, .one, .move .right, .ofNat 1⟩ := rfl
  have hfirst : Course (lookupIn additionMembers) (.ofNat 0)
      (.before [] (ones a ++ .zero :: ones b)) a (.ofNat 0)
      (.before (ones a ++ []) (.zero :: ones b)) :=
    .sweep hright rfl rfl _ a []
  have hgap : Course (lookupIn additionMembers) (.ofNat 0)
      (.before (ones a ++ []) (.zero :: ones b)) 1 (.ofNat 1)
      (.before (ones a) (ones (b + 1) ++ [])) := by
    rw [List.append_nil, List.append_nil]
    exact .step rfl .done
  have hsecond : Course (lookupIn additionMembers) (.ofNat 1)
      (.before (ones a) (ones (b + 1) ++ [])) (b + 1) (.ofNat 1)
      (.before (ones (b + 1) ++ ones a) []) :=
    .sweep hright' rfl rfl [] (b + 1) _
  have hback : Course (lookupIn additionMembers) (.ofNat 1)
      (.before (ones (b + 1) ++ ones a) []) 2 (.ofNat 3) ⟨ones b ++ ones a, .zero, [.zero]⟩ :=
    .step rfl (.step rfl .done)
  have hwhole := hfirst.trans (hgap.trans (hsecond.trans hback))
  have hsteps : a + (1 + (b + 1 + 2)) = a + b + 4 := by
    omega
  rwa [hsteps, ones_append, Nat.add_comm b a] at hwhole

theorem successor_course (n : Nat) :
    Course (lookupIn successorMembers) (.ofNat 0) (.before [] (ones n)) (n + 1) (.ofNat 1)
      ⟨ones n, .one, []⟩ := by
  have hright : lookupIn successorMembers (.ofNat 0) .one =
      some ⟨.ofNat 0, .one, .move .right, .ofNat 0⟩ := rfl
  have hsweep : Course (lookupIn successorMembers) (.ofNat 0) (.before [] (ones n ++ [])) n
      (.ofNat 0) (.before (ones n ++ []) []) :=
    .sweep hright rfl rfl [] n []
  rw [List.append_nil] at hsweep
  exact hsweep.trans (.step rfl .done)

theorem prepend_course (n : Nat) :
    Course (lookupIn prependMembers) (.ofNat 0) (.before [] (ones (n + 1))) 2 (.ofNat 1)
      ⟨[], .one, ones (n + 1)⟩ :=
  .step rfl (.step rfl .done)

/-- Two steps for every mark: one onto the blank behind the last and one that marks it. -/
theorem counter_course (n : Nat) :
    Course (lookupIn counterMembers) (.ofNat 1) (.before [] (ones 1)) (2 * n) (.ofNat 1)
      ⟨ones n, .one, []⟩ := by
  induction n with
  | zero => exact .done
  | succ n ih => exact ih.trans (.step rfl (.step rfl .done))

/-! ## Runs of the programs -/

/-- A program on another content than its own. -/
theorem exists_at {program : Program} {members : List Instruction}
    (hmembers : parseInstructions program.instructions program.separator = .ok members)
    (hdistinct : members.Pairwise fun a b => ¬ a.Collides b)
    (hinitial : ∃ i ∈ members, i.id.value = program.initialId.value)
    {content : String} {symbols : List Symbol} (hcontent : content.toList = symbols.map Symbol.char) :
    ∃ m, Machine.ofProgram { program with tape := content } = .ok m ∧
      m.table.find? = lookupIn members ∧ m.steps = 0 ∧
      m.At program.initialId (.before [] symbols) := by
  obtain ⟨m, hm, hlist, hsteps, hat⟩ :=
    @Machine.exists_at_of_parse { program with tape := content } _ _ hcontent hmembers hdistinct
      hinitial
  refine ⟨m, hm, ?_, hsteps, hat⟩
  funext id symbol
  rw [TransitionTable.find?_eq_scan, hlist, lookupIn]

theorem addition_halts (a b : Nat) :
    ∃ m, Machine.ofProgram { unaryAddition with tape := marks a ++ "0" ++ marks b } = .ok m ∧
      m.HaltsAfter (a + b + 4) (marks (a + b) ++ "00") (a + b) := by
  have hcontent : (marks a ++ "0" ++ marks b).toList =
      (ones a ++ Symbol.zero :: ones b).map Symbol.char := by
    simp [map_char_ones, Symbol.char]
  obtain ⟨m, hm, hlookup, hsteps, hat⟩ :=
    @exists_at unaryAddition additionMembers rfl (by decide) (by decide) _ _ hcontent
  have hhalts := hat.haltsAfter hsteps (hlookup ▸ addition_course a b) (by rw [hlookup]; rfl)
  rw [text_ones, length_ones] at hhalts
  exact ⟨m, hm, hhalts⟩

theorem successor_halts (n : Nat) :
    ∃ m, Machine.ofProgram { unarySuccessor with tape := marks n } = .ok m ∧
      m.HaltsAfter (n + 1) (marks (n + 1)) n := by
  obtain ⟨m, hm, hlookup, hsteps, hat⟩ :=
    @exists_at unarySuccessor successorMembers rfl (by decide) (by decide) _ _
      (map_char_ones n).symm
  have hhalts := hat.haltsAfter hsteps (hlookup ▸ successor_course n) (by rw [hlookup]; rfl)
  rw [text_ones_one, length_ones] at hhalts
  exact ⟨m, hm, hhalts⟩

theorem prepend_halts (n : Nat) :
    ∃ m, Machine.ofProgram { unaryPrepend with tape := marks (n + 1) } = .ok m ∧
      m.HaltsAfter 2 (marks (n + 2)) 0 := by
  obtain ⟨m, hm, hlookup, hsteps, hat⟩ :=
    @exists_at unaryPrepend prependMembers rfl (by decide) (by decide) _ _
      (map_char_ones (n + 1)).symm
  have hhalts := hat.haltsAfter hsteps (hlookup ▸ prepend_course n) (by rw [hlookup]; rfl)
  have htext : (⟨[], .one, ones (n + 1)⟩ : Strip).text = marks (n + 2) := by
    apply String.toList_inj.1
    simp only [Strip.text, String.toList_ofList, ← map_char_ones]
    rfl
  rw [htext] at hhalts
  exact ⟨m, hm, hhalts⟩

theorem counter_runs :
    ∃ m, Machine.ofProgram { unaryCounter with tape := "1" } = .ok m ∧
      ∀ k, m.RunsFor k (marks (1 + k / 2) ++ if k % 2 = 1 then "0" else "") ((k + 1) / 2) := by
  obtain ⟨m, hm, hlookup, hsteps, hat⟩ :=
    @exists_at unaryCounter counterMembers rfl (by decide) (by decide) _ _ (map_char_ones 1).symm
  have hgoes : ∀ symbol, m.table.find? (.ofNat 1) symbol ≠ none := by
    intro symbol
    rw [hlookup]
    cases symbol <;> decide
  refine ⟨m, hm, ?_⟩
  intro k
  rcases Nat.even_or_odd' k with ⟨n, rfl | rfl⟩
  · have hruns := hat.runsFor hsteps (hlookup ▸ counter_course n) (hgoes _)
    rw [text_ones_one, length_ones] at hruns
    have hmarks : 1 + 2 * n / 2 = n + 1 := by omega
    have hindex : (2 * n + 1) / 2 = n := by omega
    rw [hmarks, hindex, if_neg (by omega), String.append_empty]
    exact hruns
  · have hcourse : Course (lookupIn counterMembers) (.ofNat 1) (.before [] (ones 1)) (2 * n + 1)
        (.ofNat 1) ⟨ones (n + 1), .zero, []⟩ :=
      (counter_course n).trans (.step rfl .done)
    have hruns := hat.runsFor hsteps (hlookup ▸ hcourse) (hgoes _)
    rw [text_ones, length_ones] at hruns
    have hmarks : 1 + (2 * n + 1) / 2 = n + 1 := by omega
    have hodd : (2 * n + 1) % 2 = 1 := by omega
    have hindex : (2 * n + 1 + 1) / 2 = n + 1 := by omega
    rw [hmarks, if_pos hodd, hindex]
    exact hruns

/-! ## All of them -/

/-- Each of the built-in programs computes its function on every number, in so many
steps; the counter has counted half of its steps at any time. -/
theorem built_in_programs_compute :
    (∀ a b, ∃ m,
      Machine.ofProgram { unaryAddition with tape := marks a ++ "0" ++ marks b } = .ok m ∧
        m.HaltsAfter (a + b + 4) (marks (a + b) ++ "00") (a + b)) ∧
    (∀ n, ∃ m, Machine.ofProgram { unarySuccessor with tape := marks n } = .ok m ∧
      m.HaltsAfter (n + 1) (marks (n + 1)) n) ∧
    (∀ n, 1 ≤ n → ∃ m, Machine.ofProgram { unaryPrepend with tape := marks n } = .ok m ∧
      m.HaltsAfter 2 (marks (n + 1)) 0) ∧
    ∃ m, Machine.ofProgram { unaryCounter with tape := marks 1 } = .ok m ∧
      ∀ k, m.RunsFor k (marks (1 + k / 2) ++ if k % 2 = 1 then "0" else "") ((k + 1) / 2) := by
  refine ⟨addition_halts, successor_halts, ?_, counter_runs⟩
  intro n hn
  rcases Nat.exists_eq_add_of_le' hn with ⟨k, rfl⟩
  exact prepend_halts k

/-- Three marks and one more in front of them. -/
theorem built_in_programs_compute_on_three :
    1 ≤ 3 ∧ ∃ m, Machine.ofProgram { unaryPrepend with tape := "111" } = .ok m ∧
      m.HaltsAfter 2 "1111" 0 :=
  ⟨by decide, built_in_programs_compute.2.2.1 3 (by decide)⟩

end BinaryMachine.Catalogue
