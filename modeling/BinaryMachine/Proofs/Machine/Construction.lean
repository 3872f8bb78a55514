import BinaryMachine.Catalogue
import BinaryMachine.Proofs.Encoding.InstructionList
import BinaryMachine.Proofs.Machine.Calls

/-!
# From programs to machines

Five things are required of a program, and they are checked in one order.  A
machine is built exactly if all of them are met.  Otherwise the first one that is
not met says how the program is refused, whatever else may be wrong with it.  A
program text is loaded by the same requirements, behind its size and its form.
-/

namespace BinaryMachine

private theorem bind_eq_error_iff {α β : Type} {x : Except Failure α}
    {f : α → Except Failure β} {failure : Failure} :
    (x >>= f) = .error failure ↔
      x = .error failure ∨ ∃ a, x = .ok a ∧ f a = .error failure := by
  cases x <;> simp [bind, Except.bind]

private theorem bind_eq_ok_iff {α β : Type} {x : Except Failure α}
    {f : α → Except Failure β} {b : β} :
    (x >>= f) = .ok b ↔ ∃ a, x = .ok a ∧ f a = .ok b := by
  cases x <;> simp [bind, Except.bind]

/-! ## Requirements -/

inductive Requirement where
  | tape
  | separator
  | instructions
  | distinct
  | initial
  deriving DecidableEq, Repr

/-- The place in the order of the checks. -/
def Requirement.rank : Requirement → Nat
  | tape => 0
  | separator => 1
  | instructions => 2
  | distinct => 3
  | initial => 4

theorem Requirement.forall_iff {P : Requirement → Prop} :
    (∀ r, P r) ↔ P tape ∧ P separator ∧ P instructions ∧ P distinct ∧ P initial := by
  constructor
  · intro h
    exact ⟨h _, h _, h _, h _, h _⟩
  · rintro ⟨htape, hseparator, hinstructions, hdistinct, hinitial⟩ r
    cases r <;> assumption

namespace Program

/-- What the instructions are read from, one by one. -/
def segments (program : Program) : List (List Char) :=
  instructionSegments program.instructions program.separator

def members (program : Program) : List Instruction :=
  program.segments.filterMap Instruction.ofChars?

def Meets (program : Program) : Requirement → Prop
  | .tape => TapeForm program.tape
  | .separator => program.separator ≠ ""
  | .instructions => ∀ segment ∈ program.segments, Instruction.Form segment
  | .distinct => ∀ p q, ¬ TransitionTable.CollidesAt program.members p q
  | .initial => ∃ i ∈ program.members, i.id.value = program.initialId.value

/-- How a program that fails to meet a requirement is refused. -/
def Refused (program : Program) (failure : Failure) : Requirement → Prop
  | .tape => failure = .malformedTape program.tape
  | .separator => failure = .emptySeparator
  | .instructions => ∃ segment, FirstMalformed program.segments segment ∧
      failure = .malformedInstruction (String.ofList segment)
  | .distinct => ∃ p q a b, TransitionTable.FirstCollision program.members p q ∧
      program.members[p]? = some a ∧ program.members[q]? = some b ∧ failure = .collision a b
  | .initial => failure = .unknownInitial program.initialId

/-- All requirements that are checked earlier are met, but this one is not. -/
def FirstUnmet (program : Program) (r : Requirement) : Prop :=
  (∀ earlier : Requirement, earlier.rank < r.rank → program.Meets earlier) ∧ ¬ program.Meets r

end Program

/-! ## The checks one by one -/

theorem map_chars_members {segments : List (List Char)}
    (h : ∀ segment ∈ segments, Instruction.Form segment) :
    (segments.filterMap Instruction.ofChars?).map Instruction.chars = segments := by
  induction segments with
  | nil => rfl
  | cons segment segments ih =>
      rw [List.forall_mem_cons, Instruction.form_iff] at h
      obtain ⟨⟨i, rfl⟩, hrest⟩ := h
      rw [List.filterMap_cons_some i.ofChars?_chars, List.map_cons, ih hrest]

namespace TransitionTable

theorem ofList_eq_error_iff {members : List Instruction} {failure : Failure} :
    ofList members = .error failure ↔
      ∃ p q a b, FirstCollision members p q ∧ members[p]? = some a ∧ members[q]? = some b ∧
        failure = .collision a b := by
  have hknows := Scan.knows_ofList members
  have hforth : ∀ failure, ofList members = .error failure →
      ∃ p q a b, FirstCollision members p q ∧ members[p]? = some a ∧ members[q]? = some b ∧
        failure = .collision a b := by
    intro failure hfailure
    obtain ⟨p, a, b, hsome, hcollision⟩ := ofList_eq_error hfailure
    obtain ⟨q, hfirst, ha, hb⟩ := hknows.collision_some p a b hsome
    exact ⟨p, q, a, b, hfirst, ha, hb, hcollision⟩
  refine ⟨hforth failure, ?_⟩
  rintro ⟨p, q, a, b, hfirst, ha, hb, rfl⟩
  cases hresult : ofList members with
  | ok table => exact absurd hfirst.1 (hknows.collision_none (ofList_eq_ok hresult).2 p q)
  | error other =>
      obtain ⟨p', q', a', b', hfirst', ha', hb', rfl⟩ := hforth other hresult
      obtain ⟨rfl, rfl⟩ := hfirst.unique hfirst'
      rw [ha, Option.some.injEq] at ha'
      rw [hb, Option.some.injEq] at hb'
      rw [ha', hb']

theorem exists_ofList_iff {members : List Instruction} :
    (∃ table, ofList members = .ok table) ↔ ∀ p q, ¬ CollidesAt members p q := by
  have hknows := Scan.knows_ofList members
  constructor
  · rintro ⟨table, htable⟩
    exact hknows.collision_none (ofList_eq_ok htable).2
  · intro hdistinct
    apply exists_ofList_of_collision_none
    cases hcollision : (Scan.ofList members).collision with
    | none => rfl
    | some pair =>
        obtain ⟨p, a, b⟩ := pair
        obtain ⟨q, hfirst, -⟩ := hknows.collision_some p a b hcollision
        exact absurd hfirst.1 (hdistinct p q)

theorem exists_ofList_of_pairwise {members : List Instruction}
    (h : members.Pairwise fun a b => ¬ a.Collides b) : ∃ table, ofList members = .ok table := by
  rw [exists_ofList_iff]
  rintro p q ⟨hlt, a, b, ha, hb, hvalue, hcondition⟩
  obtain ⟨hp, rfl⟩ := List.getElem?_eq_some_iff.1 ha
  obtain ⟨hq, rfl⟩ := List.getElem?_eq_some_iff.1 hb
  exact List.pairwise_iff_getElem.1 h p q hp hq hlt
    ⟨StateId.same_iff_value_eq.2 hvalue, hcondition⟩

theorem exists_members_eq {members : List Instruction}
    (h : members.Pairwise fun a b => ¬ a.Collides b) :
    ∃ table : TransitionTable, table.members = members := by
  rcases exists_ofList_of_pairwise h with ⟨table, htable⟩
  exact ⟨table, (ofList_eq_ok htable).1⟩

end TransitionTable

namespace Machine

variable {tape : Tape} {table : TransitionTable} {initialId : StateId}

theorem start_eq_error_iff {failure : Failure} :
    start tape table initialId = .error failure ↔
      (¬ ∃ i ∈ table.members, i.id.value = initialId.value) ∧
        failure = .unknownInitial initialId := by
  rw [← table.hasState_iff, start]
  by_cases hstate : table.hasState initialId = true
  · rw [if_pos hstate]
    simp [hstate]
  · rw [if_neg hstate]
    simp [hstate, eq_comm]

theorem exists_start_iff :
    (∃ m, start tape table initialId = .ok m) ↔
      ∃ i ∈ table.members, i.id.value = initialId.value := by
  rw [← table.hasState_iff, start]
  by_cases hstate : table.hasState initialId = true
  · rw [if_pos hstate]
    exact ⟨fun _ => hstate, fun _ => ⟨_, rfl⟩⟩
  · rw [if_neg hstate]
    simp [hstate]

end Machine

/-! ## All checks in order -/

namespace Program

variable {program : Program} {failure : Failure}

theorem parseInstructions_eq_ok_iff {members : List Instruction} :
    parseInstructions program.instructions program.separator = .ok members ↔
      program.Meets .separator ∧ program.Meets .instructions ∧ members = program.members := by
  by_cases hseparator : program.separator = ""
  · rw [parseInstructions, if_pos hseparator]
    simp [Meets, hseparator]
  · rw [parseInstructions_of_ne hseparator, readSegments_eq_ok_iff]
    constructor
    · intro hsegments
      refine ⟨hseparator, ?_, ?_⟩
      · intro segment hsegment
        rw [segments, hsegments] at hsegment
        obtain ⟨i, -, rfl⟩ := List.mem_map.1 hsegment
        exact i.form_chars
      · rw [Program.members, segments, hsegments, List.filterMap_map]
        exact (List.filterMap_some.symm.trans
          (List.filterMap_congr fun i _ => (i.ofChars?_chars).symm))
    · rintro ⟨-, hforms, rfl⟩
      exact (map_chars_members hforms).symm

theorem parseInstructions_eq_error_iff :
    parseInstructions program.instructions program.separator = .error failure ↔
      (¬ program.Meets .separator ∧ program.Refused failure .separator) ∨
      (program.Meets .separator ∧ program.Refused failure .instructions) := by
  by_cases hseparator : program.separator = ""
  · rw [parseInstructions, if_pos hseparator]
    simp [Meets, Refused, hseparator, eq_comm]
  · rw [BinaryMachine.parseInstructions_eq_error_iff hseparator]
    simp [Meets, Refused, hseparator, segments]

theorem parse_eq_ok_iff {table : TransitionTable} :
    TransitionTable.parse program.instructions program.separator = .ok table ↔
      program.Meets .separator ∧ program.Meets .instructions ∧
        TransitionTable.ofList program.members = .ok table := by
  rw [TransitionTable.parse, bind_eq_ok_iff]
  constructor
  · rintro ⟨members, hmembers, htable⟩
    obtain ⟨hseparator, hinstructions, rfl⟩ := parseInstructions_eq_ok_iff.1 hmembers
    exact ⟨hseparator, hinstructions, htable⟩
  · rintro ⟨hseparator, hinstructions, htable⟩
    exact ⟨_, parseInstructions_eq_ok_iff.2 ⟨hseparator, hinstructions, rfl⟩, htable⟩

theorem parse_eq_error_iff :
    TransitionTable.parse program.instructions program.separator = .error failure ↔
      (¬ program.Meets .separator ∧ program.Refused failure .separator) ∨
      (program.Meets .separator ∧ program.Refused failure .instructions) ∨
      (program.Meets .separator ∧ program.Meets .instructions ∧
        program.Refused failure .distinct) := by
  rw [TransitionTable.parse, bind_eq_error_iff, parseInstructions_eq_error_iff, or_assoc]
  refine or_congr_right (or_congr_right ?_)
  constructor
  · rintro ⟨members, hmembers, hfailure⟩
    obtain ⟨hseparator, hinstructions, rfl⟩ := parseInstructions_eq_ok_iff.1 hmembers
    exact ⟨hseparator, hinstructions, TransitionTable.ofList_eq_error_iff.1 hfailure⟩
  · rintro ⟨hseparator, hinstructions, hrefused⟩
    exact ⟨_, parseInstructions_eq_ok_iff.2 ⟨hseparator, hinstructions, rfl⟩,
      TransitionTable.ofList_eq_error_iff.2 hrefused⟩

theorem exists_ofProgram_iff :
    (∃ m, Machine.ofProgram program = .ok m) ↔ ∀ r, program.Meets r := by
  rw [Requirement.forall_iff]
  simp only [Machine.ofProgram, Machine.ofTexts, bind_eq_ok_iff]
  constructor
  · rintro ⟨m, tape, htape, table, htable, hstart⟩
    obtain ⟨hseparator, hinstructions, hlist⟩ := parse_eq_ok_iff.1 htable
    have hinitial := Machine.exists_start_iff.1 ⟨m, hstart⟩
    rw [(TransitionTable.ofList_eq_ok hlist).1] at hinitial
    exact ⟨Tape.exists_ofText_iff.1 ⟨tape, htape⟩, hseparator, hinstructions,
      TransitionTable.exists_ofList_iff.1 ⟨table, hlist⟩, hinitial⟩
  · rintro ⟨htape, hseparator, hinstructions, hdistinct, hinitial⟩
    obtain ⟨tape, htape⟩ := Tape.exists_ofText_iff.2 htape
    obtain ⟨table, hlist⟩ := TransitionTable.exists_ofList_iff.2 hdistinct
    rw [Meets, ← (TransitionTable.ofList_eq_ok hlist).1] at hinitial
    obtain ⟨m, hstart⟩ : ∃ m, Machine.start tape table program.initialId = .ok m :=
      Machine.exists_start_iff.2 hinitial
    exact ⟨m, tape, htape, table, parse_eq_ok_iff.2 ⟨hseparator, hinstructions, hlist⟩, hstart⟩

/-- No more is needed than instructions that can be read, no two of which collide, and
among them one with the initial id. -/
theorem exists_ofProgram_of_parse {members : List Instruction} (htape : TapeForm program.tape)
    (hmembers : parseInstructions program.instructions program.separator = .ok members)
    (hdistinct : members.Pairwise fun a b => ¬ a.Collides b)
    (hinitial : ∃ i ∈ members, i.id.value = program.initialId.value) :
    ∃ m, Machine.ofProgram program = .ok m := by
  obtain ⟨hseparator, hinstructions, rfl⟩ := parseInstructions_eq_ok_iff.1 hmembers
  rw [exists_ofProgram_iff, Requirement.forall_iff]
  exact ⟨htape, hseparator, hinstructions, TransitionTable.exists_ofList_iff.1
    (TransitionTable.exists_ofList_of_pairwise hdistinct), hinitial⟩

theorem firstUnmet_iff {r : Requirement} :
    program.FirstUnmet r ↔ match r with
      | .tape => ¬ program.Meets .tape
      | .separator => program.Meets .tape ∧ ¬ program.Meets .separator
      | .instructions => program.Meets .tape ∧ program.Meets .separator ∧
          ¬ program.Meets .instructions
      | .distinct => program.Meets .tape ∧ program.Meets .separator ∧
          program.Meets .instructions ∧ ¬ program.Meets .distinct
      | .initial => program.Meets .tape ∧ program.Meets .separator ∧
          program.Meets .instructions ∧ program.Meets .distinct ∧ ¬ program.Meets .initial := by
  rw [FirstUnmet, Requirement.forall_iff]
  cases r <;> simp [Requirement.rank, and_assoc]

theorem not_meets_of_refused_instructions (h : program.Refused failure .instructions) :
    ¬ program.Meets .instructions := by
  obtain ⟨segment, ⟨before, after, hsplit, -, hnot⟩, -⟩ := h
  intro hforms
  apply hnot (hforms segment _)
  rw [hsplit]
  exact List.mem_append_right _ List.mem_cons_self

theorem not_meets_of_refused_distinct (h : program.Refused failure .distinct) :
    ¬ program.Meets .distinct := by
  obtain ⟨p, q, a, b, hfirst, -⟩ := h
  intro hdistinct
  exact hdistinct p q hfirst.1

theorem ofProgram_eq_error_iff :
    Machine.ofProgram program = .error failure ↔
      ∃ r, program.FirstUnmet r ∧ program.Refused failure r := by
  simp only [Machine.ofProgram, Machine.ofTexts, bind_eq_error_iff, firstUnmet_iff]
  constructor
  · rintro (htape | ⟨tape, htape, hparse | ⟨table, htable, hstart⟩⟩)
    · exact ⟨.tape, Tape.ofText_eq_error_iff.1 htape⟩
    · have htape := Tape.exists_ofText_iff.1 ⟨tape, htape⟩
      rcases parse_eq_error_iff.1 hparse with
        ⟨hseparator, hrefused⟩ | ⟨hseparator, hrefused⟩ | ⟨hseparator, hinstructions, hrefused⟩
      · exact ⟨.separator, ⟨htape, hseparator⟩, hrefused⟩
      · exact ⟨.instructions,
          ⟨htape, hseparator, not_meets_of_refused_instructions hrefused⟩, hrefused⟩
      · exact ⟨.distinct, ⟨htape, hseparator, hinstructions,
          not_meets_of_refused_distinct hrefused⟩, hrefused⟩
    · have htape := Tape.exists_ofText_iff.1 ⟨tape, htape⟩
      obtain ⟨hseparator, hinstructions, hlist⟩ := parse_eq_ok_iff.1 htable
      have hdistinct := TransitionTable.exists_ofList_iff.1 ⟨table, hlist⟩
      obtain ⟨hinitial, hfailure⟩ := Machine.start_eq_error_iff.1 hstart
      rw [(TransitionTable.ofList_eq_ok hlist).1] at hinitial
      exact ⟨.initial, ⟨htape, hseparator, hinstructions, hdistinct, hinitial⟩, hfailure⟩
  · rintro ⟨r, hunmet, hrefused⟩
    cases r with
    | tape => exact .inl (Tape.ofText_eq_error_iff.2 ⟨hunmet, hrefused⟩)
    | separator =>
        obtain ⟨htape, hseparator⟩ := hunmet
        obtain ⟨tape, htape⟩ := Tape.exists_ofText_iff.2 htape
        exact .inr ⟨tape, htape, .inl (parse_eq_error_iff.2 (.inl ⟨hseparator, hrefused⟩))⟩
    | instructions =>
        obtain ⟨htape, hseparator, -⟩ := hunmet
        obtain ⟨tape, htape⟩ := Tape.exists_ofText_iff.2 htape
        exact .inr ⟨tape, htape,
          .inl (parse_eq_error_iff.2 (.inr (.inl ⟨hseparator, hrefused⟩)))⟩
    | distinct =>
        obtain ⟨htape, hseparator, hinstructions, -⟩ := hunmet
        obtain ⟨tape, htape⟩ := Tape.exists_ofText_iff.2 htape
        exact .inr ⟨tape, htape,
          .inl (parse_eq_error_iff.2 (.inr (.inr ⟨hseparator, hinstructions, hrefused⟩)))⟩
    | initial =>
        obtain ⟨htape, hseparator, hinstructions, hdistinct, hinitial⟩ := hunmet
        obtain ⟨tape, htape⟩ := Tape.exists_ofText_iff.2 htape
        obtain ⟨table, hlist⟩ := TransitionTable.exists_ofList_iff.2 hdistinct
        rw [Meets, ← (TransitionTable.ofList_eq_ok hlist).1] at hinitial
        exact .inr ⟨tape, htape, .inr ⟨table,
          parse_eq_ok_iff.2 ⟨hseparator, hinstructions, hlist⟩,
          Machine.start_eq_error_iff.2 ⟨hinitial, hrefused⟩⟩⟩

/-! ## Loading -/

theorem load_eq_ok_iff {text : String} :
    load text = .ok program ↔
      text.utf8ByteSize ≤ 65536 ∧ ofJson text = .ok program ∧
        ∃ m, Machine.ofProgram program = .ok m := by
  rw [load, programSizeLimit]
  by_cases hsize : 65536 < text.utf8ByteSize
  · simp [hsize]
  · rw [if_neg hsize]
    cases ofJson text with
    | error fault => simp
    | ok read =>
        constructor
        · intro hread
          cases hmachine : Machine.ofProgram read with
          | error failure => simp [hmachine] at hread
          | ok m =>
              simp only [hmachine, Except.ok.injEq] at hread
              subst hread
              exact ⟨Nat.le_of_not_lt hsize, rfl, m, hmachine⟩
        · rintro ⟨-, hread, m, hm⟩
          cases hread
          simp only [hm]

theorem load_eq_error_iff {text : String} :
    load text = .error failure ↔
      (65536 < text.utf8ByteSize ∧ failure = .oversizedProgram text.utf8ByteSize) ∨
      (text.utf8ByteSize ≤ 65536 ∧ ∃ fault, ofJson text = .error fault ∧
        failure = .malformedProgram fault) ∨
      (text.utf8ByteSize ≤ 65536 ∧ ∃ program, ofJson text = .ok program ∧
        Machine.ofProgram program = .error failure) := by
  rw [load, programSizeLimit]
  by_cases hsize : 65536 < text.utf8ByteSize
  · rw [if_pos hsize]
    simp [hsize, eq_comm]
  · rw [if_neg hsize]
    simp only [hsize, Nat.le_of_not_lt hsize, false_and, true_and, false_or]
    cases ofJson text with
    | error fault => simp [eq_comm]
    | ok read => cases hmachine : Machine.ofProgram read <;> simp [hmachine]

end Program

namespace Catalogue

theorem tapeForm : ∀ program ∈ programs, TapeForm program.tape := by
  simp [programs, TapeForm, unaryCounter, unarySuccessor, unaryAddition, unaryPrepend]

theorem exists_ofProgram : ∀ program ∈ programs, ∃ m, Machine.ofProgram program = .ok m := by
  have htape := tapeForm
  simp only [programs, List.forall_mem_cons] at htape ⊢
  obtain ⟨hcounter, hsuccessor, haddition, hprepend, -⟩ := htape
  exact ⟨Program.exists_ofProgram_of_parse hcounter rfl (by decide) (by decide),
    Program.exists_ofProgram_of_parse hsuccessor rfl (by decide) (by decide),
    Program.exists_ofProgram_of_parse haddition rfl (by decide) (by decide),
    Program.exists_ofProgram_of_parse hprepend rfl (by decide) (by decide), nofun⟩

end Catalogue

/-! ## Every verdict -/

theorem construction_decided :
    (∀ program : Program,
      (program.separator ≠ "" →
        Segmented program.instructions program.separator program.segments) ∧
      ((∃ m, Machine.ofProgram program = .ok m) ↔ ∀ r, program.Meets r) ∧
      ∀ failure, Machine.ofProgram program = .error failure ↔
        ∃ r, program.FirstUnmet r ∧ program.Refused failure r) ∧
    ∀ text : String,
      (∀ program, Program.load text = .ok program ↔
        text.utf8ByteSize ≤ 65536 ∧ Program.ofJson text = .ok program ∧
          ∃ m, Machine.ofProgram program = .ok m) ∧
      ∀ failure, Program.load text = .error failure ↔
        (65536 < text.utf8ByteSize ∧ failure = .oversizedProgram text.utf8ByteSize) ∨
        (text.utf8ByteSize ≤ 65536 ∧ ∃ fault, Program.ofJson text = .error fault ∧
          failure = .malformedProgram fault) ∨
        (text.utf8ByteSize ≤ 65536 ∧ ∃ program, Program.ofJson text = .ok program ∧
          Machine.ofProgram program = .error failure) := by
  refine ⟨fun program => ⟨?_, Program.exists_ofProgram_iff, ?_⟩, fun text => ⟨?_, ?_⟩⟩
  · intro hseparator
    exact (segmented_iff hseparator).2 rfl
  · intro failure
    exact Program.ofProgram_eq_error_iff
  · intro program
    exact Program.load_eq_ok_iff
  · intro failure
    exact Program.load_eq_error_iff

end BinaryMachine
