import BinaryMachine.Proofs.CommandLine.Words

/-!
# What a command line asks for

What is asked for depends on the settings and switches that are found among the
words, and not on the order in which they stand.  One source is chosen and no
other, and a setting that is not given has a value all the same.
-/

namespace BinaryMachine.CommandLine

variable {items : List Item}

/-! ## Settings and switches among the items -/

theorem mem_valuesOf {setting : Setting} {value : String} :
    value ∈ valuesOf items setting ↔ .given setting value ∈ items := by
  rw [valuesOf, List.mem_filterMap]
  constructor
  · rintro ⟨item, hitem, hvalue⟩
    cases item with
    | given other found =>
        by_cases hother : other = setting
        · simp_all
        · simp [hother] at hvalue
    | on switch => cases hvalue
  · intro h
    exact ⟨_, h, by simp⟩

theorem given_mem_iff {setting : Setting} {found : Option String}
    (h : valueOf? items setting = some found) (value : String) :
    .given setting value ∈ items ↔ found = some value := by
  rw [valueOf?_eq] at h
  rw [← mem_valuesOf]
  generalize valuesOf items setting = values at h
  cases values with
  | nil =>
      cases h
      simp
  | cons first rest =>
      cases rest with
      | nil =>
          cases h
          simp [eq_comm]
      | cons second rest => cases h

theorem on_mem_iff {switch : Switch} {b : Bool} (h : isOn? items switch = some b) :
    .on switch ∈ items ↔ b = true := by
  rw [← List.count_pos_iff]
  rw [isOn?] at h
  split at h <;> simp_all

section Values

variable {α : Type} {setting : Setting} {read : String → Option α} {found : Option α}

theorem read_given_iff (h : (valueOf? items setting).bind (readValue? read) = some found)
    (value : α) :
    (∃ text, .given setting text ∈ items ∧ read text = some value) ↔ found = some value := by
  obtain ⟨text, htext, hread⟩ := Option.bind_eq_some_iff.1 h
  simp only [given_mem_iff htext]
  cases text with
  | none => simp_all [readValue?, eq_comm]
  | some text =>
      obtain ⟨_, hvalue, rfl⟩ := Option.map_eq_some_iff.1 hread
      simp [hvalue]

theorem not_given_iff (h : (valueOf? items setting).bind (readValue? read) = some found) :
    (∀ text, .given setting text ∉ items) ↔ found = none := by
  obtain ⟨text, htext, hread⟩ := Option.bind_eq_some_iff.1 h
  simp only [given_mem_iff htext]
  cases text with
  | none => simp_all [readValue?, eq_comm]
  | some text =>
      obtain ⟨_, hvalue, rfl⟩ := Option.map_eq_some_iff.1 hread
      simp

/-- The value of a setting as it is read if it is given, and else the default. -/
def HasValue (items : List Item) (setting : Setting) (read : String → Option α)
    (default value : α) : Prop :=
  (∃ text, .given setting text ∈ items ∧ read text = some value) ∨
    (∀ text, .given setting text ∉ items) ∧ value = default

theorem hasValue_iff (h : (valueOf? items setting).bind (readValue? read) = some found)
    (default value : α) :
    HasValue items setting read default value ↔ value = found.getD default := by
  rw [HasValue, read_given_iff h, not_given_iff h]
  cases found <;> simp [eq_comm]

theorem bind_readValue?_some {found : Option String} (h : valueOf? items setting = some found) :
    (valueOf? items setting).bind (readValue? some) = some found := by
  cases found <;> simp [h, readValue?]

end Values

/-! ## The source -/

/-- The program that the settings spell out. -/
structure Spells (items : List Item) (program : Program) : Prop where
  name : program.name = "command line"
  instructions : .given .instructions program.instructions ∈ items
  initialId : ∃ text, .given .initial text ∈ items ∧ StateId.ofText? text = some program.initialId
  tape : HasValue items .tape some "" program.tape
  separator : HasValue items .separator some (inferSeparator program.instructions)
    program.separator

def Item.namesSource : Item → Bool
  | given setting _ => setting == .program || setting == .builtin || setting == .instructions
  | on switch => switch == .stdin

inductive Chooses (items : List Item) : Source → Prop
  | file {path : String} (h : .given .program path ∈ items) : Chooses items (.file path)
  | input (h : .on .stdin ∈ items) : Chooses items .input
  | builtin {name : String} (h : .given .builtin name ∈ items) : Chooses items (.builtin name)
  | inline {program : Program} (h : Spells items program) : Chooses items (.inline program)
  | unnamed (h : ∀ item ∈ items, item.namesSource = false) : Chooses items .unnamed

variable {o : Options}

theorem spells_iff (ho : Options.ofItems? items = some o) {program : Program} :
    Spells items program ↔ ∃ instructions initialId,
      o.instructions = some instructions ∧ o.initial = some initialId ∧
      program = {
        name := "command line"
        tape := o.tape.getD ""
        instructions
        initialId
        separator := o.separator.getD (inferSeparator instructions) } := by
  obtain ⟨-, -, htape, hinstructions, hid, hseparator, -⟩ := ofItems?_eq_some_iff.1 ho
  have htape := hasValue_iff (bind_readValue?_some htape) ""
  have hseparator := hasValue_iff (bind_readValue?_some hseparator)
  constructor
  · rintro ⟨hname, hinst, hinitial, ht, hs⟩
    refine ⟨program.instructions, program.initialId, (given_mem_iff hinstructions _).1 hinst,
      (read_given_iff hid _).1 hinitial, ?_⟩
    cases program
    simp_all
  · rintro ⟨instructions, initialId, hinst, hinitial, rfl⟩
    exact ⟨rfl, (given_mem_iff hinstructions _).2 hinst, (read_given_iff hid _).2 hinitial,
      (htape _).2 rfl, (hseparator _ _).2 rfl⟩

theorem names_nothing_iff (ho : Options.ofItems? items = some o) :
    (∀ item ∈ items, item.namesSource = false) ↔
      o.program = none ∧ o.stdin = false ∧ o.builtin = none ∧ o.instructions = none := by
  obtain ⟨hprogram, hbuiltin, -, hinstructions, -, -, -, hstdin, -⟩ := ofItems?_eq_some_iff.1 ho
  rw [← not_given_iff (bind_readValue?_some hprogram),
    ← not_given_iff (bind_readValue?_some hbuiltin),
    ← not_given_iff (bind_readValue?_some hinstructions), ← Bool.not_eq_true, ← on_mem_iff hstdin]
  constructor
  · intro h
    refine ⟨fun _ hmem => ?_, fun hmem => ?_, fun _ hmem => ?_, fun _ hmem => ?_⟩ <;>
      cases h _ hmem
  · rintro ⟨hprogram, hstdin, hbuiltin, hinstructions⟩ item hitem
    rcases item with ⟨setting, text⟩ | switch
    · cases setting <;> simp_all [Item.namesSource]
    · cases switch <;> simp_all [Item.namesSource]

/-- At most one source is named. -/
theorem Options.isConsistent_iff : o.isConsistent = true ↔
    (o.program = none ∨ o.stdin = false ∧ o.builtin = none ∧ o.instructions = none) ∧
    (o.stdin = false ∨ o.builtin = none ∧ o.instructions = none) ∧
    (o.builtin = none ∨ o.instructions = none) ∧ (o.debug = false ∨ o.json = false) := by
  rw [isConsistent]
  cases o.program <;> cases o.stdin <;> cases o.builtin <;> cases o.instructions <;> simp

theorem chooses_iff (ho : Options.ofItems? items = some o) (hone : o.isConsistent = true)
    (source : Source) : Chooses items source ↔ o.source? = some source := by
  have hspells := @spells_iff _ _ ho
  have hnothing := names_nothing_iff ho
  obtain ⟨hprogram, hbuiltin, -, -, -, -, -, hstdin, -⟩ := ofItems?_eq_some_iff.1 ho
  have hprogram := given_mem_iff hprogram
  have hbuiltin := given_mem_iff hbuiltin
  have hstdin := on_mem_iff hstdin
  obtain ⟨hp, hs, hb, -⟩ := Options.isConsistent_iff.1 hone
  constructor
  · rintro (hmem | hmem | hmem | hspelled | hnone)
    · rw [Options.source?, (hprogram _).1 hmem]
    · have hgiven := hstdin.1 hmem
      simp_all [Options.source?]
    · have hgiven := (hbuiltin _).1 hmem
      simp_all [Options.source?]
    · obtain ⟨instructions, initialId, hgiven, hinitial, rfl⟩ := hspells.1 hspelled
      simp_all [Options.source?]
    · obtain ⟨hnoProgram, hnoStdin, hnoBuiltin, hnoInstructions⟩ := hnothing.1 hnone
      simp [Options.source?, hnoProgram, hnoStdin, hnoBuiltin, hnoInstructions]
  · intro h
    rw [Options.source?] at h
    split at h
    · cases h
      exact .file ((hprogram _).2 ‹_›)
    · cases h
      exact .input (hstdin.2 ‹_›)
    · cases h
      exact .builtin ((hbuiltin _).2 ‹_›)
    · obtain ⟨initialId, hinitial, rfl⟩ := Option.map_eq_some_iff.1 h
      exact .inline (hspells.2 ⟨_, _, ‹_›, hinitial, rfl⟩)
    · cases h
      exact .unnamed (hnothing.2 ⟨‹_›, ‹_›, ‹_›, ‹_›⟩)

/-! ## The request -/

theorem Options.display_eq_debug_iff (hone : o.isConsistent = true) :
    o.display = .debug ↔ o.debug = true := by
  obtain ⟨-, -, -, hform⟩ := isConsistent_iff.1 hone
  rw [display]
  cases hjson : o.json <;> cases hdebug : o.debug <;> simp_all

theorem Options.display_eq_json_iff : o.display = .json ↔ o.json = true := by
  rw [display]
  cases o.json <;> cases o.debug <;> simp

inductive Says (items : List Item) : Request → Prop
  | list (hlist : .on .list ∈ items) : Says items .list
  | run {source : Source} {bound : Nat} {display : Display} (hlist : .on .list ∉ items)
      (hsource : ∀ other, Chooses items other ↔ other = source)
      (hbound : HasValue items .maxSteps readCount? 10000 bound)
      (hdebug : display = .debug ↔ .on .debug ∈ items)
      (hjson : display = .json ↔ .on .json ∈ items) : Says items (.run source bound display)

theorem Options.says (ho : Options.ofItems? items = some o) (hone : o.isConsistent = true)
    {request : Request} (h : o.request? = some request) : Says items request := by
  obtain ⟨source, hsource, hrequest⟩ := Option.bind_eq_some_iff.1 h
  obtain ⟨-, -, -, -, -, -, hbound, -, hlist, hdebug, hjson⟩ := ofItems?_eq_some_iff.1 ho
  have hlist := on_mem_iff hlist
  cases hlisted : o.list with
  | true =>
      rw [hlisted] at hrequest
      cases hrequest
      exact .list (hlist.2 hlisted)
  | false =>
      rw [hlisted] at hrequest
      cases hrequest
      refine .run (by simp [hlist, hlisted]) ?_ ((hasValue_iff hbound _ _).2 rfl) ?_ ?_
      · intro other
        rw [chooses_iff ho hone, hsource, Option.some_inj, eq_comm]
      · rw [display_eq_debug_iff hone, on_mem_iff hdebug]
      · rw [display_eq_json_iff, on_mem_iff hjson]

theorem says_of_readRequest? {words : List String} {request : Request}
    (h : readRequest? words = some request) :
    ∃ items, readWords? words = some items ∧ Says items request := by
  obtain ⟨items, hitems, h⟩ := Option.bind_eq_some_iff.1 h
  obtain ⟨o, ho, h⟩ := Option.bind_eq_some_iff.1 h
  obtain ⟨haccepted, hrequest⟩ := Option.ite_none_left_eq_some.1 h
  have hone : o.isConsistent = true := by
    simp_all
  exact ⟨items, hitems, Options.says ho hone hrequest⟩

end BinaryMachine.CommandLine
