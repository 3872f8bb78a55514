import Mathlib.Data.List.TakeWhile
import BinaryMachine.CommandLine.Run

/-!
# Command lines in full words

Every setting and every switch has a long name.  A command line that spells its
settings as `--name=value` and its switches as `--name` is read word by word, and
what a word says does not depend on the words around it.
-/

namespace BinaryMachine.CommandLine

/-! ## Single words -/

def Setting.name : Setting → String
  | program => "program"
  | builtin => "builtin"
  | tape => "tape"
  | instructions => "instructions"
  | initial => "initial"
  | separator => "separator"
  | maxSteps => "max-steps"

def Switch.name : Switch → String
  | stdin => "stdin"
  | list => "list"
  | debug => "debug"
  | json => "json"
  | verbose => "verbose"

def Item.word : Item → String
  | given setting value => "--" ++ setting.name ++ "=" ++ value
  | on switch => "--" ++ switch.name

theorem Setting.ofLong?_name (setting : Setting) :
    Flag.ofLong? setting.name = some (.setting setting) := by
  cases setting <;> rfl

theorem Switch.ofLong?_name (switch : Switch) :
    Flag.ofLong? switch.name = some (.switch switch) := by
  cases switch <;> rfl

theorem Setting.ne_equals_of_mem_name (setting : Setting) :
    ∀ c ∈ setting.name.toList, (c != '=') = true := by
  cases setting <;> simp [Setting.name]

theorem Switch.ne_equals_of_mem_name (switch : Switch) :
    ∀ c ∈ switch.name.toList, (c != '=') = true := by
  cases switch <;> simp [Switch.name]

theorem readWord?_word (item : Item) : readWord? item.word = some ⟨[item], none⟩ := by
  cases item with
  | given setting value =>
      have hname := setting.ne_equals_of_mem_name
      have htoList : (Item.given setting value).word.toList =
          '-' :: '-' :: (setting.name.toList ++ '=' :: value.toList) := by
        simp [Item.word]
      simp [readWord?, htoList, readLong?, List.takeWhile_append_of_pos hname,
        List.dropWhile_append_of_pos hname, setting.ofLong?_name]
  | on switch =>
      have hname := switch.ne_equals_of_mem_name
      have htoList : (Item.on switch).word.toList = '-' :: '-' :: switch.name.toList := by
        simp [Item.word]
      have htake : switch.name.toList.takeWhile (· != '=') = switch.name.toList :=
        List.takeWhile_eq_self_iff.2 hname
      have hdrop : switch.name.toList.dropWhile (· != '=') = [] :=
        List.dropWhile_eq_nil_iff.2 hname
      simp [readWord?, htoList, readLong?, htake, hdrop, switch.ofLong?_name]

theorem word_ne_dashes (item : Item) : item.word ≠ "--" := by
  intro h
  have hread := readWord?_word item
  rw [h] at hread
  cases hread

/-! ## Lists of words -/

theorem readWords?_words (items : List Item) : readWords? (items.map Item.word) = some items := by
  induction items with
  | nil => rfl
  | cons item items ih =>
      simp [readWords?, word_ne_dashes, readWord?_word, ih]

/-! ## How far a run goes and what it prints -/

def Display.switch? : Display → Option Switch
  | .plain => none
  | .debug => some .debug
  | .json => some .json

def runItems (bound : Option Nat) (display : Display) : List Item :=
  (bound.map fun n => .given .maxSteps (toString n)).toList ++
    (display.switch?.map .on).toList

/-- Items that say nothing about the length of a run and what it prints. -/
def Item.isAside : Item → Bool
  | given setting _ => setting != .maxSteps
  | on switch => switch != .debug && switch != .json

/-- All the values that are given to one setting. -/
def valuesOf (items : List Item) (setting : Setting) : List String :=
  items.filterMap fun
    | .given other value => if other = setting then some value else none
    | .on _ => none

/-- A setting has at most one value. -/
def atMostOne? : List String → Option (Option String)
  | [] => some none
  | [value] => some (some value)
  | _ => none

theorem valueOf?_eq (items : List Item) (setting : Setting) :
    valueOf? items setting = atMostOne? (valuesOf items setting) := rfl

theorem valuesOf_append (items items' : List Item) (setting : Setting) :
    valuesOf (items ++ items') setting = valuesOf items setting ++ valuesOf items' setting := by
  simp [valuesOf]

theorem valuesOf_runItems (bound : Option Nat) (display : Display) (setting : Setting) :
    valuesOf (runItems bound display) setting =
      if setting = .maxSteps then (bound.map toString).toList else [] := by
  cases bound <;> cases display <;> cases setting <;> rfl

theorem valuesOf_maxSteps {items : List Item} (h : ∀ item ∈ items, item.isAside = true) :
    valuesOf items .maxSteps = [] := by
  rw [valuesOf, List.filterMap_eq_nil_iff]
  intro item hitem
  have hitem := h item hitem
  cases item with
  | given setting value => cases setting <;> simp_all [Item.isAside]
  | on switch => rfl

theorem count_eq_zero {items : List Item} (h : ∀ item ∈ items, item.isAside = true)
    {switch : Switch} (hswitch : (Item.on switch).isAside = false) :
    items.count (.on switch) = 0 := by
  rw [List.count_eq_zero]
  intro hmem
  simp [h _ hmem] at hswitch

theorem readCount?_toString {n : Nat} (h : n < UInt64.size) : readCount? (toString n) = some n := by
  have hdigits : (toString n).toList = Nat.toDigits 10 n := by
    simp [toString, Nat.repr]
  have hall : (Nat.toDigits 10 n).all Char.isDigit = true := by
    rw [List.all_eq_true]
    exact fun c hc => Nat.isDigit_of_mem_toDigits (by decide) (by decide) hc
  rw [readCount?, hdigits]
  split
  · next rest hplus =>
      rw [hplus] at hall
      cases hall
  · simp [Nat.toDigits_ne_nil, hall, h]

theorem valueOf?_append_runItems (items : List Item) (bound : Option Nat) (display : Display)
    {setting : Setting} (hsetting : setting ≠ .maxSteps) :
    valueOf? (items ++ runItems bound display) setting = valueOf? items setting := by
  simp [valueOf?_eq, valuesOf_append, valuesOf_runItems, hsetting]

theorem maxSteps_append_runItems {items : List Item} (h : ∀ item ∈ items, item.isAside = true)
    {bound : Option Nat} (hbound : ∀ n ∈ bound, n < UInt64.size) (display : Display) :
    (valueOf? (items ++ runItems bound display) .maxSteps).bind (readValue? readCount?) =
      some bound := by
  rw [valueOf?_eq, valuesOf_append, valuesOf_maxSteps h, valuesOf_runItems]
  cases bound with
  | none => rfl
  | some n => simpa [atMostOne?, readValue?] using readCount?_toString (hbound n rfl)

theorem isOn?_append_runItems (items : List Item) (bound : Option Nat) (display : Display)
    (switch : Switch) (h : (Item.on switch).isAside = true) :
    isOn? (items ++ runItems bound display) switch = isOn? items switch := by
  have hcount : (runItems bound display).count (.on switch) = 0 := by
    rw [List.count_eq_zero]
    cases bound <;> cases display <;> cases switch <;>
      simp_all [runItems, Display.switch?, Item.isAside]
  rw [isOn?, List.count_append, hcount]
  rfl

theorem isOn?_runItems {items : List Item} (h : ∀ item ∈ items, item.isAside = true)
    (bound : Option Nat) (display : Display) {switch : Switch}
    (hswitch : (Item.on switch).isAside = false) :
    isOn? (items ++ runItems bound display) switch = some (display.switch? == some switch) := by
  rw [isOn?, List.count_append, count_eq_zero h hswitch]
  cases bound <;> cases display <;> cases switch <;> rfl

theorem ofItems?_eq_some_iff {items : List Item} {o : Options} :
    Options.ofItems? items = some o ↔
      valueOf? items .program = some o.program ∧
      valueOf? items .builtin = some o.builtin ∧
      valueOf? items .tape = some o.tape ∧
      valueOf? items .instructions = some o.instructions ∧
      (valueOf? items .initial).bind (readValue? StateId.ofText?) = some o.initial ∧
      valueOf? items .separator = some o.separator ∧
      (valueOf? items .maxSteps).bind (readValue? readCount?) = some o.maxSteps ∧
      isOn? items .stdin = some o.stdin ∧ isOn? items .list = some o.list ∧
      isOn? items .debug = some o.debug ∧ isOn? items .json = some o.json := by
  constructor
  · intro h
    simp only [Options.ofItems?, Option.bind_eq_bind, Option.bind_eq_some_iff, Option.pure_def,
      Option.some.injEq] at h
    obtain ⟨_, hprogram, _, hbuiltin, _, htape, _, hinstructions, _, hinitial, _, hid, _,
      hseparator, _, hmaxSteps, _, hcount, _, hstdin, _, hlist, _, hdebug, _, hjson, rfl⟩ := h
    rw [hinitial, hmaxSteps]
    exact ⟨hprogram, hbuiltin, htape, hinstructions, hid, hseparator, hcount, hstdin, hlist,
      hdebug, hjson⟩
  · rintro ⟨hprogram, hbuiltin, htape, hinstructions, hid, hseparator, hcount, hstdin, hlist,
      hdebug, hjson⟩
    obtain ⟨_, hinitial, hid⟩ := Option.bind_eq_some_iff.1 hid
    obtain ⟨_, hmaxSteps, hcount⟩ := Option.bind_eq_some_iff.1 hcount
    simp [Options.ofItems?, hprogram, hbuiltin, htape, hinstructions, hinitial, hid, hseparator,
      hmaxSteps, hcount, hstdin, hlist, hdebug, hjson]

/-- The options with these in place of what they say about the run. -/
def Options.withRun (o : Options) (bound : Option Nat) (display : Display) : Options :=
  { o with
    maxSteps := bound
    debug := display == .debug
    json := display == .json }

/-- Items on the side are read as they are without the others. -/
theorem ofItems?_append_runItems {items : List Item} (h : ∀ item ∈ items, item.isAside = true)
    {bound : Option Nat} (hbound : ∀ n ∈ bound, n < UInt64.size) (display : Display) {o : Options}
    (ho : Options.ofItems? items = some o) :
    Options.ofItems? (items ++ runItems bound display) = some (o.withRun bound display) := by
  rw [ofItems?_eq_some_iff] at ho ⊢
  obtain ⟨hprogram, hbuiltin, htape, hinstructions, hid, hseparator, -, hstdin, hlist, -, -⟩ := ho
  have hdebug : isOn? (items ++ runItems bound display) .debug = some (display == .debug) := by
    rw [isOn?_runItems h bound display rfl]
    cases display <;> rfl
  have hjson : isOn? (items ++ runItems bound display) .json = some (display == .json) := by
    rw [isOn?_runItems h bound display rfl]
    cases display <;> rfl
  have hstdin' := isOn?_append_runItems items bound display .stdin rfl
  have hlist' := isOn?_append_runItems items bound display .list rfl
  simp [Options.withRun, valueOf?_append_runItems, maxSteps_append_runItems h hbound, *]

/-! ## The request -/

/-- The items name this source and say nothing of the run. -/
structure Names (items : List Item) (source : Source) : Prop where
  aside : ∀ item ∈ items, item.isAside = true
  options : ∃ o, Options.ofItems? items = some o ∧ o.isConsistent = true ∧ o.list = false ∧
    o.source? = some source

/-- What names the source, and then how far the run goes and what it prints. -/
def commandLine (items : List Item) (bound : Option Nat) (display : Display) : List String :=
  (items ++ runItems bound display).map Item.word

theorem Names.readRequest?_eq {items : List Item} {source : Source} (h : Names items source)
    {bound : Option Nat} (hbound : ∀ n ∈ bound, n < UInt64.size) (display : Display)
    (hne : items ++ runItems bound display ≠ []) :
    readRequest? (commandLine items bound display) =
      some (.run source (bound.getD defaultBound) display) := by
  obtain ⟨o, ho, hconsistent, hlist, hsource⟩ := h.options
  have hone : (o.withRun bound display).isConsistent = true := by
    cases display <;> simp_all [Options.isConsistent, Options.withRun]
  have hrequest : (o.withRun bound display).request? =
      some (.run source (bound.getD defaultBound) display) := by
    have hkept : (o.withRun bound display).source? = some source := hsource
    rw [Options.request?, hkept]
    cases display <;> simp [Options.withRun, Options.display, hlist]
  rw [readRequest?, commandLine, readWords?_words]
  simpa [ofItems?_append_runItems h.aside hbound display ho, hone, hrequest] using hne

theorem output_run_eq (source : Source) (bound : Nat) (display : Display) (env : Environment) :
    Request.output (.run source bound display) env =
      (source.load env >>= Machine.ofProgram).map fun m =>
        printRun (m.run bound).1 (m.run bound).2 display := by
  simp only [Request.output]
  cases source.load env with
  | error failure => rfl
  | ok program =>
      cases hmachine : Machine.ofProgram program with
      | error failure => simp [hmachine, bind, Except.bind, Except.map]
      | ok m => simp [hmachine, bind, Except.bind, Except.map, pure, Except.pure]

end BinaryMachine.CommandLine
