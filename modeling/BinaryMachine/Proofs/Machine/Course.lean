import BinaryMachine.Proofs.Machine.BoundedRun
import BinaryMachine.Proofs.Machine.Construction
import BinaryMachine.Proofs.Machine.Executions
import BinaryMachine.Proofs.Tape.Content

/-!
# Courses over a strip of symbols

A strip is a tape as it is written down: what stands on the left of the head, under it
and on its right.  A course is a number of instructions that are executed one after
another on strips.  A machine follows every course of its table, so what a program does
to all of its inputs can be told from strips alone.
-/

namespace BinaryMachine

/-! ## Strips -/

/-- The symbols on the left are given from the head on. -/
structure Strip where
  left : List Symbol
  here : Symbol
  right : List Symbol
  deriving DecidableEq, Repr

namespace Strip

def symbols (strip : Strip) : List Symbol :=
  strip.left.reverse ++ strip.here :: strip.right

def text (strip : Strip) : String :=
  String.ofList (strip.symbols.map Symbol.char)

/-- The head stands on the first of `rest`, or behind the end on a blank. -/
def before (left : List Symbol) : List Symbol → Strip
  | [] => ⟨left, .zero, []⟩
  | symbol :: rest => ⟨left, symbol, rest⟩

def act (strip : Strip) : Action → Strip
  | .write symbol => { strip with here := symbol }
  | .move .left =>
      match strip.left with
      | [] => ⟨[], .zero, strip.here :: strip.right⟩
      | symbol :: left => ⟨left, symbol, strip.here :: strip.right⟩
  | .move .right => before (strip.here :: strip.left) strip.right

theorem getElem?_symbols (strip : Strip) :
    strip.symbols[strip.left.length]? = some strip.here := by
  simp [symbols]

theorem onText_act (strip : Strip) (action : Action) :
    action.onText (strip.symbols.map Symbol.char, strip.left.length) =
      ((strip.act action).symbols.map Symbol.char, (strip.act action).left.length) := by
  rcases strip with ⟨left, here, right⟩
  cases action with
  | write symbol => simp [Action.onText, act, symbols]
  | move d =>
      cases d with
      | left => cases left <;> simp [Action.onText, act, symbols]
      | right => cases right <;> simp [Action.onText, act, symbols, before]

end Strip

theorem Line.symbols_ofSymbols (symbols : List Symbol) :
    (Line.ofSymbols symbols).symbols = (Strip.before [] symbols).symbols := by
  cases symbols with
  | nil => rfl
  | cons symbol rest =>
      rw [symbols_ofSymbols_of_ne_nil (List.cons_ne_nil symbol rest)]
      rfl

/-! ## Courses -/

/-- So many instructions lead from one state and strip to another state and strip. -/
inductive Course (lookup : StateId → Symbol → Option Instruction) :
    StateId → Strip → Nat → StateId → Strip → Prop
  | done {id : StateId} {strip : Strip} : Course lookup id strip 0 id strip
  | step {id id' : StateId} {strip strip' : Strip} {i : Instruction} {n : Nat}
      (hlookup : lookup id strip.here = some i)
      (hcourse : Course lookup i.next (strip.act i.action) n id' strip') :
      Course lookup id strip (n + 1) id' strip'

namespace Course

variable {lookup : StateId → Symbol → Option Instruction} {id id' id'' : StateId}
  {strip strip' strip'' : Strip} {k n : Nat}

theorem trans (h : Course lookup id strip k id' strip')
    (h' : Course lookup id' strip' n id'' strip'') :
    Course lookup id strip (k + n) id'' strip'' := by
  induction h with
  | done => simpa using h'
  | step hlookup _ ih =>
      rw [Nat.add_right_comm]
      exact .step hlookup (ih h')

/-- An instruction that moves to the right and keeps its state passes over a run of its symbol. -/
theorem sweep {symbol : Symbol} {i : Instruction} (hlookup : lookup id symbol = some i)
    (haction : i.action = .move .right) (hnext : i.next = id) (rest : List Symbol) (n : Nat) :
    ∀ left, Course lookup id (.before left (List.replicate n symbol ++ rest)) n id
      (.before (List.replicate n symbol ++ left) rest) := by
  induction n with
  | zero =>
      intro left
      exact .done
  | succ n ih =>
      intro left
      have hmoved : (Strip.before left (List.replicate (n + 1) symbol ++ rest)).act i.action =
          .before (symbol :: left) (List.replicate n symbol ++ rest) := by
        rw [haction]
        rfl
      refine .step hlookup ?_
      rw [hmoved, hnext, List.replicate_succ', List.append_assoc]
      exact ih (symbol :: left)

/-- An instruction that changes nothing is executed over and over. -/
theorem idle {i : Instruction} (hlookup : lookup id strip.here = some i)
    (haction : strip.act i.action = strip) (hnext : i.next = id) (n : Nat) :
    Course lookup id strip n id strip := by
  induction n with
  | zero => exact .done
  | succ n ih =>
      refine .step hlookup ?_
      rw [haction, hnext]
      exact ih

end Course

namespace Machine

variable {m m' : Machine} {id id' : StateId} {strip strip' : Strip} {i : Instruction} {n : Nat}

/-! ## Machines on a course -/

theorem Executes.tracks (h : m.Executes i m') {line : Line} {p : Int} (htracks : m.Tracks line p) :
    m'.Tracks (line.act p i.action).1 (line.act p i.action).2 := by
  rcases htracks.execute i with ⟨place, hlayout, hhead⟩
  refine ⟨place, ?_, ?_⟩
  · rw [h.tape_eq]
    exact hlayout
  · rw [h.tape_eq, h.head_eq]
    exact hhead

theorem Executes.onText (h : m.Executes i m') {line : Line} {p : Int} (htracks : m.Tracks line p) :
    i.action.onText (m.tapeText.toList, m.headIndex) = (m'.tapeText.toList, m'.headIndex) := by
  rw [htracks.onText_execute i, tapeText, headIndex, tapeText, headIndex, h.tape_eq, h.head_eq]
  rfl

/-- What the machine shows is the strip, and it executes what is found for the state. -/
structure At (m : Machine) (id : StateId) (strip : Strip) : Prop where
  tracks : ∃ line p, m.Tracks line p
  tapeText_eq : m.tapeText = strip.text
  headIndex_eq : m.headIndex = strip.left.length
  pending_eq : m.pending = m.table.find? id strip.here

/-- The symbol under the head is the one that is shown there. -/
theorem Tracks.read_eq_here {line : Line} {p : Int} (h : m.Tracks line p)
    (htext : m.tapeText = strip.text)
    (hindex : m.headIndex = strip.left.length) : m.head.read m.tape = strip.here := by
  have hread := h.getElem?_tapeText
  rw [htext, hindex, Strip.text, String.toList_ofList, List.getElem?_map,
    strip.getElem?_symbols, Option.map_some, Option.some.injEq] at hread
  exact (Symbol.char_injective hread).symm

theorem At.next (h : m.At id strip) (hi : m.table.find? id strip.here = some i) :
    m.next.At i.next (strip.act i.action) := by
  rcases h.tracks with ⟨line, p, htracks⟩
  have hexecutes := next_executes (h.pending_eq.trans hi)
  have hacted := hexecutes.onText htracks
  rw [h.tapeText_eq, h.headIndex_eq, Strip.text, String.toList_ofList, strip.onText_act,
    Prod.mk.injEq] at hacted
  have htracked := hexecutes.tracks htracks
  have htext : m.next.tapeText = (strip.act i.action).text := by
    rw [Strip.text, hacted.1, String.ofList_toList]
  refine ⟨⟨_, _, htracked⟩, htext, hacted.2.symm, ?_⟩
  rw [hexecutes.pending_eq, table_next, htracked.read_eq_here htext hacted.2.symm]

theorem At.after (h : m.At id strip) (hcourse : Course m.table.find? id strip n id' strip') :
    (m.after n).At id' strip' ∧ ∀ k < n, (m.after k).pending ≠ none := by
  generalize hlookup : m.table.find? = lookup at hcourse
  induction hcourse generalizing m with
  | done => exact ⟨h, by simp⟩
  | step hfound _ ih =>
      subst hlookup
      have hnext := ih (h.next hfound) (by rw [table_next])
      constructor
      · rw [after_succ]
        exact hnext.1
      · intro k hk
        cases k with
        | zero =>
            rw [Machine.after, h.pending_eq, hfound]
            exact Option.some_ne_none _
        | succ k =>
            rw [after_succ]
            exact hnext.2 k (Nat.lt_of_succ_lt_succ hk)

/-! ## Where courses end -/

/-- The machine halts in its `n`-th step and not before, and leaves this text and index. -/
structure HaltsAfter (m : Machine) (n : Nat) (text : String) (index : Nat) : Prop where
  before : ∀ k < n, (m.run k).2 = .proceed ∧ (m.run k).1.status = .running
  halt : ∀ bound, n ≤ bound → (m.run bound).2 = .halt ∧ (m.run bound).1.status = .halted
  steps_eq : ∀ bound, n ≤ bound → (m.run bound).1.steps = n
  tapeText_eq : ∀ bound, n ≤ bound → (m.run bound).1.tapeText = text
  headIndex_eq : ∀ bound, n ≤ bound → (m.run bound).1.headIndex = index

/-- After `n` steps the machine still runs, and it shows this text and index. -/
structure RunsFor (m : Machine) (n : Nat) (text : String) (index : Nat) : Prop where
  proceed : (m.run n).2 = .proceed
  running : (m.run n).1.status = .running
  steps_eq : (m.run n).1.steps = n
  tapeText_eq : (m.run n).1.tapeText = text
  headIndex_eq : (m.run n).1.headIndex = index

theorem At.runsFor (h : m.At id strip) (hsteps : m.steps = 0)
    (hcourse : Course m.table.find? id strip n id' strip')
    (hgoes : m.table.find? id' strip'.here ≠ none) :
    m.RunsFor n strip'.text strip'.left.length := by
  rcases h.after hcourse with ⟨hat, hpending⟩
  have hrunning : (m.after n).status = .running := by
    apply status_of_pending
    rwa [hat.pending_eq, table_after]
  have hrun : m.run n = (m.after n, .proceed) := by
    rw [run_eq, report_eq_proceed_iff.2 hrunning]
  constructor
  case proceed => rw [hrun]
  case running => rwa [hrun]
  case steps_eq => rw [hrun, steps_after_of_pending hpending, hsteps, Nat.zero_add]
  case tapeText_eq => rw [hrun, hat.tapeText_eq]
  case headIndex_eq => rw [hrun, hat.headIndex_eq]

theorem At.haltsAfter (h : m.At id strip) (hsteps : m.steps = 0)
    (hcourse : Course m.table.find? id strip (n + 1) id' strip')
    (hend : m.table.find? id' strip'.here = none) :
    m.HaltsAfter (n + 1) strip'.text strip'.left.length := by
  rcases h.after hcourse with ⟨hat, hpending⟩
  have hnone : (m.after (n + 1)).pending = none := by
    rw [hat.pending_eq, table_after, hend]
  have hhalted : (m.after (n + 1)).status = .halted := by
    cases hstatus : (m.after (n + 1)).status with
    | halted => rfl
    | running => exact absurd hnone (pending_next_ne_none hstatus)
  have hrun : ∀ bound, n + 1 ≤ bound → m.run bound = (m.after (n + 1), .halt) := by
    intro bound hle
    rcases Nat.exists_eq_add_of_le hle with ⟨more, rfl⟩
    rw [run_eq, after_add, after_of_halted hhalted, report_eq_halt_iff.2 hhalted]
  constructor
  case before =>
    intro k hk
    have hstatus : (m.after k).status = .running := status_of_pending (hpending k hk)
    rw [run_eq]
    exact ⟨report_eq_proceed_iff.2 hstatus, hstatus⟩
  case halt =>
    intro bound hle
    rw [hrun bound hle]
    exact ⟨rfl, hhalted⟩
  case steps_eq =>
    intro bound hle
    rw [hrun bound hle, steps_after_of_pending hpending, hsteps, Nat.zero_add]
  case tapeText_eq =>
    intro bound hle
    rw [hrun bound hle, hat.tapeText_eq]
  case headIndex_eq =>
    intro bound hle
    rw [hrun bound hle, hat.headIndex_eq]

theorem at_of_start {symbols : List Symbol} {table : TransitionTable}
    (hm : start (Tape.ofSymbols symbols) table id = .ok m) : m.At id (.before [] symbols) := by
  have hstart := (start_eq_ok hm).2
  have htracks : m.Tracks (Line.ofSymbols symbols) 0 := by
    rcases Tape.Layout.ofSymbols symbols with ⟨place, hlayout⟩
    rw [hstart]
    exact ⟨place, hlayout, hlayout.atRoot⟩
  have htext : m.tapeText = (Strip.before [] symbols).text := by
    simp only [htracks.tapeText_eq, Line.text, Line.symbols_ofSymbols, Strip.text]
  have hindex : m.headIndex = (Strip.before [] symbols).left.length := by
    rw [htracks.headIndex_eq_toNat]
    cases symbols <;> rfl
  have hread : (Head.atRoot (Tape.ofSymbols symbols)).read (Tape.ofSymbols symbols) =
      m.head.read m.tape := by
    rw [hstart]
  refine ⟨⟨_, _, htracks⟩, htext, hindex, ?_⟩
  rw [pending_of_start hm, table_of_start hm, hread, htracks.read_eq_here htext hindex]

/-- A program whose instructions can be read starts on its content with its initial id. -/
theorem exists_at_of_parse {program : Program} {members : List Instruction}
    {symbols : List Symbol} (htape : program.tape.toList = symbols.map Symbol.char)
    (hmembers : parseInstructions program.instructions program.separator = .ok members)
    (hdistinct : members.Pairwise fun a b => ¬ a.Collides b)
    (hinitial : ∃ i ∈ members, i.id.value = program.initialId.value) :
    ∃ m, ofProgram program = .ok m ∧ m.table.members = members ∧ m.steps = 0 ∧
      m.At program.initialId (.before [] symbols) := by
  rcases TransitionTable.exists_ofList_of_pairwise hdistinct with ⟨table, htable⟩
  have hlist := (TransitionTable.ofList_eq_ok htable).1
  have hparse : TransitionTable.parse program.instructions program.separator = .ok table := by
    rw [TransitionTable.parse, hmembers]
    exact htable
  rw [← hlist] at hinitial
  obtain ⟨m, hm⟩ := (@exists_start_iff (Tape.ofSymbols symbols)).2 hinitial
  refine ⟨m, ?_, ?_, steps_of_start hm, ?_⟩
  · simp [ofProgram, ofTexts, Tape.ofText_eq_ofSymbols htape, hparse, hm, bind, Except.bind]
  · rw [table_of_start hm, hlist]
  · exact at_of_start hm

end Machine

end BinaryMachine
