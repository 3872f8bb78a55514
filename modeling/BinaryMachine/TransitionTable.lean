import Std.Data.HashMap
import BinaryMachine.Encoding

/-!
Transition tables: lists of instructions in which no two apply in the same
situation.  A table is built in one pass that fills a hash index and remembers
the first collision in the order of a pairwise scan.  The main statements say
that the index finds what a scan of the list finds and that a list without
collisions is exactly what is accepted.
-/

namespace BinaryMachine

structure TransitionTable where
  members : List Instruction
  index : Std.HashMap TransitionKey (Nat × Instruction)
  index_eq : ∀ key, (index[key]?).map Prod.snd = members.find? fun i => i.key == key
  distinct : members.Pairwise fun a b => ¬ a.Collides b

namespace TransitionTable

/-! ## Building a table -/

/-- The instructions seen so far: how many there were, the first of every key
with its position, and the colliding pair whose first member stands earliest,
with that member's position. -/
structure Scan where
  seen : Nat
  index : Std.HashMap TransitionKey (Nat × Instruction)
  collision : Option (Nat × Instruction × Instruction)

namespace Scan

def start : Scan :=
  ⟨0, ∅, none⟩

/-- Of two collisions with the same first member the one found earlier stays. -/
def earlier (collision : Option (Nat × Instruction × Instruction))
    (position : Nat) (first second : Instruction) : Nat × Instruction × Instruction :=
  match collision with
  | some (known, pair) => if position < known then (position, first, second) else (known, pair)
  | none => (position, first, second)

def add (scan : Scan) (i : Instruction) : Scan :=
  match scan.index[i.key]? with
  | none => ⟨scan.seen + 1, scan.index.insert i.key (scan.seen, i), scan.collision⟩
  | some (position, first) =>
      ⟨scan.seen + 1, scan.index, some (earlier scan.collision position first i)⟩

structure Covers (scan : Scan) (done : List Instruction) : Prop where
  index_eq : ∀ key, (scan.index[key]?).map Prod.snd = done.find? fun i => i.key == key
  distinct : scan.collision = none → done.Pairwise fun a b => ¬ a.Collides b

theorem covers_start : start.Covers [] where
  index_eq := by simp [start]
  distinct := by simp

theorem Covers.add {scan : Scan} {done : List Instruction} (h : scan.Covers done)
    (i : Instruction) : (scan.add i).Covers (done ++ [i]) := by
  have hi := h.index_eq i.key
  unfold Scan.add
  split
  · next hmiss =>
      rw [hmiss] at hi
      have hfresh : ∀ j ∈ done, j.key ≠ i.key := by
        simpa using hi.symm
      constructor
      · intro key
        rw [Std.HashMap.getElem?_insert, List.find?_append, ← h.index_eq key]
        by_cases hkey : i.key = key
        · subst hkey
          simp [hmiss]
        · cases (scan.index[key]?) <;> simp [hkey]
      · intro hnone
        rw [List.pairwise_append]
        refine ⟨h.distinct hnone, by simp, ?_⟩
        intro j hj k hk hcollides
        rw [List.mem_singleton] at hk
        subst hk
        exact hfresh j hj (Instruction.collides_iff_key_eq.1 hcollides)
  · next position first hhit =>
      constructor
      · intro key
        simp only
        rw [List.find?_append, ← h.index_eq key]
        by_cases hkey : i.key = key
        · subst hkey
          simp [hhit]
        · cases (scan.index[key]?) <;> simp [hkey]
      · intro hnone
        cases hnone

theorem Covers.foldl (rest : List Instruction) :
    ∀ {scan : Scan} {done : List Instruction}, scan.Covers done →
      (rest.foldl Scan.add scan).Covers (done ++ rest) := by
  induction rest with
  | nil =>
      intro scan done h
      simpa using h
  | cons i rest ih =>
      intro scan done h
      simpa using ih (h.add i)

def ofList (members : List Instruction) : Scan :=
  members.foldl Scan.add start

theorem covers_ofList (members : List Instruction) : (ofList members).Covers members := by
  simpa [ofList] using covers_start.foldl members

end Scan

/-- Refuses a list in which two instructions collide, and names the pair that
comes first by the position of its first, then of its second member. -/
def ofList (members : List Instruction) : Except Failure TransitionTable :=
  match h : (Scan.ofList members).collision with
  | some (_, first, second) => .error (.collision first second)
  | none =>
      .ok ⟨members, (Scan.ofList members).index,
        (Scan.covers_ofList members).index_eq, (Scan.covers_ofList members).distinct h⟩

def parse (text separator : String) : Except Failure TransitionTable := do
  ofList (← parseInstructions text separator)

/-! ## Looking up -/

/-- The instruction for a state and a symbol.  A miss is how a machine halts. -/
def find? (table : TransitionTable) (id : StateId) (symbol : Symbol) : Option Instruction :=
  (table.index[id.key symbol]?).map Prod.snd

/-- Some instruction starts from this state, whatever its condition. -/
def hasState (table : TransitionTable) (id : StateId) : Bool :=
  table.members.any fun i => decide (i.id.Same id)

def size (table : TransitionTable) : Nat :=
  table.members.length

theorem find?_eq_scan (table : TransitionTable) (id : StateId) (symbol : Symbol) :
    table.find? id symbol =
      table.members.find? fun i => decide (i.id.Same id ∧ i.condition = symbol) := by
  rw [find?, table.index_eq]
  congr 1
  funext i
  rw [Bool.eq_iff_iff, decide_eq_true_iff, beq_iff_eq]
  simp [Instruction.key, StateId.key, StateId.Same]

/-! ## Text and comparison -/

def text (table : TransitionTable) : String :=
  defaultSeparator.intercalate (table.members.map Instruction.text)

def sameMembers : List Instruction → List Instruction → Bool
  | [], [] => true
  | a :: as, b :: bs => decide (a.Same b) && sameMembers as bs
  | _, _ => false

/-- Two tables list instructions of the same meaning in the same order. -/
def same (a b : TransitionTable) : Bool :=
  sameMembers a.members b.members

def stateCount (table : TransitionTable) : Nat :=
  StateId.countDistinct (table.members.map Instruction.id)

end TransitionTable

end BinaryMachine
