import BinaryMachine.Proofs.Machine.Construction
import BinaryMachine.Proofs.Machine.Lockstep
import BinaryMachine.Proofs.Tape.Commutation

/-!
# Materialised blanks are no boundary

Moving heads about a tape materialises blanks and does nothing else.  A machine
on such a tape follows links where the same machine on the shorter tape creates
cells, but the line of the one stays the line of the other with some positions
materialised.  So the two are in lockstep, and all that tells them apart is how
many blanks stand around the text.
-/

namespace BinaryMachine

/-- Only this command can change a symbol. -/
def Command.writes : Command → Bool
  | .write _ => true
  | _ => false

/-! ## Moving heads about -/

namespace LineSession

theorem exists_line_perform (model : LineSession) {command : Command}
    (h : command.writes = false) :
    ∃ positions, (model.perform command).line = model.line.materialise positions := by
  cases command with
  | move direction => exact ⟨[_], model.line_goTo _⟩
  | goToLeftEnd => exact ⟨[_], model.line_goTo _⟩
  | advanceRight =>
      simp only [perform]
      split
      · exact ⟨[], rfl⟩
      · exact ⟨[_], model.line_goTo _⟩
  | write c => simp [Command.writes] at h
  | read => exact ⟨[], rfl⟩
  | cell => exact ⟨[], rfl⟩
  | root => exact ⟨[], rfl⟩
  | isAtRoot => exact ⟨[], rfl⟩
  | cellIn content => exact ⟨[], rfl⟩
  | newHead => exact ⟨[], rfl⟩
  | cloneHead => exact ⟨[], rfl⟩
  | use head => exact ⟨[], rfl⟩
  | sharesCellWith head => exact ⟨[], rfl⟩

theorem exists_line_performEach (commands : List Command) :
    ∀ model : LineSession, (∀ command ∈ commands, command.writes = false) →
      ∃ positions, (model.performEach commands).line = model.line.materialise positions := by
  induction commands with
  | nil =>
      intro model _
      exact ⟨[], rfl⟩
  | cons command rest ih =>
      intro model hwrites
      rw [List.forall_mem_cons] at hwrites
      obtain ⟨first, hfirst⟩ := model.exists_line_perform hwrites.1
      obtain ⟨more, hmore⟩ := ih (model.perform command) hwrites.2
      refine ⟨first ++ more, ?_⟩
      simp only [performEach, List.foldl_cons] at hmore ⊢
      simp [hmore, hfirst, Line.materialise]

end LineSession

/-! ## Zeros behind a content -/

namespace Line

theorem symbol_ofSymbols_append_zeros (symbols : List Symbol) (k : Nat) :
    (ofSymbols (symbols ++ List.replicate k .zero)).symbol = (ofSymbols symbols).symbol := by
  funext p
  by_cases hp : 0 ≤ p
  · simp only [ofSymbols, if_pos hp]
    rcases Nat.lt_or_ge p.toNat symbols.length with hlt | hge
    · rw [List.getD_append _ _ _ _ hlt]
    · rw [List.getD_append_right _ _ _ _ hge, List.getD_eq_default _ _ hge]
      rw [List.getD_eq_getElem?_getD, List.getElem?_replicate]
      split <;> rfl
  · simp [ofSymbols, hp]

theorem ofSymbols_append_zeros {symbols : List Symbol} (hne : symbols ≠ []) (k : Nat) :
    ofSymbols (symbols ++ List.replicate k .zero) =
      (ofSymbols symbols).materialise [((symbols.length + k - 1 : Nat) : Int)] := by
  have hlength := List.length_pos_iff.2 hne
  have hsymbol := symbol_ofSymbols_append_zeros symbols k
  simp only [ofSymbols, materialise, List.foldl_cons, List.foldl_nil, stand, Line.mk.injEq,
    List.length_append, List.length_replicate] at hsymbol ⊢
  exact ⟨hsymbol, by omega, by omega⟩

end Line

def zeros (k : Nat) : String :=
  String.ofList (List.replicate k '0')

namespace Machine

/-! ## Side by side -/

/-- The second tape is the first one with some positions materialised. -/
def Covers (positions : List Int) : View := fun tape head tape' head' =>
  ∃ line p, (∃ place, tape.Layout place line ∧ head.StandsAt tape place p) ∧
    ∃ place', tape'.Layout place' (line.materialise positions) ∧ head'.StandsAt tape' place' p

theorem coupled_covers (positions : List Int) (table : TransitionTable) :
    Coupled (Covers positions) Eq table table where
  act := by
    rintro tape head tape' head' i _ hcovers rfl
    obtain ⟨line, p, ⟨place, hlayout, hhead⟩, place', hlayout', hhead'⟩ := hcovers
    obtain ⟨acted, hacted, hstands, -⟩ := hlayout.act hhead i.action
    obtain ⟨acted', hacted', hstands', -⟩ := hlayout'.act hhead' i.action
    rw [Line.act_materialise] at hacted'
    rw [Line.act_snd] at hstands hstands'
    exact ⟨_, _, ⟨acted, hacted, hstands⟩, acted', hacted', hstands'⟩
  find? := by
    rintro tape head tape' head' i _ hcovers rfl
    obtain ⟨line, p, ⟨place, hlayout, hhead⟩, place', hlayout', hhead'⟩ := hcovers
    rw [hlayout.read_eq hhead, hlayout'.read_eq hhead', Line.symbol_materialise]
    exact optionRel_eq_iff.2 rfl

/-- The second machine shows what the first one shows, with `a` more blanks on
the left and `b` more on the right. -/
structure Padded (a b : Nat) (m m' : Machine) : Prop where
  outcome_eq : m'.outcome = m.outcome
  status_eq : m'.status = m.status
  steps_eq : m'.steps = m.steps
  current_eq : m'.current = m.current
  tapeText_eq : m'.tapeText = zeros a ++ m.tapeText ++ zeros b
  headIndex_eq : m'.headIndex = m.headIndex + a

variable {positions : List Int} {m m' : Machine} {tape tape' : Tape} {place place' : CellId → Int}
  {line : Line} {table : TransitionTable} {initialId : StateId}

theorem Lockstep.exists_padded (h : Lockstep (Covers positions) Eq m m')
    (htable : m'.table = m.table) :
    ∃ a b, Padded a b m m' ∧ ((∀ q ∈ positions, 0 ≤ q) → a = 0) := by
  have hcoupled : Coupled (Covers positions) Eq m.table m'.table := by
    rw [htable]
    exact coupled_covers positions m.table
  obtain ⟨line, p, ⟨place, hlayout, hhead⟩, place', hlayout', hhead'⟩ := h.view
  have htracks : m.Tracks line p := ⟨place, hlayout, hhead⟩
  have htracks' : m'.Tracks (line.materialise positions) p := ⟨place', hlayout', hhead'⟩
  have hlo := line.lo_materialise_le positions
  have hhi := line.le_hi_materialise positions
  have hmem := htracks.mem
  refine ⟨(line.lo - (line.materialise positions).lo).toNat,
    ((line.materialise positions).hi - line.hi).toNat, ?_, ?_⟩
  · constructor
    case outcome_eq => exact h.outcome_after_eq hcoupled 0
    case status_eq => exact h.status_eq
    case steps_eq => exact h.steps_eq
    case current_eq => exact h.current_eq
    case tapeText_eq =>
      apply String.toList_inj.1
      rw [htracks.tapeText_eq, htracks'.tapeText_eq]
      simpa [zeros] using Line.toList_text_of_le hlo (by omega) hhi
        (line.symbol_materialise positions) (fun q hq => htracks.blank_outside hq)
    case headIndex_eq =>
      have hindex := htracks.headIndex_eq
      have hindex' := htracks'.headIndex_eq
      omega
  · intro hpositions
    have hroot := hlayout.lo_le 0 hlayout.root_lt
    rw [hlayout.place_root] at hroot
    rw [line.lo_materialise_eq fun q hq => hroot.trans (hpositions q hq)]
    simp

theorem exists_padded_of_start (hlayout : tape.Layout place line)
    (hlayout' : tape'.Layout place' (line.materialise positions))
    (hm : start tape table initialId = .ok m) :
    ∃ m', start tape' table initialId = .ok m' ∧
      ∀ n, ∃ a b, Padded a b (m.after n) (m'.after n) ∧ ((∀ q ∈ positions, 0 ≤ q) → a = 0) := by
  obtain ⟨hstate, rfl⟩ := start_eq_ok hm
  have hread : (Head.atRoot tape').read tape' = (Head.atRoot tape).read tape := by
    rw [hlayout.read_eq hlayout.atRoot, hlayout'.read_eq hlayout'.atRoot, Line.symbol_materialise]
  refine ⟨_, if_pos hstate, ?_⟩
  intro n
  apply Lockstep.exists_padded
  · apply Lockstep.after
    · exact
        { view := ⟨line, 0, ⟨place, hlayout, hlayout.atRoot⟩, place', hlayout', hlayout'.atRoot⟩
          status_eq := rfl
          steps_eq := rfl
          size_eq := by simp only [Machine.record, History.size_push]
          current := by
            simp only [hread]
            exact optionRel_eq_iff.2 rfl }
    · exact coupled_covers positions table
  · rw [table_after, table_after]
    rfl

/-- Neither blanks that heads have materialised nor zeros written behind a content
make a difference to a run. -/
theorem blanks_are_no_boundary (table : TransitionTable) (initialId : StateId) :
    (∀ (script : TapeScript) (start : Tape) (moves : List Command) (m : Machine),
      script.start = .ok start → (∀ command ∈ moves, command.writes = false) →
      let session := (Session.on start).performEach script.commands
      Machine.start session.tape table initialId = .ok m →
      ∃ m', Machine.start (session.performEach moves).tape table initialId = .ok m' ∧
        ∀ n, ∃ a b, Padded a b (m.after n) (m'.after n)) ∧
    ∀ (content : String) (k : Nat), content ≠ "" → (∀ c ∈ content.toList, c = '0' ∨ c = '1') →
      ∃ tape tape', Tape.ofText content = .ok tape ∧ Tape.ofText (content ++ zeros k) = .ok tape' ∧
        ∀ m, Machine.start tape table initialId = .ok m →
          ∃ m', Machine.start tape' table initialId = .ok m' ∧
            ∀ n, ∃ b, Padded 0 b (m.after n) (m'.after n) := by
  constructor
  · intro script start moves m hstart hmoves session hm
    obtain ⟨_, hfollows⟩ := TapeScript.exists_follows hstart
    obtain ⟨_, hfollows'⟩ := hfollows.performEach moves
    obtain ⟨positions, hline⟩ := LineSession.exists_line_performEach moves _ hmoves
    have hlayout' := hfollows'.layout
    rw [hline] at hlayout'
    obtain ⟨m', hm', hpadded⟩ := exists_padded_of_start hfollows.layout hlayout' hm
    refine ⟨m', hm', ?_⟩
    intro n
    obtain ⟨a, b, hn, -⟩ := hpadded n
    exact ⟨a, b, hn⟩
  · intro content k hne hcontent
    obtain ⟨symbols, hsymbols⟩ := exists_symbols_of_forall hcontent
    have hsymbols' : (content ++ zeros k).toList =
        (symbols ++ List.replicate k Symbol.zero).map Symbol.char := by
      simp [zeros, hsymbols, Symbol.char]
    have hnil : symbols ≠ [] := by
      rintro rfl
      exact hne (String.toList_eq_nil_iff.1 hsymbols)
    refine ⟨_, _, Tape.ofText_eq_ofSymbols hsymbols, Tape.ofText_eq_ofSymbols hsymbols', ?_⟩
    intro m hm
    obtain ⟨place, hlayout⟩ := Tape.Layout.ofSymbols symbols
    obtain ⟨place', hlayout'⟩ := Tape.Layout.ofSymbols (symbols ++ List.replicate k .zero)
    rw [Line.ofSymbols_append_zeros hnil] at hlayout'
    obtain ⟨m', hm', hpadded⟩ := exists_padded_of_start hlayout hlayout' hm
    refine ⟨m', hm', ?_⟩
    intro n
    obtain ⟨a, b, hn, hzero⟩ := hpadded n
    obtain rfl : a = 0 := hzero (by simp)
    exact ⟨b, hn⟩

/-- The machine goes off the left end of the tape `1`, where on the other tape heads
have been before, and finds its second instruction under a blank. -/
theorem blanks_are_no_boundary_off_the_left_end :
    ∃ (table : TransitionTable) (m m' : Machine),
      table.members.map Instruction.text = ["0,1,L,0", "0,0,1,1"] ∧
      start (Tape.ofSymbols [.one]) table (.ofNat 0) = .ok m ∧
      start ((Session.on (Tape.ofSymbols [.one])).performEach
        [.move .left, .newHead, .move .right, .move .right]).tape table (.ofNat 0) = .ok m' ∧
      m.tapeText = "1" ∧ m'.tapeText = "0100" ∧
      (∀ n, ∃ a b, Padded a b (m.after n) (m'.after n)) ∧
      ∃ tape m'', Tape.ofText "1000" = .ok tape ∧ start tape table (.ofNat 0) = .ok m'' ∧
        ∀ n, ∃ b, Padded 0 b (m.after n) (m''.after n) := by
  let members : List Instruction :=
    [⟨.ofNat 0, .one, .move .left, .ofNat 0⟩, ⟨.ofNat 0, .zero, .write .one, .ofNat 1⟩]
  obtain ⟨table, htable⟩ : ∃ table, TransitionTable.ofList members = .ok table :=
    TransitionTable.exists_ofList_of_pairwise (by decide)
  have hmembers := (TransitionTable.ofList_eq_ok htable).1
  obtain ⟨m, hm⟩ : ∃ m, start (Tape.ofSymbols [.one]) table (.ofNat 0) = .ok m := by
    rw [exists_start_iff, hmembers]
    exact ⟨_, List.mem_cons_self, rfl⟩
  obtain ⟨hmoves, hzeros⟩ := blanks_are_no_boundary table (.ofNat 0)
  obtain ⟨m', hm', hpadded⟩ := hmoves ⟨some "1", []⟩ _
    [.move .left, .newHead, .move .right, .move .right] m rfl (by decide) hm
  obtain ⟨tape, tape', htape, htape', hcontent⟩ := hzeros "1" 3 (by decide) (by simp)
  cases htape
  obtain ⟨m'', hm'', hpadded'⟩ := hcontent m hm
  refine ⟨table, m, m', ?_, hm, hm', ?_, ?_, hpadded, tape', m'', htape', hm'', hpadded'⟩
  · rw [hmembers]
    rfl
  · obtain ⟨-, rfl⟩ := start_eq_ok hm
    rfl
  · obtain ⟨-, rfl⟩ := start_eq_ok hm'
    rfl

end Machine

end BinaryMachine
