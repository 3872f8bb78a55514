import BinaryMachine.Json.History
import BinaryMachine.Proofs.Json.Pretty
import BinaryMachine.Proofs.Json.RoundTrip

/-!
# The JSON text of a history

A strict reader takes an array or an object apart into the values in it.  It reads
a snapshot from an object with the three fields in their order and with nothing
else.  What it reads from the text that is laid out for a history are the snapshots
of the history.
-/

namespace BinaryMachine

namespace Json

/-! ## Taking collections apart -/

/-- The elements from here on, up to the bracket at the end of the text. -/
def elementsFrom? (tokens : List Token) : Option (List (List Token)) :=
  match _h : value? tokens with
  | some (value, [.closeBracket]) => some [value]
  | some (value, .comma :: rest) => (elementsFrom? rest).map (value :: ·)
  | _ => none
termination_by tokens.length
decreasing_by
  have := value?_length _h
  simp only [List.length_cons] at this
  omega

def elements? : List Token → Option (List (List Token))
  | [.openBracket, .closeBracket] => some []
  | .openBracket :: tokens => elementsFrom? tokens
  | _ => none

/-- The members from a key on, up to the brace at the end of the text. -/
def membersFrom? : List Token → Option (List (String × List Token))
  | .text key :: .colon :: tokens =>
      match _h : value? tokens with
      | some (value, [.closeBrace]) => some [(key, value)]
      | some (value, .comma :: rest) => (membersFrom? rest).map ((key, value) :: ·)
      | _ => none
  | _ => none
termination_by tokens => tokens.length
decreasing_by
  have := value?_length _h
  simp only [List.length_cons] at this ⊢
  omega

def members? : List Token → Option (List (String × List Token))
  | [.openBrace, .closeBrace] => some []
  | .openBrace :: tokens => membersFrom? tokens
  | _ => none

theorem elementsFrom?_append {value : List Token} (h : Passes value) (rest : List Token) :
    elementsFrom? (value ++ rest) =
      match rest with
      | [.closeBracket] => some [value]
      | .comma :: rest => (elementsFrom? rest).map (value :: ·)
      | _ => none := by
  have hvalue := h.value?_eq rest
  rw [elementsFrom?]
  split
  · next hread =>
      rw [hvalue] at hread
      cases hread
      rfl
  · next hread =>
      rw [hvalue] at hread
      cases hread
      rfl
  · next hclose hcomma =>
      split
      · exact (hclose value hvalue).elim
      · next more => exact (hcomma value more hvalue).elim
      · rfl

theorem membersFrom?_append (key : String) {value : List Token} (h : Passes value)
    (rest : List Token) :
    membersFrom? (member key value ++ rest) =
      match rest with
      | [.closeBrace] => some [(key, value)]
      | .comma :: rest => (membersFrom? rest).map ((key, value) :: ·)
      | _ => none := by
  have hvalue := h.value?_eq rest
  simp only [member, List.cons_append]
  rw [membersFrom?]
  split
  · next hread =>
      rw [hvalue] at hread
      cases hread
      rfl
  · next hread =>
      rw [hvalue] at hread
      cases hread
      rfl
  · next hclose hcomma =>
      split
      · exact (hclose value hvalue).elim
      · next more => exact (hcomma value more hvalue).elim
      · rfl

theorem elementsFrom?_commaSeparated (elements : List (List Token)) :
    ∀ value : List Token, (∀ v ∈ value :: elements, Passes v) →
      elementsFrom? (commaSeparated (value :: elements) ++ [.closeBracket]) =
        some (value :: elements) := by
  induction elements with
  | nil =>
      intro value h
      rw [List.forall_mem_singleton] at h
      simp [commaSeparated, elementsFrom?_append h]
  | cons next elements ih =>
      intro value h
      rw [List.forall_mem_cons] at h
      rw [commaSeparated_cons_cons, List.append_assoc, List.cons_append,
        elementsFrom?_append h.1]
      simp [ih next h.2]

theorem membersFrom?_membersTokens (members : List (String × List Token)) :
    ∀ m : String × List Token, (∀ m' ∈ m :: members, Passes m'.2) →
      membersFrom? (membersTokens (m :: members) ++ [.closeBrace]) = some (m :: members) := by
  induction members with
  | nil =>
      rintro ⟨key, value⟩ h
      rw [List.forall_mem_singleton] at h
      rw [membersTokens_singleton, membersFrom?_append key h]
  | cons next members ih =>
      rintro ⟨key, value⟩ h
      rw [List.forall_mem_cons] at h
      rw [membersTokens_cons_cons, List.append_assoc, List.cons_append,
        membersFrom?_append key h.1]
      simp [ih next h.2]

theorem elements?_array {elements : List (List Token)} (h : ∀ value ∈ elements, Passes value) :
    elements? (array elements) = some elements := by
  cases elements with
  | nil => rfl
  | cons value elements =>
      have hread := elementsFrom?_commaSeparated elements value h
      rw [array, List.cons_append, elements?]
      · exact hread
      · intro hempty
        rw [hempty, elementsFrom?] at hread
        cases hread

theorem members?_object {members : List (String × List Token)} (h : ∀ m ∈ members, Passes m.2) :
    members? (object members) = some members := by
  cases members with
  | nil => rfl
  | cons m members =>
      have hread := membersFrom?_membersTokens members m h
      rw [object_eq, List.cons_append, members?]
      · exact hread
      · intro hempty
        rw [hempty, membersFrom?] at hread
        cases hread
        exact nofun

end Json

open Json (Token Grammatical Lexeme)

/-! ## Snapshots -/

theorem Action.grammatical_toTokens (action : Action) : Grammatical action.toTokens := by
  obtain ⟨name, content, htokens⟩ := action.exists_toTokens_eq
  rw [htokens]
  exact .object (List.forall_mem_singleton.2 (.text content))

theorem Instruction.grammatical_toTokens (i : Instruction) : Grammatical i.toTokens := by
  apply Grammatical.object
  simp only [List.forall_mem_cons]
  exact ⟨.text _, .text _, i.action.grammatical_toTokens, .text _, List.forall_mem_nil _⟩

namespace Snapshot

def instructionOf? : List Token → Option (Option Instruction)
  | [.null] => some none
  | tokens =>
      match Instruction.ofTokens tokens with
      | .ok i => some (some i)
      | .error _ => none

/-- Reads a snapshot from an object that has its three fields and no others. -/
def ofTokens? (tokens : List Token) : Option Snapshot :=
  match Json.members? tokens with
  | some [("tape", [.text tape]), ("instruction", instruction),
      ("head_index", [.number headIndex])] => do
        return ⟨tape, ← instructionOf? instruction, ← StateId.numeral? headIndex⟩
  | _ => none

def instructionTokens (e : Snapshot) : List Token :=
  (e.instruction.map Instruction.toTokens).getD [.null]

theorem instruction_cases (e : Snapshot) :
    e.instruction = none ∧ e.instructionTokens = [.null] ∨
      ∃ i, e.instruction = some i ∧ e.instructionTokens = i.toTokens := by
  unfold instructionTokens
  cases e.instruction with
  | none => exact .inl ⟨rfl, rfl⟩
  | some i => exact .inr ⟨i, rfl, rfl⟩

theorem grammatical_instructionTokens (e : Snapshot) : Grammatical e.instructionTokens := by
  rcases e.instruction_cases with ⟨-, htokens⟩ | ⟨i, -, htokens⟩
  · rw [htokens]
    exact .null
  · rw [htokens]
    exact i.grammatical_toTokens

theorem instructionOf?_instructionTokens (e : Snapshot) :
    instructionOf? e.instructionTokens = some e.instruction := by
  rcases e.instruction_cases with ⟨hinstruction, htokens⟩ | ⟨i, hinstruction, htokens⟩
  · rw [htokens, hinstruction]
    rfl
  · have hobject : i.toTokens ≠ [.null] := by
      simp [Instruction.toTokens_eq_object, Json.object_eq]
    rw [htokens, hinstruction, instructionOf?]
    · rw [i.ofTokens_toTokens]
    · exact hobject

def members (e : Snapshot) : List (String × List Token) :=
  [("tape", [.text e.tape]), ("instruction", e.instructionTokens),
    ("head_index", [.number (toString e.headIndex)])]

theorem toTokens_eq_object (e : Snapshot) : e.toTokens = Json.object e.members := rfl

theorem grammatical_members (e : Snapshot) : ∀ m ∈ e.members, Grammatical m.2 := by
  simp only [members, List.forall_mem_cons]
  exact ⟨.text _, e.grammatical_instructionTokens, .number _, List.forall_mem_nil _⟩

theorem members?_toTokens (e : Snapshot) : Json.members? e.toTokens = some e.members :=
  Json.members?_object fun m hm => (e.grammatical_members m hm).passes

theorem ofTokens?_toTokens (e : Snapshot) : ofTokens? e.toTokens = some e := by
  rw [ofTokens?, members?_toTokens]
  simp only [members, instructionOf?_instructionTokens, StateId.numeral?_toString]
  rfl

theorem lexeme_of_mem_toTokens (e : Snapshot) :
    ∀ token ∈ e.toTokens, Lexeme token token.spelling.toList := by
  have hinstruction : ∀ token ∈ e.instructionTokens, token.endsItself = true := by
    rcases e.instruction_cases with ⟨-, htokens⟩ | ⟨i, -, htokens⟩
    · simp [htokens, Token.endsItself]
    · rw [htokens]
      exact i.isValue_toTokens.endsItself
  rw [toTokens_eq_object]
  apply Json.forall_mem_object fun _ => Json.lexeme_spelling_of_endsItself
  simp only [members, List.forall_mem_cons]
  exact ⟨⟨Json.lexeme_spelling_of_endsItself rfl, List.forall_mem_nil _⟩,
    fun token htoken => Json.lexeme_spelling_of_endsItself (hinstruction token htoken),
    ⟨Json.lexeme_spelling_number e.headIndex, List.forall_mem_nil _⟩, List.forall_mem_nil _⟩

theorem grammatical_toTokens (e : Snapshot) : Grammatical e.toTokens :=
  .object e.grammatical_members

end Snapshot

/-! ## Histories -/

namespace History

/-- Reads the snapshots of a history from a JSON text. -/
def ofJson? (text : String) : Option (List Snapshot) :=
  Json.elements? (Json.scan text) >>= List.mapM Snapshot.ofTokens?

theorem elements?_toTokens (history : History) :
    Json.elements? history.toTokens = some (history.toList.map Snapshot.toTokens) := by
  apply Json.elements?_array
  rw [List.forall_mem_map]
  exact fun e _ => e.grammatical_toTokens.passes

theorem grammatical_toTokens (history : History) : Grammatical history.toTokens := by
  apply Grammatical.array
  rw [List.forall_mem_map]
  exact fun e _ => e.grammatical_toTokens

theorem spells_of_spaced (history : History) {text : String}
    (hspaced : Json.Spaced Token.IsWritten history.toTokens text.toList) :
    Json.Spells text history.toTokens := by
  apply Json.spells_of_spaced history.grammatical_toTokens ?_ hspaced
  apply Json.forall_mem_array fun _ => Json.lexeme_spelling_of_endsItself
  rw [List.forall_mem_map]
  exact fun e _ => e.lexeme_of_mem_toTokens

theorem mapM_ofTokens?_toTokens (snapshots : List Snapshot) :
    (snapshots.map Snapshot.toTokens).mapM Snapshot.ofTokens? = some snapshots :=
  mapM_map_eq_pure snapshots fun e _ => e.ofTokens?_toTokens

/-- The line end that is printed behind the text does not matter. -/
theorem ofJson?_pretty (history : History) :
    ofJson? (Json.pretty history.toTokens ++ "\n") = some history.toList := by
  have hnewline : ∀ c ∈ "\n".toList, Json.isBlank c = true := by
    simp [Json.isBlank]
  have hspells := history.spells_of_spaced (Json.spaced_pretty_append _ hnewline)
  rw [ofJson?, hspells.scan_eq, elements?_toTokens]
  exact mapM_ofTokens?_toTokens history.toList

end History

end BinaryMachine
