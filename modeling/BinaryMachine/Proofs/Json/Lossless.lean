import BinaryMachine.CommandLine.Run
import BinaryMachine.Proofs.Json.HistoryText

/-!
# Nothing is lost in the JSON text of a history

A history is written without blanks or in lines.  Either text is JSON, and its
tokens are the same, so whatever is read from one is read from the other: an
array with one object for each snapshot, in order, with the three fields and no
others.  Ids are written as strings, so they keep their zeros.
-/

namespace BinaryMachine

open Json (Token)

/-! ## What an object shows -/

namespace Snapshot

/-- The value is null if nothing has been executed, else an object with the four
fields of the instruction and no others, where the ids stand as they were written. -/
def ShowsInstruction (value : List Token) : Option Instruction → Prop
  | none => value = [.null]
  | some i =>
      Instruction.ofTokens value = .ok i ∧
      ∃ condition action, Symbol.ofTokens condition = .ok i.condition ∧
        Action.ofTokens action = .ok i.action ∧
        Json.members? value = some [("id", [.text i.id.text]), ("condition", condition),
          ("action", action), ("next_id", [.text i.next.text])]

/-- The value is an object with the three fields of a snapshot and no others. -/
def ShownBy (e : Snapshot) (value : List Token) : Prop :=
  ∃ instruction, ShowsInstruction instruction e.instruction ∧
    Json.members? value = some [("tape", [.text e.tape]), ("instruction", instruction),
      ("head_index", [.number (toString e.headIndex)])]

theorem showsInstruction_instructionTokens (e : Snapshot) :
    ShowsInstruction e.instructionTokens e.instruction := by
  rcases e.instruction_cases with ⟨hinstruction, htokens⟩ | ⟨i, hinstruction, htokens⟩
  · rw [htokens, hinstruction]
    rfl
  · rw [htokens, hinstruction]
    refine ⟨i.ofTokens_toTokens, i.condition.toTokens, i.action.toTokens,
      i.condition.ofTokens_toTokens, i.action.ofTokens_toTokens, ?_⟩
    exact Json.members?_object
      (Instruction.form.forall_labelled fun m hm => (i.isValue_fieldTokens m hm).passes)

theorem shownBy_toTokens (e : Snapshot) : e.ShownBy e.toTokens :=
  ⟨_, e.showsInstruction_instructionTokens, e.members?_toTokens⟩

end Snapshot

namespace History

theorem eq_of_toList_eq {history other : History} (h : history.toList = other.toList) :
    history = other := by
  cases history
  cases other
  simpa [toList] using h

/-! ## The texts of a history -/

inductive IsJson (history : History) : String → Prop
  | compact : IsJson history (Json.compact history.toTokens)
  | pretty : IsJson history (Json.pretty history.toTokens)
  | printed {m : Machine} (outcome : Outcome) (hm : m.history = history) :
      IsJson history (CommandLine.printRun m outcome .json)

variable {history other : History} {text : String}

theorem IsJson.spaced (h : history.IsJson text) :
    Json.Spaced Token.IsWritten history.toTokens text.toList := by
  cases h with
  | compact => exact Json.spaced_compact history.toTokens
  | pretty =>
      have hspaced : Json.Spaced Token.IsWritten history.toTokens
          (Json.pretty history.toTokens ++ "").toList :=
        Json.spaced_pretty_append history.toTokens (by simp)
      rwa [String.append_empty] at hspaced
  | printed outcome hm =>
      subst hm
      exact Json.spaced_pretty_append _ (by simp [Json.isBlank])

theorem IsJson.scan_eq (h : history.IsJson text) : Json.scan text = history.toTokens :=
  (history.spells_of_spaced h.spaced).scan_eq

theorem IsJson.isText (h : history.IsJson text) : Json.IsText text :=
  ⟨history.toTokens, history.spells_of_spaced h.spaced⟩

theorem IsJson.ofJson?_eq (h : history.IsJson text) : ofJson? text = some history.toList := by
  rw [ofJson?, h.scan_eq, elements?_toTokens]
  exact mapM_ofTokens?_toTokens history.toList

theorem IsJson.elements?_eq (h : history.IsJson text) :
    ∃ values, Json.elements? (Json.scan text) = some values ∧
      List.Forall₂ Snapshot.ShownBy history.toList values := by
  refine ⟨_, by rw [h.scan_eq, elements?_toTokens], ?_⟩
  rw [List.forall₂_map_right_iff]
  exact List.forall₂_same.2 fun e _ => e.shownBy_toTokens

theorem json_text_loses_nothing (h : history.IsJson text) :
    Json.IsText text ∧
    (∃ values, Json.elements? (Json.scan text) = some values ∧
      List.Forall₂ Snapshot.ShownBy history.toList values) ∧
    ofJson? text = some history.toList ∧
    ∀ other : History, other.IsJson text → other = history := by
  refine ⟨h.isText, h.elements?_eq, h.ofJson?_eq, ?_⟩
  intro other hother
  exact eq_of_toList_eq (Option.some.inj (hother.ofJson?_eq.symm.trans h.ofJson?_eq))

theorem json_text_loses_nothing_with_zeros_in_front :
    let id : StateId := ⟨['0', '0', '7'], by simp, by simp [Char.isDigit]⟩
    let first : Snapshot := ⟨"1", none, 0⟩
    let second : Snapshot := ⟨"10", some ⟨id, .one, .move .right, id⟩, 1⟩
    let text := "[\x7b\"tape\":\"1\",\"instruction\":null,\"head_index\":0\x7d," ++
      "\x7b\"tape\":\"10\",\"instruction\":\x7b\"id\":\"007\",\"condition\":\"One\"," ++
      "\"action\":\x7b\"Move\":\"Right\"\x7d,\"next_id\":\"007\"\x7d,\"head_index\":1\x7d]"
    ((empty.push first).push second).IsJson text ∧ Json.IsText text ∧
      ofJson? text = some [first, second] := by
  intro id first second text
  have hcompact : Json.compact ((empty.push first).push second).toTokens = text := by
    decide +kernel
  have htext : ((empty.push first).push second).IsJson text := hcompact ▸ .compact
  have hall := json_text_loses_nothing htext
  exact ⟨htext, hall.1, hall.2.2.1⟩

end History

end BinaryMachine
