import BinaryMachine.Proofs.Tape.Identity

/-!
# Tapes and their texts

A text of symbols is written to a tape by moves to the right, with a new cell for
every symbol but the first, and is read back by a walk along the links.  Nothing but
such texts and the single space is taken for the content of a tape.  What any tape
shows is such a text again, so it can be written to a new tape, whatever the order in
which the cells of the old one were made.
-/

namespace BinaryMachine

namespace Tape

/-- The tape shows the text, and its cells were made from the left to the right,
the root first. -/
structure Spells (tape : Tape) (text : String) : Prop where
  text_eq : tape.text = text
  width_eq : tape.width = text.length
  root_at_left_end : (Head.atRoot tape).isAtLeftEnd tape = true
  serials_eq : tape.visible.map Prod.snd = List.range text.length

theorem spells_ofSymbols {symbols : List Symbol} (hne : symbols ≠ []) {text : String}
    (htext : text.toList = symbols.map Symbol.char) : (ofSymbols symbols).Spells text := by
  obtain ⟨place, h⟩ := Layout.ofSymbols symbols
  have hsymbols := Line.symbols_ofSymbols_of_ne_nil hne
  have hwidth : (ofSymbols symbols).width = text.length := by
    rw [← h.length_visible, ← List.length_map Prod.fst, h.map_fst_visible, hsymbols,
      ← String.length_toList, htext, List.length_map]
  constructor
  case text_eq => rw [h.text_eq, Line.text, hsymbols, ← htext, String.ofList_toList]
  case width_eq => exact hwidth
  case root_at_left_end => exact (h.isAtLeftEnd_iff h.atRoot).2 rfl
  case serials_eq =>
    rw [h.map_snd_visible, h.inOrder_eq_range (outward_ofSymbols symbols) rfl, hwidth]

theorem exists_spells {text : String} (hne : text ≠ "")
    (hsymbols : ∀ c ∈ text.toList, c = '0' ∨ c = '1') :
    ∃ tape, Tape.ofText text = .ok tape ∧ tape.Spells text := by
  obtain ⟨symbols, htext⟩ := exists_symbols_of_forall hsymbols
  refine ⟨_, Tape.ofText_eq_ofSymbols htext, spells_ofSymbols ?_ htext⟩
  rintro rfl
  exact hne (String.toList_eq_nil_iff.1 htext)

theorem Reachable.exists_again {tape : Tape} (h : tape.Reachable) :
    tape.text ≠ "" ∧ ∃ again, Tape.ofText tape.text = .ok again ∧ again.text = tape.text := by
  obtain ⟨place, line, hlayout⟩ := h.layout
  have htext : tape.text.toList = line.symbols.map Symbol.char := by
    rw [hlayout.text_eq, Line.text, String.toList_ofList]
  have hspells := spells_ofSymbols hlayout.symbols_ne_nil htext
  refine ⟨?_, _, hlayout.ofText_text, hspells.text_eq⟩
  intro hempty
  rw [hempty, String.toList_empty, eq_comm, List.map_eq_nil_iff] at htext
  exact hlayout.symbols_ne_nil htext

end Tape

/-- Texts and tapes are taken for each other exactly as far as they can be: every text
of symbols comes back from its tape, the two empty contents are one blank, all other
texts are refused, and what a tape shows is never refused. -/
theorem tape_text_inverse :
    (∀ text : String,
      ((∃ tape, Tape.ofText text = .ok tape) ↔
        text = " " ∨ ∀ c ∈ text.toList, c = '0' ∨ c = '1') ∧
      (∀ failure, Tape.ofText text = .error failure ↔
        ¬ (text = " " ∨ ∀ c ∈ text.toList, c = '0' ∨ c = '1') ∧
          failure = .malformedTape text) ∧
      parseTapeByParts text = parseTape text) ∧
    (∀ text : String, text ≠ "" → (∀ c ∈ text.toList, c = '0' ∨ c = '1') →
      ∃ tape, Tape.ofText text = .ok tape ∧ tape.Spells text) ∧
    (∀ text : String, text = "" ∨ text = " " →
      ∃ tape, Tape.ofText text = .ok tape ∧ tape.text = "0") ∧
    ∀ tape : Tape, tape.Reachable →
      tape.text ≠ "" ∧ ∃ again, Tape.ofText tape.text = .ok again ∧ again.text = tape.text := by
  refine ⟨fun text => ⟨Tape.exists_ofText_iff, fun failure => Tape.ofText_eq_error_iff,
      parseTapeByParts_eq_parseTape text⟩,
    fun text hne hsymbols => Tape.exists_spells hne hsymbols, ?_,
    fun tape hreachable => hreachable.exists_again⟩
  rintro text (rfl | rfl)
  · exact ⟨Tape.blank, rfl, rfl⟩
  · exact ⟨Tape.blank, rfl, rfl⟩

/-- A text that comes back, one that is refused for the space behind its symbols, and
a tape that has grown to the left. -/
theorem tape_text_inverse_of_texts_and_a_grown_tape :
    (∃ tape, Tape.ofText "011" = .ok tape ∧ tape.Spells "011") ∧
    Tape.ofText "01 " = .error (.malformedTape "01 ") ∧
    ∃ again, Tape.ofText ((Session.on Tape.blank).performEach
        [.move .left, .write '1']).tape.text = .ok again ∧
      again.text = ((Session.on Tape.blank).performEach [.move .left, .write '1']).tape.text := by
  obtain ⟨haccepted, hspells, -, hreachable⟩ := tape_text_inverse
  refine ⟨hspells "011" (by simp) (by simp), ?_, ?_⟩
  · exact ((haccepted "01 ").2.1 _).2 ⟨by simp, rfl⟩
  · exact (hreachable _ ⟨⟨none, [.move .left, .write '1']⟩, _, rfl, rfl⟩).2

end BinaryMachine
