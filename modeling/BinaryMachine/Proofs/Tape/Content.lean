import BinaryMachine.Proofs.Encoding.Grammar
import BinaryMachine.Proofs.Tape.Layout

/-!
# Tapes with a given content

A tape is given its content by moves to the right and writes, from the root on.
It lies on the line that holds the content from the position zero on and blanks
elsewhere.  A text is refused as a content if and only if it does not have the form
of one.
-/

namespace BinaryMachine

namespace Line

/-- Materialises the cells on the right of the right end with these symbols. -/
def append (line : Line) (symbols : List Symbol) : Line where
  symbol p := if line.hi < p then symbols.getD (p - line.hi - 1).toNat .zero else line.symbol p
  lo := line.lo
  hi := line.hi + symbols.length

theorem append_nil {line : Line} (hblank : ∀ p, line.hi < p → line.symbol p = .zero) :
    line.append [] = line := by
  have hsymbol : (line.append []).symbol = line.symbol := by
    funext p
    by_cases hp : line.hi < p
    · simp [append, hp, hblank p hp]
    · simp [append, hp]
  rw [append] at hsymbol ⊢
  simp_all

theorem append_cons (line : Line) (hle : line.lo ≤ line.hi) (symbol : Symbol)
    (rest : List Symbol) :
    ((line.stand (line.hi + 1)).write (line.hi + 1) symbol).append rest =
      line.append (symbol :: rest) := by
  have hhi : max line.hi (line.hi + 1) = line.hi + 1 := by
    omega
  have hlo : min line.lo (line.hi + 1) = line.lo := by
    omega
  simp only [append, hi_write, hi_stand, lo_write, lo_stand, hhi, hlo, Line.mk.injEq,
    true_and, List.length_cons]
  refine ⟨?_, by push_cast; omega⟩
  funext p
  simp only [write, stand, Function.update_apply]
  rcases lt_trichotomy p (line.hi + 1) with hp | rfl | hp
  · rw [if_neg (by omega), if_neg (by omega), if_neg (by omega)]
  · have hindex : (line.hi + 1 - line.hi - 1).toNat = 0 := by
      omega
    have hlt : line.hi < line.hi + 1 := by
      omega
    rw [if_neg (by omega), if_pos rfl, if_pos hlt, hindex, List.getD_cons_zero]
  · have hindex : (p - line.hi - 1).toNat = (p - (line.hi + 1) - 1).toNat + 1 := by
      omega
    rw [if_pos hp, if_pos (by omega), hindex, List.getD_cons_succ]

theorem ofSymbols_nil : ofSymbols [] = blank := by
  simp [ofSymbols, blank]

theorem ofSymbols_cons (symbol : Symbol) (rest : List Symbol) :
    ofSymbols (symbol :: rest) = (blank.write 0 symbol).append rest := by
  simp only [ofSymbols, append, write, blank, Line.mk.injEq, List.length_cons, true_and]
  refine ⟨?_, by omega⟩
  funext p
  simp only [Function.update_apply]
  rcases lt_trichotomy p 0 with hp | rfl | hp
  · rw [if_neg (by omega), if_neg (by omega), if_neg (by omega)]
  · simp
  · have hindex : p.toNat = (p - 0 - 1).toNat + 1 := by
      omega
    rw [if_pos (by omega), if_pos hp, hindex, List.getD_cons_succ]

/-- A content that is not empty is what stands on its line. -/
theorem symbols_ofSymbols_of_ne_nil {content : List Symbol} (hne : content ≠ []) :
    (ofSymbols content).symbols = content := by
  have hpos := List.length_pos_of_ne_nil hne
  apply List.ext_getElem
  · rw [length_symbols]
    simp only [ofSymbols]
    omega
  · intro i _ hi
    simp [symbols, symbolsFrom, ofSymbols, List.getElem?_eq_getElem hi]

end Line

namespace Tape.Layout

private theorem foldl_layout (rest : List Symbol) :
    ∀ {tape : Tape} {head : Head} {place : CellId → Int} {line : Line},
      tape.Layout place line → head.StandsAt tape place line.hi →
      ∃ place', Layout (rest.foldl (fun (tape, head) symbol =>
          let (tape, head) := Head.moveRight head tape
          (head.write tape symbol, head)) (tape, head)).1 place' (line.append rest) := by
  induction rest with
  | nil =>
      intro tape head place line h _
      refine ⟨place, ?_⟩
      rw [Line.append_nil (fun p hp => h.blank_outside p (.inr hp))]
      exact h
  | cons symbol rest ih =>
      intro tape head place line h hhead
      have hle := h.lo_le_of_standsAt hhead
      obtain ⟨place', hmoved, hstands, -⟩ := h.move hhead .right
      simp only [Direction.offset] at hmoved hstands
      have hhi : ((line.stand (line.hi + 1)).write (line.hi + 1) symbol).hi = line.hi + 1 := by
        rw [Line.hi_write, Line.hi_stand]
        omega
      rw [List.foldl_cons, ← line.append_cons hle symbol rest]
      apply ih (hmoved.write hstands symbol)
      rw [hhi]
      exact hstands.write _ symbol

theorem ofSymbols (symbols : List Symbol) :
    ∃ place, (Tape.ofSymbols symbols).Layout place (Line.ofSymbols symbols) := by
  cases symbols with
  | nil =>
      rw [Line.ofSymbols_nil]
      exact ⟨_, blank⟩
  | cons symbol rest =>
      rw [Line.ofSymbols_cons]
      have hroot := blank.atRoot
      exact foldl_layout rest (blank.write hroot symbol) (hroot.write _ symbol)

end Tape.Layout

/-- The symbols that a script's content names, from the root to the right. -/
def TapeScript.symbols (script : TapeScript) : List Symbol :=
  match script.content with
  | some content => content.toList.filterMap Symbol.ofChar?
  | none => []

theorem mapM_ofChar?_eq_some {cs : List Char} {symbols : List Symbol}
    (h : cs.mapM Symbol.ofChar? = some symbols) :
    cs.filterMap Symbol.ofChar? = symbols := by
  induction cs generalizing symbols with
  | nil => simpa using h
  | cons c cs ih =>
      rw [List.mapM_cons] at h
      simp only [Option.bind_eq_bind, Option.bind_eq_some_iff, Option.pure_def,
        Option.some.injEq] at h
      obtain ⟨symbol, hsymbol, rest, hrest, rfl⟩ := h
      rw [List.filterMap_cons_some hsymbol, ih hrest]

theorem TapeScript.start_eq_ofSymbols {script : TapeScript} {tape : Tape}
    (h : script.start = .ok tape) : tape = Tape.ofSymbols script.symbols := by
  obtain ⟨content, commands⟩ := script
  cases content with
  | none =>
      cases h
      rfl
  | some content =>
      simp only [start, Tape.ofText, parseTape] at h
      by_cases hblank : content = blankTapeText
      · subst hblank
        cases h
        rfl
      · rw [if_neg hblank] at h
        cases hsymbols : content.toList.mapM Symbol.ofChar? with
        | none =>
            rw [hsymbols] at h
            cases h
        | some symbols =>
            rw [hsymbols] at h
            cases h
            exact congrArg Tape.ofSymbols (mapM_ofChar?_eq_some hsymbols).symm

/-! ## Texts that are contents -/

theorem Tape.exists_ofText_iff {text : String} :
    (∃ tape, Tape.ofText text = .ok tape) ↔ TapeForm text := by
  rw [← exists_parseTape_iff, Tape.ofText]
  cases parseTape text <;> simp [bind, Except.bind, pure, Except.pure]

theorem Tape.ofText_eq_error_iff {text : String} {failure : Failure} :
    Tape.ofText text = .error failure ↔
      ¬ TapeForm text ∧ failure = .malformedTape text := by
  rw [← parseTape_eq_error_iff, Tape.ofText]
  cases parseTape text <;> simp [bind, Except.bind, pure, Except.pure]

theorem Tape.ofText_eq_ofSymbols {content : String} {symbols : List Symbol}
    (h : content.toList = symbols.map Symbol.char) :
    Tape.ofText content = .ok (Tape.ofSymbols symbols) := by
  rw [Tape.ofText, parseTape_of_symbols h]
  rfl

end BinaryMachine
