import BinaryMachine.Failure
import BinaryMachine.Segments

/-!
Reading the text encodings of ids, symbols, actions, instructions, instruction
lists and tape contents.  Each reader fails in exactly one way, and the failure
carries the text that was refused.
-/

namespace BinaryMachine

/-- The separator between instructions when none is given. -/
def defaultSeparator : String := "\n"

/-- The separator of instruction lists written on one line. -/
def inlineSeparator : String := ";"

/-! ## Single values -/

def StateId.parse (text : String) : Except Failure StateId :=
  match StateId.ofText? text with
  | some id => .ok id
  | none => .error (.malformedId text)

def Symbol.parse (c : Char) : Except Failure Symbol :=
  match Symbol.ofChar? c with
  | some symbol => .ok symbol
  | none => .error (.badSymbol c)

def Action.parse (c : Char) : Except Failure Action :=
  match Action.ofChar? c with
  | some action => .ok action
  | none => .error (.badAction c)

def Instruction.parse (text : String) : Except Failure Instruction :=
  match Instruction.ofText? text with
  | some instruction => .ok instruction
  | none => .error (.malformedInstruction text)

theorem Instruction.parse_eq_ok_iff {text : String} {i : Instruction} :
    Instruction.parse text = .ok i ↔ text = i.text := by
  constructor
  · intro h
    unfold Instruction.parse at h
    split at h
    · next j hj =>
        cases h
        exact (Instruction.text_of_ofText? hj).symm
    · cases h
  · rintro rfl
    simp [Instruction.parse, Instruction.ofText?_text]

/-! ## Instruction lists -/

/-- One carriage return at the end of a line belongs to the line end. -/
def dropCarriageReturn (line : List Char) : List Char :=
  if line.getLast? = some '\r' then line.dropLast else line

def instructionSegments (text separator : String) : List (List Char) :=
  let segments := cutAt separator.toList text.toList
  if separator = defaultSeparator then segments.map dropCarriageReturn else segments

def parseInstructions (text separator : String) : Except Failure (List Instruction) :=
  if separator = "" then
    .error .emptySeparator
  else
    (instructionSegments text separator).mapM fun segment =>
      Instruction.parse (String.ofList segment)

/-! ## Tape contents -/

/-- Another way to write the empty tape content. -/
def blankTapeText : String := " "

def parseTape (text : String) : Except Failure (List Symbol) :=
  if text = blankTapeText then
    .ok []
  else
    match text.toList.mapM Symbol.ofChar? with
    | some symbols => .ok symbols
    | none => .error (.malformedTape text)

end BinaryMachine
