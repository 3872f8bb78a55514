import BinaryMachine.Proofs.Encoding.Grammar
import BinaryMachine.Proofs.Json.Record

/-!
# The grammar of JSON texts

A text is JSON if it spells the tokens of one value, with blanks wherever two
tokens meet.  The grammar is stated apart from the scanner that reads texts and
from the spellings that texts are written with.  A reader that passes over a value
passes over all the tokens that the grammar allows for one.
-/

namespace BinaryMachine.Json

/-! ## Numbers -/

/-- Digits that begin with a zero are no more than that zero. -/
def IsWholePart (s : List Char) : Prop :=
  IsNumber s ∧ (s.head? = some '0' → s = ['0'])

def IsFraction (s : List Char) : Prop :=
  s = [] ∨ ∃ digits, IsNumber digits ∧ s = '.' :: digits

def IsExponent (s : List Char) : Prop :=
  s = [] ∨ ∃ mark sign digits, (mark = 'e' ∨ mark = 'E') ∧
    (sign = [] ∨ sign = ['+'] ∨ sign = ['-']) ∧ IsNumber digits ∧ s = mark :: (sign ++ digits)

def IsNumeral (s : List Char) : Prop :=
  ∃ sign whole fraction exponent, (sign = [] ∨ sign = ['-']) ∧ IsWholePart whole ∧
    IsFraction fraction ∧ IsExponent exponent ∧ s = sign ++ whole ++ fraction ++ exponent

/-! ## Strings -/

/-- Four hexadecimal digits and their value. -/
def IsUnit (digits : List Char) (unit : Nat) : Prop :=
  ∃ a b c d x y z w, digits = [a, b, c, d] ∧ hexValue? a = some x ∧ hexValue? b = some y ∧
    hexValue? c = some z ∧ hexValue? d = some w ∧ unit = ((x * 16 + y) * 16 + z) * 16 + w

/-- What may stand between two quotes for a content.  A character beyond the
basic plane may be given as a pair of surrogates; half a pair is never allowed. -/
inductive Quotes : List Char → List Char → Prop
  | nil : Quotes [] []
  | plain {c : Char} {content s : List Char} (hquote : c ≠ '"') (hbackslash : c ≠ '\\')
      (hcontrol : 0x20 ≤ c.toNat) (hrest : Quotes content s) : Quotes (c :: content) (c :: s)
  | short {c letter : Char} {content s : List Char} (hletter : shortEscape? letter = some c)
      (hrest : Quotes content s) : Quotes (c :: content) ('\\' :: letter :: s)
  | unit {digits content s : List Char} {unit : Nat} (hdigits : IsUnit digits unit)
      (hvalid : unit.isValidChar) (hrest : Quotes content s) :
      Quotes (Char.ofNat unit :: content) ('\\' :: 'u' :: (digits ++ s))
  | pair {digits digits' content s : List Char} {high low : Nat} (hhigh : IsUnit digits high)
      (hlow : IsUnit digits' low) (hhighRange : 0xD800 ≤ high ∧ high < 0xDC00)
      (hlowRange : 0xDC00 ≤ low ∧ low < 0xE000) (hrest : Quotes content s) :
      Quotes (Char.ofNat (0x10000 + (high - 0xD800) * 0x400 + (low - 0xDC00)) :: content)
        ('\\' :: 'u' :: (digits ++ '\\' :: 'u' :: (digits' ++ s)))

/-! ## Tokens and values -/

inductive Lexeme : Token → List Char → Prop
  | openBrace : Lexeme .openBrace ['\x7b']
  | closeBrace : Lexeme .closeBrace ['\x7d']
  | openBracket : Lexeme .openBracket ['[']
  | closeBracket : Lexeme .closeBracket [']']
  | colon : Lexeme .colon [':']
  | comma : Lexeme .comma [',']
  | null : Lexeme .null "null".toList
  | true : Lexeme (.bool true) "true".toList
  | false : Lexeme (.bool false) "false".toList
  | number {literal : String} (h : IsNumeral literal.toList) :
      Lexeme (.number literal) literal.toList
  | text {content : String} {s : List Char} (h : Quotes content.toList s) :
      Lexeme (.text content) ('"' :: (s ++ ['"']))

/-- A text of the tokens one after another, each as `spells` says, with blanks
before, between and behind them. -/
inductive Spaced (spells : Token → List Char → Prop) : List Token → List Char → Prop
  | nil {blanks : List Char} (hblanks : ∀ c ∈ blanks, isBlank c = true) : Spaced spells [] blanks
  | cons {token : Token} {tokens : List Token} {blanks lexeme s : List Char}
      (hblanks : ∀ c ∈ blanks, isBlank c = true) (hlexeme : spells token lexeme)
      (hrest : Spaced spells tokens s) : Spaced spells (token :: tokens) (blanks ++ (lexeme ++ s))

theorem Spaced.mono {spells spells' : Token → List Char → Prop} {tokens : List Token}
    {s : List Char} (h : Spaced spells tokens s)
    (hspells : ∀ token ∈ tokens, ∀ lexeme, spells token lexeme → spells' token lexeme) :
    Spaced spells' tokens s := by
  induction h with
  | nil hblanks => exact .nil hblanks
  | cons hblanks hlexeme _ ih =>
      rw [List.forall_mem_cons] at hspells
      exact .cons hblanks (hspells.1 _ hlexeme) (ih hspells.2)

/-- The tokens of one value. -/
inductive Grammatical : List Token → Prop
  | null : Grammatical [.null]
  | bool (b : Bool) : Grammatical [.bool b]
  | number (literal : String) : Grammatical [.number literal]
  | text (content : String) : Grammatical [.text content]
  | array {elements : List (List Token)} (h : ∀ value ∈ elements, Grammatical value) :
      Grammatical (array elements)
  | object {members : List (String × List Token)} (h : ∀ m ∈ members, Grammatical m.2) :
      Grammatical (object members)

/-- The text is JSON, and its value is the one with these tokens. -/
def Spells (text : String) (value : List Token) : Prop :=
  Grammatical value ∧ Spaced Lexeme value text.toList

def IsText (text : String) : Prop :=
  ∃ tokens, Grammatical tokens ∧ Spaced Lexeme tokens text.toList

/-! ## Values in a text -/

theorem passes_singleton {token : Token}
    (h : ∀ brackets, Place.next? ⟨brackets, .value⟩ token = some ⟨brackets, .separator⟩) :
    Passes [token] :=
  fun brackets _ _ => passValue?_cons_separator (h brackets) _ _

/-- A reader that passes over a value passes over all of it and no more. -/
theorem Grammatical.passes {value : List Token} (h : Grammatical value) : Passes value := by
  induction h with
  | null => exact passes_singleton fun _ => rfl
  | bool b => exact passes_singleton fun _ => rfl
  | number literal => exact passes_singleton fun _ => rfl
  | text content => exact passes_singleton fun _ => rfl
  | array _ ih => exact passes_array ih
  | object _ ih => exact passes_object ih

end BinaryMachine.Json
