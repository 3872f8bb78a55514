import BinaryMachine.Json.Quoted

/-!
The tokens of a JSON text: how a text falls into tokens, and how a list of
tokens is written, without blanks or laid out in lines.
-/

namespace BinaryMachine.Json

inductive Token where
  | openBrace
  | closeBrace
  | openBracket
  | closeBracket
  | colon
  | comma
  | null
  | bool (b : Bool)
  | number (literal : String)
  | text (content : String)
  /-- A string with half a surrogate pair in it. -/
  | brokenText
  /-- The rest of a text from the first place on where no token stands. -/
  | invalid
  deriving DecidableEq, Repr

/-! ## Scanning -/

def isBlank (c : Char) : Bool :=
  c == ' ' || c == '\t' || c == '\n' || c == '\r'

def punctuation? : Char → Option Token
  | '\x7b' => some .openBrace
  | '\x7d' => some .closeBrace
  | '[' => some .openBracket
  | ']' => some .closeBracket
  | ':' => some .colon
  | ',' => some .comma
  | _ => none

def word? (word : List Char) (token : Token) (s : List Char) : Option (Token × List Char) :=
  if word.isPrefixOf s then some (token, s.drop word.length) else none

def digits? (s : List Char) : Option (List Char × List Char) :=
  match s.takeWhile Char.isDigit with
  | [] => none
  | digits => some (digits, s.dropWhile Char.isDigit)

/-- A zero stands alone; any other number begins with another digit. -/
def wholePart? : List Char → Option (List Char × List Char)
  | '0' :: s => some (['0'], s)
  | s => digits? s

def fraction? : List Char → Option (List Char × List Char)
  | '.' :: s => (digits? s).map fun (digits, rest) => ('.' :: digits, rest)
  | s => some ([], s)

def sign : List Char → List Char × List Char
  | '+' :: s => (['+'], s)
  | '-' :: s => (['-'], s)
  | s => ([], s)

def exponent? : List Char → Option (List Char × List Char)
  | [] => some ([], [])
  | c :: s =>
      if c = 'e' ∨ c = 'E' then
        (digits? (sign s).2).map fun (digits, rest) => (c :: (sign s).1 ++ digits, rest)
      else
        some ([], c :: s)

def minus : List Char → List Char × List Char
  | '-' :: s => (['-'], s)
  | s => ([], s)

def number? (s : List Char) : Option (Token × List Char) := do
  let (whole, s₁) ← wholePart? (minus s).2
  let (fraction, s₂) ← fraction? s₁
  let (exponent, s₃) ← exponent? s₂
  return (.number (String.ofList ((minus s).1 ++ whole ++ fraction ++ exponent)), s₃)

def string? (s : List Char) : Option (Token × List Char) := do
  let (pieces, rest) ← pieces? [] s
  match characters? [] pieces with
  | some content => return (.text (String.ofList content), rest)
  | none => return (.brokenText, rest)

theorem string?_quoted (content rest : List Char) :
    string? (content.flatMap escape ++ '"' :: rest) =
      some (.text (String.ofList content), rest) := by
  simp [string?, pieces?_flatMap_escape, ← List.map_reverse, characters?_char]

/-- The token at the start of a text that does not start with a blank. -/
def token? : List Char → Option (Token × List Char)
  | [] => none
  | c :: s =>
      match punctuation? c with
      | some token => some (token, s)
      | none =>
          match c with
          | '"' => string? s
          | 'n' => word? "ull".toList .null s
          | 't' => word? "rue".toList (.bool true) s
          | 'f' => word? "alse".toList (.bool false) s
          | _ => number? (c :: s)

theorem word?_length {word s rest : List Char} {token result : Token}
    (h : word? word token s = some (result, rest)) : rest.length ≤ s.length := by
  unfold word? at h
  split at h <;> cases h
  simp

theorem digits?_length {s digits rest : List Char}
    (h : digits? s = some (digits, rest)) : rest.length < s.length := by
  have hsplit := congrArg List.length
    (List.takeWhile_append_dropWhile (p := Char.isDigit) (l := s))
  rw [List.length_append] at hsplit
  unfold digits? at h
  split at h
  · cases h
  · next hne =>
      cases h
      have := List.length_pos_iff.2 hne
      omega

theorem wholePart?_length {s whole rest : List Char}
    (h : wholePart? s = some (whole, rest)) : rest.length < s.length := by
  unfold wholePart? at h
  split at h
  · cases h
    simp
  · exact digits?_length h

theorem fraction?_length {s fraction rest : List Char}
    (h : fraction? s = some (fraction, rest)) : rest.length ≤ s.length := by
  unfold fraction? at h
  split at h
  · simp only [Option.map_eq_some_iff, Prod.mk.injEq, Prod.exists] at h
    obtain ⟨_, _, hdigits, _, rfl⟩ := h
    have := digits?_length hdigits
    simp only [List.length_cons]
    omega
  · cases h
    exact Nat.le_refl _

theorem sign_length (s : List Char) : (sign s).2.length ≤ s.length := by
  unfold sign
  split <;> simp

theorem minus_length (s : List Char) : (minus s).2.length ≤ s.length := by
  unfold minus
  split <;> simp

theorem exponent?_length {s exponent rest : List Char}
    (h : exponent? s = some (exponent, rest)) : rest.length ≤ s.length := by
  unfold exponent? at h
  split at h
  · cases h
    exact Nat.le_refl _
  · split at h
    · next s _ =>
        simp only [Option.map_eq_some_iff, Prod.mk.injEq, Prod.exists] at h
        obtain ⟨_, _, hdigits, _, rfl⟩ := h
        have := digits?_length hdigits
        have := sign_length s
        simp only [List.length_cons]
        omega
    · cases h
      exact Nat.le_refl _

theorem number?_length {s rest : List Char} {token : Token}
    (h : number? s = some (token, rest)) : rest.length < s.length := by
  simp only [number?, Option.bind_eq_bind, Option.bind_eq_some_iff, Option.pure_def,
    Option.some.injEq, Prod.mk.injEq, Prod.exists] at h
  obtain ⟨_, _, hwhole, _, _, hfraction, _, _, hexponent, _, rfl⟩ := h
  have := minus_length s
  have := wholePart?_length hwhole
  have := fraction?_length hfraction
  have := exponent?_length hexponent
  omega

theorem string?_length {s rest : List Char} {token : Token}
    (h : string? s = some (token, rest)) : rest.length < s.length := by
  simp only [string?, Option.bind_eq_bind, Option.bind_eq_some_iff, Prod.exists] at h
  obtain ⟨pieces, rest', hpieces, h⟩ := h
  have := pieces?_length hpieces
  split at h <;> cases h <;> exact this

theorem token?_length {s rest : List Char} {token : Token}
    (h : token? s = some (token, rest)) : rest.length < s.length := by
  unfold token? at h
  split at h
  · cases h
  · split at h
    · cases h
      simp
    · split at h
      · have := string?_length h
        simp only [List.length_cons]
        omega
      · have := word?_length h
        simp only [List.length_cons]
        omega
      · have := word?_length h
        simp only [List.length_cons]
        omega
      · have := word?_length h
        simp only [List.length_cons]
        omega
      · exact number?_length h

/-- The tokens of a text behind those in `read`, which are given in reverse. -/
def scanOnto (read : List Token) : List Char → List Token
  | [] => read.reverse
  | c :: s =>
      if isBlank c then
        scanOnto read s
      else
        match _h : token? (c :: s) with
        | some (token, rest) => scanOnto (token :: read) rest
        | none => (.invalid :: read).reverse
termination_by s => s.length
decreasing_by
  · simp
  · exact token?_length _h

def scan (text : String) : List Token :=
  scanOnto [] text.toList

/-! ## Writing without blanks -/

/-- Tokens that no text is written with have no spelling. -/
def Token.spelling : Token → String
  | openBrace => "\x7b"
  | closeBrace => "\x7d"
  | openBracket => "["
  | closeBracket => "]"
  | colon => ":"
  | comma => ","
  | null => "null"
  | bool true => "true"
  | bool false => "false"
  | number literal => literal
  | text content => String.ofList (quote content.toList)
  | brokenText => ""
  | invalid => ""

def compact (tokens : List Token) : String :=
  String.join (tokens.map Token.spelling)

/-! ## Writing in lines -/

def Token.opens : Token → Bool
  | openBrace | openBracket => true
  | _ => false

def Token.closes : Token → Bool
  | closeBrace | closeBracket => true
  | _ => false

def newline (depth : Nat) : String :=
  String.ofList ('\n' :: List.replicate (2 * depth) ' ')

/-- The blanks between two tokens.  `depth` counts the brackets that are open
around the second one. -/
def gap (before : Option Token) (token : Token) (depth : Nat) : String :=
  match before with
  | none => ""
  | some before =>
      if before.opens then
        if token.closes then "" else newline depth
      else if token.closes || before == .comma then
        newline depth
      else if before == .colon then
        " "
      else
        ""

/-- A part of a token list laid out: its last token, the brackets left open,
and the written pieces, the last one first. -/
structure Layout where
  before : Option Token
  depth : Nat
  written : List String

namespace Layout

def start : Layout :=
  ⟨none, 0, []⟩

def add (layout : Layout) (token : Token) : Layout :=
  let depth := if token.closes then layout.depth - 1 else layout.depth
  ⟨some token, if token.opens then depth + 1 else depth,
    (gap layout.before token depth ++ token.spelling) :: layout.written⟩

end Layout

/-- Every member and every element on a line of its own, indented by two
blanks a level; empty brackets stay together. -/
def pretty (tokens : List Token) : String :=
  String.join (tokens.foldl Layout.add Layout.start).written.reverse

end BinaryMachine.Json
