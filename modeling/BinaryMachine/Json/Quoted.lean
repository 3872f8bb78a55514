/-!
JSON strings.  A written string escapes only what has to be escaped; a read one
may escape any character, characters beyond the basic plane as a pair of
surrogates.  Half a pair stands for no character: a string that holds one is
still a string to a reader that passes over it, but it has no content.  The main
statements say that the pieces of a written string are its characters.
-/

namespace BinaryMachine.Json

/-! ## Writing -/

def escape (c : Char) : List Char :=
  match c with
  | '"' => ['\\', '"']
  | '\\' => ['\\', '\\']
  | '\x08' => ['\\', 'b']
  | '\x0c' => ['\\', 'f']
  | '\n' => ['\\', 'n']
  | '\r' => ['\\', 'r']
  | '\t' => ['\\', 't']
  | c =>
      if c.toNat < 0x20 then
        ['\\', 'u', '0', '0', Nat.digitChar (c.toNat / 16), Nat.digitChar (c.toNat % 16)]
      else
        [c]

def quote (content : List Char) : List Char :=
  '"' :: content.flatMap escape ++ ['"']

/-! ## Reading -/

/-- A character of a string, or half of a surrogate pair. -/
inductive Piece where
  | char (c : Char)
  | high (unit : Nat)
  | low (unit : Nat)
  deriving DecidableEq, Repr

def Piece.ofUnit (unit : Nat) : Piece :=
  if 0xD800 ≤ unit ∧ unit < 0xDC00 then
    high unit
  else if 0xDC00 ≤ unit ∧ unit < 0xE000 then
    low unit
  else
    char (Char.ofNat unit)

def hexValue? (c : Char) : Option Nat :=
  if '0' ≤ c ∧ c ≤ '9' then
    some (c.toNat - '0'.toNat)
  else if 'a' ≤ c ∧ c ≤ 'f' then
    some (c.toNat - 'a'.toNat + 10)
  else if 'A' ≤ c ∧ c ≤ 'F' then
    some (c.toNat - 'A'.toNat + 10)
  else
    none

def shortEscape? : Char → Option Char
  | '"' => some '"'
  | '\\' => some '\\'
  | '/' => some '/'
  | 'b' => some '\x08'
  | 'f' => some '\x0c'
  | 'n' => some '\n'
  | 'r' => some '\r'
  | 't' => some '\t'
  | _ => none

/-- What the text behind a backslash stands for, and the text after it. -/
def unescape? : List Char → Option (Piece × List Char)
  | 'u' :: a :: b :: c :: d :: rest => do
      let a ← hexValue? a
      let b ← hexValue? b
      let c ← hexValue? c
      let d ← hexValue? d
      return (.ofUnit (((a * 16 + b) * 16 + c) * 16 + d), rest)
  | c :: rest => (shortEscape? c).map fun c => (.char c, rest)
  | [] => none

theorem unescape?_length {s rest : List Char} {piece : Piece}
    (h : unescape? s = some (piece, rest)) : rest.length < s.length := by
  unfold unescape? at h
  split at h
  · simp only [Option.bind_eq_bind, Option.bind_eq_some_iff, Option.pure_def,
      Option.some.injEq, Prod.mk.injEq] at h
    obtain ⟨_, _, _, _, _, _, _, _, _, rfl⟩ := h
    simp only [List.length_cons]
    omega
  · simp only [Option.map_eq_some_iff, Prod.mk.injEq] at h
    obtain ⟨_, _, _, rfl⟩ := h
    simp
  · cases h

/-- The pieces up to the closing quote, the last one first, and the text behind
it.  `read` holds the pieces read before. -/
def pieces? (read : List Piece) : List Char → Option (List Piece × List Char)
  | [] => none
  | c :: s =>
      if c = '"' then
        some (read, s)
      else if c = '\\' then
        match _h : unescape? s with
        | some (piece, rest) => pieces? (piece :: read) rest
        | none => none
      else if c.toNat < 0x20 then
        none
      else
        pieces? (.char c :: read) s
termination_by s => s.length
decreasing_by
  · have := unescape?_length _h
    simp only [List.length_cons]
    omega
  · simp

theorem pieces?_length {read all : List Piece} {s rest : List Char}
    (h : pieces? read s = some (all, rest)) : rest.length < s.length := by
  fun_induction pieces? read s with
  | case1 => cases h
  | case2 =>
      cases h
      simp
  | case3 read s piece rest' hpiece _ ih =>
      have := unescape?_length hpiece
      have := ih h
      simp only [List.length_cons]
      omega
  | case4 => cases h
  | case5 => cases h
  | case6 read c s _ _ _ ih =>
      have := ih h
      simp only [List.length_cons]
      omega

/-- The characters of a list of pieces given in reverse, in front of `after`,
unless half a pair is left over. -/
def characters? (after : List Char) : List Piece → Option (List Char)
  | [] => some after
  | .char c :: pieces => characters? (c :: after) pieces
  | .low low :: .high high :: pieces =>
      characters? (Char.ofNat (0x10000 + (high - 0xD800) * 0x400 + (low - 0xDC00)) :: after)
        pieces
  | _ => none

/-! ## Reading what was written -/

theorem hexValue?_digitChar : ∀ n < 16, hexValue? (Nat.digitChar n) = some n := by
  decide

theorem unescape?_control {c : Char} (h : c.toNat < 0x20) (s : List Char) :
    unescape? ('u' :: '0' :: '0' :: Nat.digitChar (c.toNat / 16) ::
      Nat.digitChar (c.toNat % 16) :: s) = some (.char c, s) := by
  have hzero : hexValue? '0' = some 0 := rfl
  have hhigh := hexValue?_digitChar (c.toNat / 16) (by omega)
  have hlow := hexValue?_digitChar (c.toNat % 16) (by omega)
  have hunit : c.toNat / 16 * 16 + c.toNat % 16 = c.toNat := by omega
  have hplain : ¬ 0xD800 ≤ c.toNat ∧ ¬ 0xDC00 ≤ c.toNat := by omega
  simp [unescape?, hzero, hhigh, hlow, hunit, Piece.ofUnit, hplain]

theorem pieces?_of_unescape? {read : List Piece} {s rest : List Char} {piece : Piece}
    (h : unescape? s = some (piece, rest)) :
    pieces? read ('\\' :: s) = pieces? (piece :: read) rest := by
  rw [pieces?]
  simp only [↓reduceIte, Char.reduceEq]
  split
  · next piece' rest' h' =>
      rw [h] at h'
      cases h'
      rfl
  · next h' =>
      rw [h] at h'
      cases h'

theorem pieces?_escape (read : List Piece) (c : Char) (s : List Char) :
    pieces? read (escape c ++ s) = pieces? (.char c :: read) s := by
  unfold escape
  split
  iterate 7 exact pieces?_of_unescape? rfl
  next hquote hbackslash _ _ _ _ _ =>
    split
    · next hcontrol => exact pieces?_of_unescape? (unescape?_control hcontrol s)
    · next hplain =>
        rw [List.singleton_append, pieces?, if_neg hquote, if_neg hbackslash, if_neg hplain]

theorem pieces?_flatMap_escape (read : List Piece) (content rest : List Char) :
    pieces? read (content.flatMap escape ++ '"' :: rest) =
      some ((content.map Piece.char).reverse ++ read, rest) := by
  induction content generalizing read with
  | nil => simp [pieces?]
  | cons c content ih =>
      rw [List.flatMap_cons, List.append_assoc, pieces?_escape, ih]
      simp

theorem characters?_char (content after : List Char) :
    characters? after (content.map Piece.char) = some (content.reverse ++ after) := by
  induction content generalizing after with
  | nil => rfl
  | cons c content ih => simp [characters?, ih]

end BinaryMachine.Json
