import Mathlib.Data.List.Chain
import Mathlib.Tactic.IntervalCases
import BinaryMachine.Proofs.Json.Grammar
import BinaryMachine.Proofs.StateId.Value

/-!
# The scanner and the grammar

What the scanner takes for a token is a lexeme of that token.  Conversely every lexeme
is taken for its token and no more is taken, since nothing that may stand behind a
lexeme goes on with it; only a number could go on with another number, and in a value
no two numbers meet.  So the texts of a value are exactly those that fall into its
tokens, and a text is the text of one value at most.
-/

namespace BinaryMachine.Json

/-! ## Numbers -/

/-- The character cannot go on with a number. -/
def endsNumber (c : Char) : Bool :=
  !c.isDigit && c != '.' && c != 'e' && c != 'E'

theorem isDigit_of_endsNumber {rest : List Char} (hrest : ∀ c ∈ rest.head?, endsNumber c = true) :
    ∀ c ∈ rest.head?, c.isDigit = false := by
  intro c hc
  have hends := hrest c hc
  simp [endsNumber] at hends
  simp [hends]

theorem endsNumber_of_isBlank {c : Char} (h : isBlank c = true) : endsNumber c = true := by
  simp [isBlank] at h
  rcases h with ((rfl | rfl) | rfl) | rfl <;> decide

theorem isWholePart_and_append_of_wholePart? {s whole rest : List Char}
    (h : wholePart? s = some (whole, rest)) : IsWholePart whole ∧ s = whole ++ rest := by
  unfold wholePart? at h
  split at h
  · cases h
    exact ⟨⟨⟨by simp, by simp [Char.isDigit]⟩, fun _ => rfl⟩, rfl⟩
  · next hzero =>
      rcases digits?_eq_some_iff.1 h with ⟨hdigits, happend, -⟩
      refine ⟨⟨hdigits, ?_⟩, happend⟩
      intro hhead
      rcases List.head?_eq_some_iff.1 hhead with ⟨digits, rfl⟩
      exact absurd happend (hzero _)

theorem wholePart?_append {whole rest : List Char} (h : IsWholePart whole)
    (hrest : ∀ c ∈ rest.head?, c.isDigit = false) :
    wholePart? (whole ++ rest) = some (whole, rest) := by
  unfold wholePart?
  split
  · next s hzero =>
      rcases List.exists_cons_of_ne_nil h.1.1 with ⟨c, digits, rfl⟩
      cases hzero
      cases h.2 rfl
      rfl
  · exact digits?_eq_some_iff.2 ⟨h.1, rfl, hrest⟩

theorem isFraction_and_append_of_fraction? {s fraction rest : List Char}
    (h : fraction? s = some (fraction, rest)) : IsFraction fraction ∧ s = fraction ++ rest := by
  unfold fraction? at h
  split at h
  · simp only [Option.map_eq_some_iff, Prod.mk.injEq, Prod.exists] at h
    rcases h with ⟨digits, _, hdigits, rfl, rfl⟩
    rcases digits?_eq_some_iff.1 hdigits with ⟨hform, rfl, -⟩
    exact ⟨.inr ⟨digits, hform, rfl⟩, rfl⟩
  · cases h
    exact ⟨.inl rfl, rfl⟩

theorem fraction?_append {fraction rest : List Char} (h : IsFraction fraction)
    (hdigit : ∀ c ∈ rest.head?, c.isDigit = false) (hpoint : ∀ c ∈ rest.head?, c ≠ '.') :
    fraction? (fraction ++ rest) = some (fraction, rest) := by
  rcases h with rfl | ⟨digits, hdigits, rfl⟩
  · unfold fraction?
    split
    · next hpointed =>
        rw [List.nil_append] at hpointed
        exact absurd rfl (hpoint '.' (by rw [hpointed]; rfl))
    · rfl
  · simp [fraction?, digits?_eq_some_iff.2 ⟨hdigits, rfl, hdigit⟩]

theorem isExponent_and_append_of_exponent? {s exponent rest : List Char}
    (h : exponent? s = some (exponent, rest)) : IsExponent exponent ∧ s = exponent ++ rest := by
  unfold exponent? at h
  split at h
  · cases h
    exact ⟨.inl rfl, rfl⟩
  · next mark s =>
      split at h
      · next hmark =>
          simp only [Option.map_eq_some_iff, Prod.mk.injEq, Prod.exists] at h
          rcases h with ⟨digits, _, hdigits, rfl, rfl⟩
          rcases digits?_eq_some_iff.1 hdigits with ⟨hform, hrest, -⟩
          have hsign : ((sign s).1 = [] ∨ (sign s).1 = ['+'] ∨ (sign s).1 = ['-']) ∧
              s = (sign s).1 ++ (sign s).2 := by
            unfold sign
            split <;> simp
          refine ⟨.inr ⟨mark, (sign s).1, digits, hmark, hsign.1, hform, rfl⟩, ?_⟩
          conv_lhs => rw [hsign.2, hrest]
          simp
      · cases h
        exact ⟨.inl rfl, rfl⟩

theorem sign_append {digits rest : List Char} (h : IsNumber digits) {s : List Char}
    (hs : s = [] ∨ s = ['+'] ∨ s = ['-']) :
    sign (s ++ (digits ++ rest)) = (s, digits ++ rest) := by
  rcases hs with rfl | rfl | rfl
  · rcases List.exists_cons_of_ne_nil h.1 with ⟨c, digits, rfl⟩
    have hc := h.2 c List.mem_cons_self
    unfold sign
    split
    · next hplus =>
        cases hplus
        contradiction
    · next hminus =>
        cases hminus
        contradiction
    · rfl
  · rfl
  · rfl

theorem exponent?_of_endsNumber {rest : List Char}
    (hrest : ∀ c ∈ rest.head?, endsNumber c = true) : exponent? rest = some ([], rest) := by
  cases rest with
  | nil => rfl
  | cons c rest =>
      have hc := hrest c rfl
      simp [endsNumber] at hc
      simp [exponent?, hc]

theorem exponent?_append {exponent rest : List Char} (h : IsExponent exponent)
    (hrest : ∀ c ∈ rest.head?, endsNumber c = true) :
    exponent? (exponent ++ rest) = some (exponent, rest) := by
  rcases h with rfl | ⟨mark, s, digits, hmark, hs, hdigits, rfl⟩
  · exact exponent?_of_endsNumber hrest
  · simp [exponent?, hmark, sign_append hdigits hs,
      digits?_eq_some_iff.2 ⟨hdigits, rfl, isDigit_of_endsNumber hrest⟩]

/-- Behind the digits of a number there may be the mark of its exponent. -/
theorem head_exponent_append {exponent rest : List Char} (h : IsExponent exponent)
    (hrest : ∀ c ∈ rest.head?, endsNumber c = true) :
    ∀ c ∈ (exponent ++ rest).head?, c.isDigit = false ∧ c ≠ '.' := by
  rcases h with rfl | ⟨mark, s, digits, hmark, -, -, rfl⟩
  · intro c hc
    have hends := hrest c hc
    simp [endsNumber] at hends
    exact ⟨hends.1.1.1, hends.1.1.2⟩
  · rintro c ⟨⟩
    rcases hmark with rfl | rfl <;> decide

/-- Behind the digits of a number there may be a point. -/
theorem head_fraction_append {fraction rest : List Char} (h : IsFraction fraction)
    (hrest : ∀ c ∈ rest.head?, c.isDigit = false) :
    ∀ c ∈ (fraction ++ rest).head?, c.isDigit = false := by
  rcases h with rfl | ⟨digits, -, rfl⟩
  · exact hrest
  · rintro c ⟨⟩
    decide

theorem minus_append {whole rest : List Char} (h : IsWholePart whole) {s : List Char}
    (hs : s = [] ∨ s = ['-']) : minus (s ++ (whole ++ rest)) = (s, whole ++ rest) := by
  rcases hs with rfl | rfl
  · rcases List.exists_cons_of_ne_nil h.1.1 with ⟨c, digits, rfl⟩
    have hc := h.1.2 c List.mem_cons_self
    unfold minus
    split
    · next hminus =>
        cases hminus
        contradiction
    · rfl
  · rfl

theorem isNumeral_and_append_of_number? {s rest : List Char} {token : Token}
    (h : number? s = some (token, rest)) :
    ∃ literal, IsNumeral literal ∧ s = literal ++ rest ∧
      token = .number (String.ofList literal) := by
  simp only [number?, Option.bind_eq_bind, Option.bind_eq_some_iff, Option.pure_def,
    Option.some.injEq, Prod.mk.injEq, Prod.exists] at h
  rcases h with ⟨whole, s₁, hwhole, fraction, s₂, hfraction, exponent, s₃, hexponent, rfl, rfl⟩
  rcases isWholePart_and_append_of_wholePart? hwhole with ⟨hwholeForm, hs⟩
  rcases isFraction_and_append_of_fraction? hfraction with ⟨hfractionForm, rfl⟩
  rcases isExponent_and_append_of_exponent? hexponent with ⟨hexponentForm, rfl⟩
  have hminus : ((minus s).1 = [] ∨ (minus s).1 = ['-']) ∧ s = (minus s).1 ++ (minus s).2 := by
    unfold minus
    split <;> simp
  refine ⟨_, ⟨(minus s).1, whole, fraction, exponent, hminus.1, hwholeForm, hfractionForm,
    hexponentForm, rfl⟩, ?_, rfl⟩
  conv_lhs => rw [hminus.2, hs]
  simp

theorem number?_append {literal rest : List Char} (h : IsNumeral literal)
    (hrest : ∀ c ∈ rest.head?, endsNumber c = true) :
    number? (literal ++ rest) = some (.number (String.ofList literal), rest) := by
  rcases h with ⟨s, whole, fraction, exponent, hs, hwhole, hfraction, hexponent, rfl⟩
  have hbehind := head_exponent_append hexponent hrest
  have hdigit := fun c hc => (hbehind c hc).1
  simp [number?, minus_append hwhole hs,
    wholePart?_append hwhole (head_fraction_append hfraction hdigit),
    fraction?_append hfraction hdigit (fun c hc => (hbehind c hc).2),
    exponent?_append hexponent hrest]

/-! ## Strings -/

theorem hexValue?_lt {c : Char} {n : Nat} (h : hexValue? c = some n) : n < 16 := by
  simp only [hexValue?, Char.le_def, UInt32.le_iff_toNat_le, Char.toNat, Char.reduceVal,
    UInt32.reduceToNat] at h
  split at h
  · cases h
    omega
  split at h
  · cases h
    omega
  split at h
  · cases h
    omega
  · contradiction

theorem IsUnit.lt {digits : List Char} {unit : Nat} (h : IsUnit digits unit) :
    unit < 0x10000 := by
  rcases h with ⟨a, b, c, d, x, y, z, w, -, ha, hb, hc, hd, rfl⟩
  have := hexValue?_lt ha
  have := hexValue?_lt hb
  have := hexValue?_lt hc
  have := hexValue?_lt hd
  omega

/-- One character of a string as it may be written, or half of a pair. -/
inductive PieceText : Piece → List Char → Prop
  | plain {c : Char} (hquote : c ≠ '"') (hbackslash : c ≠ '\\') (hcontrol : 0x20 ≤ c.toNat) :
      PieceText (.char c) [c]
  | short {c letter : Char} (hletter : shortEscape? letter = some c) :
      PieceText (.char c) ['\\', letter]
  | unit {piece : Piece} {digits : List Char} {unit : Nat} (hdigits : IsUnit digits unit)
      (hpiece : piece = .ofUnit unit) : PieceText piece ('\\' :: 'u' :: digits)

/-- The pieces of a text, the last one first. -/
inductive PiecesText : List Piece → List Char → Prop
  | nil : PiecesText [] []
  | snoc {piece : Piece} {pieces : List Piece} {s t : List Char} (hpieces : PiecesText pieces s)
      (hpiece : PieceText piece t) : PiecesText (piece :: pieces) (s ++ t)

theorem pieceText_of_unescape? {s rest : List Char} {piece : Piece}
    (h : unescape? s = some (piece, rest)) :
    ∃ t, s = t ++ rest ∧ PieceText piece ('\\' :: t) := by
  unfold unescape? at h
  split at h
  · next a b c d rest' =>
      simp only [Option.bind_eq_bind, Option.bind_eq_some_iff, Option.pure_def,
        Option.some.injEq, Prod.mk.injEq] at h
      rcases h with ⟨x, hx, y, hy, z, hz, w, hw, rfl, rfl⟩
      exact ⟨['u', a, b, c, d], rfl,
        .unit ⟨a, b, c, d, x, y, z, w, rfl, hx, hy, hz, hw, rfl⟩ rfl⟩
  · next letter rest' _ =>
      simp only [Option.map_eq_some_iff, Prod.mk.injEq] at h
      rcases h with ⟨c, hletter, rfl, rfl⟩
      exact ⟨[letter], rfl, .short hletter⟩
  · contradiction

theorem piecesText_of_pieces? {read all : List Piece} {s rest : List Char}
    (h : pieces? read s = some (all, rest)) {before : List Char} (hread : PiecesText read before) :
    ∃ t, s = t ++ '"' :: rest ∧ PiecesText all (before ++ t) := by
  fun_induction pieces? read s generalizing before with
  | case1 => contradiction
  | case2 read s =>
      cases h
      exact ⟨[], rfl, by rwa [List.append_nil]⟩
  | case3 read s piece rest' hpiece _ ih =>
      rcases pieceText_of_unescape? hpiece with ⟨t, rfl, htext⟩
      rcases ih h (.snoc hread htext) with ⟨t', rfl, hall⟩
      exact ⟨'\\' :: t ++ t', by simp, by simpa using hall⟩
  | case4 => contradiction
  | case5 => contradiction
  | case6 read c s hquote hbackslash hcontrol ih =>
      rcases ih h (.snoc hread (.plain hquote hbackslash (Nat.not_lt.1 hcontrol))) with
        ⟨t', rfl, hall⟩
      exact ⟨c :: t', rfl, by simpa using hall⟩

theorem Quotes.append {content content' s t : List Char} (h : Quotes content s)
    (h' : Quotes content' t) : Quotes (content ++ content') (s ++ t) := by
  induction h with
  | nil => exact h'
  | plain hquote hbackslash hcontrol _ ih => exact .plain hquote hbackslash hcontrol ih
  | short hletter _ ih => exact .short hletter ih
  | unit hdigits hvalid _ ih =>
      have hunit := Quotes.unit hdigits hvalid ih
      simpa using hunit
  | pair hhigh hlow hhighRange hlowRange _ ih =>
      have hpair := Quotes.pair hhigh hlow hhighRange hlowRange ih
      simpa using hpair

theorem Piece.ofUnit_eq_high {unit high : Nat} (h : Piece.high high = .ofUnit unit) :
    high = unit ∧ 0xD800 ≤ high ∧ high < 0xDC00 := by
  unfold Piece.ofUnit at h
  split at h
  · cases h
    exact ⟨rfl, by assumption⟩
  · split at h <;> contradiction

theorem Piece.ofUnit_eq_low {unit low : Nat} (h : Piece.low low = .ofUnit unit) :
    low = unit ∧ 0xDC00 ≤ low ∧ low < 0xE000 := by
  unfold Piece.ofUnit at h
  split at h
  · contradiction
  · split at h
    · cases h
      exact ⟨rfl, by assumption⟩
    · contradiction

theorem Piece.ofUnit_eq_char {unit : Nat} {c : Char} (h : Piece.char c = .ofUnit unit)
    (hlt : unit < 0x10000) : c = Char.ofNat unit ∧ unit.isValidChar := by
  unfold Piece.ofUnit at h
  split at h
  · contradiction
  · split at h
    · contradiction
    · cases h
      refine ⟨rfl, ?_⟩
      unfold Nat.isValidChar
      omega

theorem PieceText.quotes {c : Char} {t : List Char} (h : PieceText (.char c) t) :
    Quotes [c] t := by
  cases h with
  | plain hquote hbackslash hcontrol => exact .plain hquote hbackslash hcontrol .nil
  | short hletter => exact .short hletter .nil
  | @unit _ digits unit hdigits hpiece =>
      rcases Piece.ofUnit_eq_char hpiece hdigits.lt with ⟨rfl, hvalid⟩
      have hunit := Quotes.unit hdigits hvalid .nil
      rwa [List.append_nil] at hunit

theorem quotes_pair {high low : Nat} {s t : List Char} (hhigh : PieceText (.high high) s)
    (hlow : PieceText (.low low) t) :
    Quotes [Char.ofNat (0x10000 + (high - 0xD800) * 0x400 + (low - 0xDC00))] (s ++ t) := by
  cases hhigh with
  | @unit _ digits unit hdigits hpiece =>
      rcases Piece.ofUnit_eq_high hpiece with ⟨rfl, hhighRange⟩
      cases hlow with
      | @unit _ digits' unit' hdigits' hpiece' =>
          rcases Piece.ofUnit_eq_low hpiece' with ⟨rfl, hlowRange⟩
          have hpair := Quotes.pair hdigits hdigits' hhighRange hlowRange .nil
          simpa using hpair

theorem quotes_of_characters? {after content : List Char} {pieces : List Piece} {s : List Char}
    (h : characters? after pieces = some content) (hpieces : PiecesText pieces s) :
    ∃ front, content = front ++ after ∧ Quotes front s := by
  fun_induction characters? after pieces generalizing s with
  | case1 after =>
      cases h
      cases hpieces
      exact ⟨[], rfl, .nil⟩
  | case2 after c pieces ih =>
      cases hpieces with
      | snoc hrest hpiece =>
          rcases ih h hrest with ⟨front, rfl, hfront⟩
          exact ⟨front ++ [c], by simp, hfront.append hpiece.quotes⟩
  | case3 after low high pieces ih =>
      cases hpieces with
      | snoc hrest hlow =>
          cases hrest with
          | snoc hrest hhigh =>
              rcases ih h hrest with ⟨front, rfl, hfront⟩
              have hall := hfront.append (quotes_pair hhigh hlow)
              exact ⟨_, (List.append_assoc front [_] after).symm, by rwa [List.append_assoc]⟩
  | case4 => contradiction

theorem quotes_of_string? {s rest : List Char} {content : String}
    (h : string? s = some (.text content, rest)) :
    ∃ t, s = t ++ '"' :: rest ∧ Quotes content.toList t := by
  simp only [string?, Option.bind_eq_bind, Option.bind_eq_some_iff, Prod.exists] at h
  rcases h with ⟨pieces, rest', hpieces, h⟩
  rcases piecesText_of_pieces? hpieces .nil with ⟨t, rfl, htext⟩
  split at h
  · next characters hcharacters =>
      cases h
      rcases quotes_of_characters? hcharacters htext with ⟨front, rfl, hfront⟩
      exact ⟨t, rfl, by simpa using hfront⟩
  · cases h

theorem unescape?_short {c letter : Char} (h : shortEscape? letter = some c) (s : List Char) :
    unescape? (letter :: s) = some (.char c, s) := by
  unfold unescape?
  split
  · next hunit =>
      cases hunit
      contradiction
  · next hother =>
      cases hother
      rw [h]
      rfl
  · contradiction

theorem unescape?_unit {digits : List Char} {unit : Nat} (h : IsUnit digits unit)
    (s : List Char) : unescape? ('u' :: (digits ++ s)) = some (.ofUnit unit, s) := by
  rcases h with ⟨a, b, c, d, x, y, z, w, rfl, ha, hb, hc, hd, rfl⟩
  simp [unescape?, ha, hb, hc, hd]

theorem ofUnit_of_isValidChar {unit : Nat} (h : unit.isValidChar) :
    Piece.ofUnit unit = .char (Char.ofNat unit) := by
  unfold Nat.isValidChar at h
  rw [Piece.ofUnit, if_neg (by omega), if_neg (by omega)]

theorem ofUnit_of_high {unit : Nat} (h : 0xD800 ≤ unit ∧ unit < 0xDC00) :
    Piece.ofUnit unit = .high unit := by
  rw [Piece.ofUnit, if_pos h]

theorem ofUnit_of_low {unit : Nat} (h : 0xDC00 ≤ unit ∧ unit < 0xE000) :
    Piece.ofUnit unit = .low unit := by
  rw [Piece.ofUnit, if_neg (by omega), if_pos h]

/-- A quoted content is read in pieces, and these are put together to it. -/
theorem Quotes.exists_pieces {content s : List Char} (h : Quotes content s) :
    ∃ pieces : List Piece,
      (∀ read rest, pieces? read (s ++ '"' :: rest) = some (pieces ++ read, rest)) ∧
      ∀ after read, characters? after (pieces ++ read) = characters? (content ++ after) read := by
  induction h with
  | nil => exact ⟨[], fun _ _ => by simp [pieces?], fun _ _ => rfl⟩
  | @plain c content s hquote hbackslash hcontrol _ ih =>
      rcases ih with ⟨pieces, hread, hcharacters⟩
      refine ⟨pieces ++ [.char c], ?_, ?_⟩
      · intro read rest
        rw [List.cons_append, pieces?, if_neg hquote, if_neg hbackslash,
          if_neg (Nat.not_lt.2 hcontrol), hread]
        simp
      · intro after read
        rw [List.append_assoc, hcharacters]
        rfl
  | @short c letter content s hletter _ ih =>
      rcases ih with ⟨pieces, hread, hcharacters⟩
      refine ⟨pieces ++ [.char c], ?_, ?_⟩
      · intro read rest
        rw [List.cons_append, List.cons_append, pieces?_of_unescape? (unescape?_short hletter _),
          hread]
        simp
      · intro after read
        rw [List.append_assoc, hcharacters]
        rfl
  | @unit digits content s unit hdigits hvalid _ ih =>
      rcases ih with ⟨pieces, hread, hcharacters⟩
      refine ⟨pieces ++ [.char (Char.ofNat unit)], ?_, ?_⟩
      · intro read rest
        rw [List.cons_append, List.cons_append, List.append_assoc,
          pieces?_of_unescape? (unescape?_unit hdigits _), ofUnit_of_isValidChar hvalid, hread]
        simp
      · intro after read
        rw [List.append_assoc, hcharacters]
        rfl
  | @pair digits digits' content s high low hhigh hlow hhighRange hlowRange _ ih =>
      rcases ih with ⟨pieces, hread, hcharacters⟩
      refine ⟨pieces ++ [.low low, .high high], ?_, ?_⟩
      · intro read rest
        simp only [List.cons_append, List.append_assoc]
        rw [pieces?_of_unescape? (unescape?_unit hhigh _),
          pieces?_of_unescape? (unescape?_unit hlow _), ofUnit_of_high hhighRange,
          ofUnit_of_low hlowRange, hread]
        simp
      · intro after read
        rw [List.append_assoc, hcharacters]
        rfl

theorem string?_of_quotes {content s : List Char} (h : Quotes content s) (rest : List Char) :
    string? (s ++ '"' :: rest) = some (.text (String.ofList content), rest) := by
  rcases h.exists_pieces with ⟨pieces, hread, hcharacters⟩
  have hwhole := hcharacters [] []
  rw [List.append_nil, List.append_nil] at hwhole
  simp [string?, hread, hwhole, characters?]

/-! ## Tokens -/

theorem append_of_word? {word s rest : List Char} {token result : Token}
    (h : word? word token s = some (result, rest)) : result = token ∧ s = word ++ rest := by
  unfold word? at h
  split at h
  · next hword =>
      cases h
      rcases List.isPrefixOf_iff_prefix.1 hword with ⟨rest, rfl⟩
      exact ⟨rfl, by simp⟩
  · contradiction

theorem lexeme_of_punctuation? {c : Char} {token : Token} (h : punctuation? c = some token) :
    Lexeme token [c] := by
  unfold punctuation? at h
  split at h
  iterate 6
    cases h
    constructor
  contradiction

/-- What is taken for a token is one of its lexemes. -/
theorem lexeme_of_token? {s rest : List Char} {token : Token}
    (h : token? s = some (token, rest)) (hcontent : token ≠ .brokenText) :
    ∃ lexeme, s = lexeme ++ rest ∧ Lexeme token lexeme := by
  unfold token? at h
  split at h
  · contradiction
  · next c s =>
      split at h
      · next hpunctuation =>
          cases h
          exact ⟨[c], rfl, lexeme_of_punctuation? hpunctuation⟩
      · split at h
        · have hstring := h
          simp only [string?, Option.bind_eq_bind, Option.bind_eq_some_iff, Prod.exists] at h
          rcases h with ⟨pieces, rest', -, h⟩
          split at h
          · cases h
            rcases quotes_of_string? hstring with ⟨t, rfl, ht⟩
            exact ⟨'"' :: (t ++ ['"']), by simp, .text ht⟩
          · cases h
            exact absurd rfl hcontent
        · rcases append_of_word? h with ⟨rfl, rfl⟩
          exact ⟨"null".toList, rfl, .null⟩
        · rcases append_of_word? h with ⟨rfl, rfl⟩
          exact ⟨"true".toList, rfl, .true⟩
        · rcases append_of_word? h with ⟨rfl, rfl⟩
          exact ⟨"false".toList, rfl, .false⟩
        · rcases isNumeral_and_append_of_number? h with ⟨literal, hliteral, happend, rfl⟩
          have hlexeme : Lexeme (.number (String.ofList literal)) (String.ofList literal).toList :=
            .number (by rwa [String.toList_ofList])
          rw [String.toList_ofList] at hlexeme
          exact ⟨literal, happend, hlexeme⟩

theorem token?_of_isDigit {c : Char} (hc : c.isDigit = true) (s : List Char) :
    token? (c :: s) = number? (c :: s) := by
  obtain ⟨d, hd, rfl⟩ := StateId.exists_digitChar hc
  interval_cases d <;> rfl

def Token.isNumber : Token → Bool
  | number _ => true
  | _ => false

theorem head_isNumeral {literal : List Char} (h : IsNumeral literal) :
    ∃ c rest, literal = c :: rest ∧ (c = '-' ∨ c.isDigit = true) := by
  rcases h with ⟨s, whole, fraction, exponent, hs, hwhole, -, -, rfl⟩
  rcases hs with rfl | rfl
  · rcases List.exists_cons_of_ne_nil hwhole.1.1 with ⟨c, digits, rfl⟩
    exact ⟨c, digits ++ fraction ++ exponent, rfl, .inr (hwhole.1.2 c List.mem_cons_self)⟩
  · exact ⟨'-', whole ++ fraction ++ exponent, rfl, .inl rfl⟩

/-- A lexeme is taken for its token; a number is if nothing goes on with it. -/
theorem token?_append {token : Token} {lexeme rest : List Char} (h : Lexeme token lexeme)
    (hrest : token.isNumber = true → ∀ c ∈ rest.head?, endsNumber c = true) :
    token? (lexeme ++ rest) = some (token, rest) := by
  cases h with
  | @number literal hliteral =>
      have hnumber := number?_append hliteral (hrest rfl)
      rw [String.ofList_toList] at hnumber
      rcases head_isNumeral hliteral with ⟨c, s, hhead, hc⟩
      rw [hhead, List.cons_append] at hnumber ⊢
      rcases hc with rfl | hdigit
      · exact hnumber
      · rw [token?_of_isDigit hdigit, hnumber]
  | @text content s hquotes =>
      have hstring := string?_of_quotes hquotes rest
      rw [String.ofList_toList] at hstring
      simp [token?, punctuation?, hstring]
  | _ => simp [token?, punctuation?, word?]

theorem isBlank_head_lexeme {token : Token} {lexeme : List Char} (h : Lexeme token lexeme) :
    ∀ c ∈ lexeme.head?, isBlank c = false := by
  cases h with
  | @number literal hliteral =>
      rcases head_isNumeral hliteral with ⟨c, s, hhead, hc⟩
      rw [hhead]
      rintro c ⟨⟩
      rcases hc with rfl | hdigit
      · decide
      · rcases StateId.exists_digitChar hdigit with ⟨d, hd, rfl⟩
        interval_cases d <;> rfl
  | _ => simp [isBlank]

theorem endsNumber_head_lexeme {token : Token} {lexeme : List Char} (h : Lexeme token lexeme)
    (hnumber : token.isNumber = false) (s : List Char) :
    ∀ c ∈ (lexeme ++ s).head?, endsNumber c = true := by
  cases h with
  | number => contradiction
  | _ => simp [endsNumber]

/-! ## Texts -/

theorem scanOnto_blanks (read : List Token) {blanks : List Char}
    (h : ∀ c ∈ blanks, isBlank c = true) (s : List Char) :
    scanOnto read (blanks ++ s) = scanOnto read s := by
  induction blanks with
  | nil => rfl
  | cons c blanks ih =>
      rw [List.forall_mem_cons] at h
      rw [List.cons_append, scanOnto, if_pos h.1, ih h.2]

theorem Spaced.cons_blank {spells : Token → List Char → Prop} {tokens : List Token} {c : Char}
    {s : List Char} (hc : isBlank c = true) (h : Spaced spells tokens s) :
    Spaced spells tokens (c :: s) := by
  cases h with
  | nil hblanks => exact .nil (List.forall_mem_cons.2 ⟨hc, hblanks⟩)
  | @cons _ _ blanks _ _ hblanks hlexeme hrest =>
      rw [← List.cons_append]
      exact .cons (List.forall_mem_cons.2 ⟨hc, hblanks⟩) hlexeme hrest

/-- A string without content and the rest of a text that cannot be read are no tokens
of any grammatical text. -/
def Token.isSound : Token → Bool
  | brokenText | invalid => false
  | _ => true

theorem scanOnto_sound (read : List Token) (s : List Char) :
    ∃ tokens, scanOnto read s = read.reverse ++ tokens ∧
      ((∀ token ∈ tokens, token.isSound = true) → Spaced Lexeme tokens s) := by
  fun_induction scanOnto read s with
  | case1 read => exact ⟨[], by simp, fun _ => .nil nofun⟩
  | case2 read c s hblank ih =>
      rcases ih with ⟨tokens, hscan, hspaced⟩
      exact ⟨tokens, hscan, fun hsound => (hspaced hsound).cons_blank hblank⟩
  | case3 read c s _ token rest htoken ih =>
      rcases ih with ⟨tokens, hscan, hspaced⟩
      refine ⟨token :: tokens, by simp [hscan], ?_⟩
      intro hsound
      rw [List.forall_mem_cons] at hsound
      have hcontent : token ≠ .brokenText := by
        rintro rfl
        exact absurd hsound.1 (by decide)
      rcases lexeme_of_token? htoken hcontent with ⟨lexeme, happend, hlexeme⟩
      rw [happend, ← List.nil_append (lexeme ++ rest)]
      exact .cons nofun hlexeme (hspaced hsound.2)
  | case4 read c s _ htoken =>
      refine ⟨[.invalid], by simp, ?_⟩
      intro hsound
      exact absurd (hsound _ List.mem_cons_self) (by decide)

theorem spaced_scan {text : String} (h : ∀ token ∈ scan text, token.isSound = true) :
    Spaced Lexeme (scan text) text.toList := by
  rcases scanOnto_sound [] text.toList with ⟨tokens, hscan, hspaced⟩
  have hall : scan text = tokens := hscan
  rw [hall] at h ⊢
  exact hspaced h

/-- No number stands directly in front of another one. -/
def Apart (tokens : List Token) : Prop :=
  tokens.IsChain fun a b => a.isNumber = true → b.isNumber = false

/-- What stands in front of a token that is no number ends a number. -/
theorem endsNumber_head_spaced {token : Token} {tokens : List Token} {s : List Char}
    (h : Spaced Lexeme tokens s) (happart : Apart (token :: tokens))
    (hnumber : token.isNumber = true) : ∀ c ∈ s.head?, endsNumber c = true := by
  cases h with
  | nil hblanks =>
      intro c hc
      exact endsNumber_of_isBlank (hblanks c (List.mem_of_mem_head? hc))
  | @cons next _ blanks _ s hblanks hlexeme hrest =>
      cases blanks with
      | nil =>
          have hnext : next.isNumber = false := (List.isChain_cons_cons.1 happart).1 hnumber
          exact endsNumber_head_lexeme hlexeme hnext s
      | cons blank blanks =>
          rintro c ⟨⟩
          exact endsNumber_of_isBlank (hblanks blank List.mem_cons_self)

theorem scanOnto_of_spaced {tokens : List Token} {s : List Char} (h : Spaced Lexeme tokens s) :
    ∀ read : List Token, Apart tokens → scanOnto read s = read.reverse ++ tokens := by
  induction h with
  | @nil blanks hblanks =>
      intro read _
      have hscan := scanOnto_blanks read hblanks []
      rw [List.append_nil, scanOnto] at hscan
      rw [hscan, List.append_nil]
  | @cons token tokens blanks lexeme s hblanks hlexeme hrest ih =>
      intro read happart
      have htoken := token?_append hlexeme (endsNumber_head_spaced hrest happart)
      rw [scanOnto_blanks read hblanks,
        scanOnto_of_token? htoken (isBlank_head_lexeme hlexeme), ih _ happart.tail]
      simp

/-! ## Values -/

theorem apart_cons {token : Token} {tokens : List Token} (htoken : token.isNumber = false)
    (h : Apart tokens) : Apart (token :: tokens) := by
  refine List.isChain_cons.2 ⟨?_, h⟩
  intro next _ hnumber
  rw [htoken] at hnumber
  contradiction

theorem apart_append_cons {token : Token} {tokens rest : List Token}
    (htoken : token.isNumber = false) (h : Apart tokens) (hrest : Apart rest) :
    Apart (tokens ++ token :: rest) := by
  refine List.isChain_append.2 ⟨h, apart_cons htoken hrest, ?_⟩
  rintro last _ next ⟨⟩ _
  exact htoken

theorem apart_commaSeparated {parts : List (List Token)} (h : ∀ part ∈ parts, Apart part) :
    Apart (commaSeparated parts) := by
  induction parts with
  | nil => exact .nil
  | cons part parts ih =>
      rw [List.forall_mem_cons] at h
      cases parts with
      | nil => simpa [commaSeparated] using h.1
      | cons next parts =>
          rw [commaSeparated_cons_cons]
          exact apart_append_cons rfl h.1 (ih h.2)

theorem Grammatical.apart {value : List Token} (h : Grammatical value) : Apart value := by
  induction h with
  | null | bool b | number literal | text content => exact List.isChain_singleton _
  | array _ ih => exact apart_append_cons rfl (apart_cons rfl (apart_commaSeparated ih)) .nil
  | @object members _ ih =>
      have hinside : Apart (membersTokens members) := by
        apply apart_commaSeparated
        rw [List.forall_mem_map]
        exact fun m hm => apart_cons rfl (apart_cons rfl (ih m hm))
      exact apart_append_cons rfl (apart_cons rfl hinside) .nil

theorem isSound_of_endsItself {token : Token} (h : token.endsItself = true) :
    token.isSound = true := by
  cases token <;> first | rfl | contradiction

theorem Grammatical.isSound {value : List Token} (h : Grammatical value) :
    ∀ token ∈ value, token.isSound = true := by
  induction h with
  | null | bool b | number literal | text content => simp [Token.isSound]
  | array _ ih => exact forall_mem_array (fun _ => isSound_of_endsItself) ih
  | object _ ih => exact forall_mem_object (fun _ => isSound_of_endsItself) ih

/-- The texts of a value are those that fall into its tokens. -/
theorem spells_iff_scan_eq {text : String} {value : List Token} :
    Spells text value ↔ Grammatical value ∧ scan text = value := by
  constructor
  · rintro ⟨hvalue, hspaced⟩
    exact ⟨hvalue, scanOnto_of_spaced hspaced [] hvalue.apart⟩
  · rintro ⟨hvalue, rfl⟩
    exact ⟨hvalue, spaced_scan hvalue.isSound⟩

theorem Spells.scan_eq {text : String} {value : List Token} (h : Spells text value) :
    scan text = value :=
  (spells_iff_scan_eq.1 h).2

theorem Spells.isNumeral {text literal : String} (h : Spells text [.number literal]) :
    IsNumeral literal.toList := by
  rcases h with ⟨-, hspaced⟩
  generalize text.toList = s at hspaced
  cases hspaced with
  | cons hblanks hlexeme hrest =>
      cases hlexeme with
      | number hnumeral => exact hnumeral

end BinaryMachine.Json
