import BinaryMachine.Proofs.Json.Lexing

/-!
# Texts that are written

Every token of a value is written as one of its lexemes; only a number has to be one
without sign, fraction and exponent.  The texts of a value without blanks and in lines
are therefore among its texts, and fall into its tokens again.
-/

namespace BinaryMachine.Json

/-! ## Spellings -/

theorem isNumeral_toString (n : Nat) : IsNumeral (toString n).toList := by
  have hwhole : IsWholePart (StateId.ofNat n).digits := by
    refine ⟨⟨(StateId.ofNat n).digits_ne_nil, (StateId.ofNat n).isDigit_of_mem⟩, ?_⟩
    intro hzero
    rcases List.head?_eq_some_iff.1 hzero with ⟨rest, hrest⟩
    rw [hrest, StateId.eq_nil_of_digits_eq_zero_cons (StateId.canonical_ofNat n) hrest]
  refine ⟨[], _, [], [], .inl rfl, hwhole, .inl rfl, .inl rfl, ?_⟩
  rw [StateId.toList_toString, List.append_nil, List.append_nil, List.nil_append]

theorem isUnit_control {n : Nat} (h : n < 0x20) :
    IsUnit ['0', '0', Nat.digitChar (n / 16), Nat.digitChar (n % 16)] n :=
  ⟨_, _, _, _, 0, 0, n / 16, n % 16, rfl, rfl, rfl, hexValue?_digitChar _ (by omega),
    hexValue?_digitChar _ (by omega), by omega⟩

theorem Quotes.escape {content s : List Char} (c : Char) (h : Quotes content s) :
    Quotes (c :: content) (escape c ++ s) := by
  unfold Json.escape
  split
  iterate 7 exact .short rfl h
  next hquote hbackslash _ _ _ _ _ =>
    split
    · next hcontrol =>
        have hunit := Quotes.unit (isUnit_control hcontrol) c.valid h
        rwa [Char.ofNat_toNat] at hunit
    · next hplain => exact .plain hquote hbackslash (Nat.not_lt.1 hplain) h

theorem quotes_flatMap_escape (content : List Char) : Quotes content (content.flatMap escape) := by
  induction content with
  | nil => exact .nil
  | cons c content ih => exact ih.escape c

theorem lexeme_spelling_of_endsItself {token : Token} (h : token.endsItself = true) :
    Lexeme token token.spelling.toList := by
  cases token with
  | text content =>
      rw [toList_spelling_text]
      exact .text (quotes_flatMap_escape content.toList)
  | bool b => cases b <;> constructor
  | number literal => contradiction
  | brokenText => contradiction
  | invalid => contradiction
  | _ => constructor

theorem lexeme_spelling_number (n : Nat) :
    Lexeme (.number (toString n)) (Token.number (toString n)).spelling.toList :=
  .number (isNumeral_toString n)

/-! ## Blanks -/

theorem isBlank_of_mem_newline (depth : Nat) :
    ∀ c ∈ (newline depth).toList, isBlank c = true := by
  simp [newline, isBlank]

theorem isBlank_of_mem_gap (before : Option Token) (token : Token) (depth : Nat) :
    ∀ c ∈ (gap before token depth).toList, isBlank c = true := by
  cases before with
  | none => simp [gap]
  | some before =>
      simp only [gap]
      split_ifs
      · simp
      · exact isBlank_of_mem_newline depth
      · exact isBlank_of_mem_newline depth
      · simp [isBlank]
      · simp

/-! ## Layouts -/

/-- The tokens laid out behind a token `before`, with `depth` brackets open. -/
def laidOut (before : Option Token) (depth : Nat) : List Token → List Char
  | [] => []
  | token :: tokens =>
      let depth := if token.closes then depth - 1 else depth
      (gap before token depth).toList ++ (token.spelling.toList ++
        laidOut (some token) (if token.opens then depth + 1 else depth) tokens)

theorem toList_pretty (tokens : List Token) : (pretty tokens).toList = laidOut none 0 tokens := by
  have hfold : ∀ layout : Layout,
      (String.join (tokens.foldl Layout.add layout).written.reverse).toList =
        (String.join layout.written.reverse).toList ++
          laidOut layout.before layout.depth tokens := by
    induction tokens with
    | nil => simp [laidOut]
    | cons token tokens ih =>
        intro layout
        rw [List.foldl_cons, ih]
        simp [Layout.add, laidOut, String.join_append]
  rw [pretty, hfold]
  simp [Layout.start]

/-- The lexeme is how the token is written. -/
def Token.IsWritten (token : Token) (lexeme : List Char) : Prop :=
  token.spelling.toList = lexeme

theorem spaced_compact (tokens : List Token) :
    Spaced Token.IsWritten tokens (compact tokens).toList := by
  rw [toList_compact]
  induction tokens with
  | nil => exact .nil nofun
  | cons token tokens ih =>
      rw [List.flatMap_cons, ← List.nil_append (_ ++ _)]
      exact .cons nofun rfl ih

/-- More blanks may stand behind all that is laid out. -/
theorem spaced_laidOut {blanks : List Char} (hblanks : ∀ c ∈ blanks, isBlank c = true)
    (tokens : List Token) :
    ∀ (before : Option Token) (depth : Nat),
      Spaced Token.IsWritten tokens (laidOut before depth tokens ++ blanks) := by
  induction tokens with
  | nil => exact fun _ _ => .nil hblanks
  | cons token tokens ih =>
      intro before depth
      simp only [laidOut, List.append_assoc]
      exact .cons (isBlank_of_mem_gap _ _ _) rfl (ih _ _)

theorem spaced_pretty_append (tokens : List Token) {blanks : String}
    (hblanks : ∀ c ∈ blanks.toList, isBlank c = true) :
    Spaced Token.IsWritten tokens (pretty tokens ++ blanks).toList := by
  rw [String.toList_append, toList_pretty]
  exact spaced_laidOut hblanks tokens none 0

/-- What is written for a value is one of its texts. -/
theorem spells_of_spaced {value : List Token} (hvalue : Grammatical value)
    (hlexemes : ∀ token ∈ value, Lexeme token token.spelling.toList) {text : String}
    (hspaced : Spaced Token.IsWritten value text.toList) : Spells text value := by
  refine ⟨hvalue, hspaced.mono ?_⟩
  rintro token hmem _ rfl
  exact hlexemes token hmem

end BinaryMachine.Json
