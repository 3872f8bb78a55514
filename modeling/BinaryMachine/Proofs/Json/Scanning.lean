import BinaryMachine.Json.Token

/-!
# Scanning what was written

Most tokens say themselves where they end: a bracket is one character, a string
ends at its quote.  A text that is written without blanks from such tokens falls
into them again.  A number is different, since the digits of another one may
stand behind it.
-/

namespace BinaryMachine.Json

/-- The tokens whose end does not depend on what stands behind them. -/
def Token.endsItself : Token → Bool
  | number _ | brokenText | invalid => false
  | _ => true

/-- The token is read back where `rest` stands behind its spelling. -/
structure Token.ReadsBefore (token : Token) (rest : List Char) : Prop where
  token?_eq : token? (token.spelling.toList ++ rest) = some (token, rest)
  not_blank : ∀ c ∈ token.spelling.toList.head?, isBlank c = false

theorem toList_spelling_text (content : String) :
    (Token.text content).spelling.toList = quote content.toList := String.toList_ofList

theorem token?_text (content : String) (rest : List Char) :
    token? ((Token.text content).spelling.toList ++ rest) = some (.text content, rest) := by
  have hstring := string?_quoted content.toList rest
  rw [String.ofList_toList] at hstring
  rw [toList_spelling_text, quote, ← hstring]
  simp [token?, punctuation?]

theorem Token.readsBefore_of_endsItself {token : Token} (h : token.endsItself = true)
    (rest : List Char) : token.ReadsBefore rest := by
  constructor
  case token?_eq =>
    cases token with
    | text content => exact token?_text content rest
    | number _ => contradiction
    | brokenText => contradiction
    | invalid => contradiction
    | bool b => cases b <;> simp [spelling, token?, punctuation?, word?]
    | _ => simp [spelling, token?, punctuation?, word?]
  case not_blank =>
    cases token with
    | text content => simp [toList_spelling_text, quote, isBlank]
    | number _ => contradiction
    | brokenText => contradiction
    | invalid => contradiction
    | bool b => cases b <;> simp [spelling, isBlank]
    | _ => simp [spelling, isBlank]

/-- What is taken for a token is passed, whatever stands behind it. -/
theorem scanOnto_of_token? {token : Token} {lexeme rest : List Char}
    (htoken : token? (lexeme ++ rest) = some (token, rest))
    (hblank : ∀ c ∈ lexeme.head?, isBlank c = false) (read : List Token) :
    scanOnto read (lexeme ++ rest) = scanOnto (token :: read) rest := by
  cases lexeme with
  | nil =>
      -- A token is never read from nothing at all.
      have := token?_length htoken
      simp at this
  | cons c s =>
      have hc : isBlank c = false := hblank c rfl
      rw [List.cons_append] at htoken
      rw [List.cons_append, scanOnto, hc]
      simp only [Bool.false_eq_true, if_false]
      split
      · next hread =>
          rw [htoken] at hread
          cases hread
          rfl
      · next hread =>
          rw [htoken] at hread
          cases hread

theorem scanOnto_spelling {token : Token} {rest : List Char} (h : token.ReadsBefore rest)
    (read : List Token) :
    scanOnto read (token.spelling.toList ++ rest) = scanOnto (token :: read) rest :=
  scanOnto_of_token? h.token?_eq h.not_blank read

theorem toList_compact (tokens : List Token) :
    (compact tokens).toList = tokens.flatMap fun token => token.spelling.toList := by
  rw [compact, String.toList_join, List.flatMap_map]

theorem scanOnto_compact {tokens : List Token} (h : ∀ token ∈ tokens, token.endsItself = true) :
    ∀ read, scanOnto read (compact tokens).toList = read.reverse ++ tokens := by
  rw [toList_compact]
  induction tokens with
  | nil =>
      intro read
      rw [List.flatMap_nil, scanOnto, List.append_nil]
  | cons token tokens ih =>
      rw [List.forall_mem_cons] at h
      intro read
      rw [List.flatMap_cons, scanOnto_spelling (Token.readsBefore_of_endsItself h.1 _),
        ih h.2, List.reverse_cons, List.append_assoc, List.singleton_append]

theorem scan_compact {tokens : List Token} (h : ∀ token ∈ tokens, token.endsItself = true) :
    scan (compact tokens) = tokens := by
  rw [scan, scanOnto_compact h, List.reverse_nil, List.nil_append]

end BinaryMachine.Json
