/-
Tokens of their own kind. A run of blanks is read as whitespace, and nothing else is
(`isWhitespace_readToken`); a closing bracket or a comma is read from its one character
(`readToken_closing`, `readToken_comma`). No reader of longer tokens gives any of these.
-/
import StyleSelectors.Token.Lexer

namespace StyleSelectors.Token

open Text Numeric

/-- A closing bracket or a comma, which is read from its one character whatever comes next. -/
def isLone : Token → Bool
  | .closing _ | .comma => true
  | _ => false

/-- What no reader of longer tokens gives. -/
def isApart (t : Token) : Bool := t.isLone || t.isWhitespace

theorem isApart_readNumeric (cs : List Char) : (readNumeric cs).1.isApart = false := by
  unfold readNumeric
  dsimp only
  split
  · rfl
  split <;> rfl

theorem isApart_readUrl (cs : List Char) : (readUrl cs).1.isApart = false := by
  unfold readUrl
  dsimp only
  split <;> rfl

theorem isApart_readNamed (cs : List Char) : (readNamed cs).1.isApart = false := by
  unfold readNamed
  dsimp only
  split
  · split
    · exact isApart_readUrl _
    · rfl
  · rfl

theorem isApart_readHash (cs : List Char) : (readHash cs).1.isApart = false := by
  unfold readHash
  repeat' split
  all_goals rfl

theorem isApart_readString (quote : Char) (cs : List Char) : (readString quote cs).1.isApart = false := by
  unfold readString
  dsimp only
  split <;> rfl

/-- Such a token is not of the kinds that are looked for before single characters. -/
theorem readToken_of_isApart {c : Char} {rest : List Char} (hspace : isSpace c = false)
    (h : (readToken c rest).1.isApart = true) : readToken c rest = readSymbol c rest := by
  unfold readToken at h ⊢
  rw [if_neg (by simp [hspace])] at h ⊢
  repeat' split at h
  · rw [isApart_readString] at h; cases h
  · rw [isApart_readNumeric] at h; cases h
  · cases h
  · rw [isApart_readNamed] at h; cases h
  · simp only [*, if_false, Bool.false_eq_true]

/-! ## Whitespace -/

theorem isWhitespace_readSymbol (c : Char) (rest : List Char) : (readSymbol c rest).1.isWhitespace = false := by
  have hhash (cs : List Char) : (readHash cs).1.isWhitespace = false :=
    (Bool.or_eq_false_iff.1 (isApart_readHash cs)).2
  unfold readSymbol
  split
  · split <;> rfl
  · rfl
  · rfl
  · repeat' split
    all_goals first | rfl | exact hhash rest

/-- A token is whitespace exactly if it starts with a blank. -/
theorem isWhitespace_readToken (c : Char) (rest : List Char) : (readToken c rest).1.isWhitespace = isSpace c := by
  cases hspace : isSpace c with
  | true =>
    rw [readToken, if_pos hspace]
    rfl
  | false =>
    refine Bool.eq_false_iff.2 fun h => ?_
    have heq := readToken_of_isApart hspace (Bool.or_eq_true_iff.2 (.inr h))
    rw [heq, isWhitespace_readSymbol] at h
    cases h

/-! ## Closing brackets and commas -/

theorem readToken_of_isLone {c : Char} {rest : List Char} (h : (readToken c rest).1.isLone = true) :
    readToken c rest = readSymbol c rest := by
  have hspace : isSpace c = false := by
    rw [← isWhitespace_readToken c rest]
    cases htoken : (readToken c rest).1 with
    | whitespace _ => rw [htoken] at h; cases h
    | _ => rfl
  exact readToken_of_isApart hspace (Bool.or_eq_true_iff.2 (.inl h))

theorem readSymbol_closing {c : Char} {rest : List Char} {b : Bracket} (h : (readSymbol c rest).1 = .closing b) :
    c = b.closeChar ∧ (readSymbol c rest).2 = rest := by
  unfold readSymbol at h ⊢
  split at h
  · split at h <;> cases h
  · cases h
  · next k _ _ hclose =>
    cases h
    have hclose : (b.closeChar == c) = true := List.find?_some (p := fun b : Bracket => b.closeChar == c) hclose
    exact ⟨(beq_iff_eq.1 hclose).symm, rfl⟩
  · exfalso
    repeat' split at h
    all_goals first | cases h | exact absurd (isApart_readHash _) (by rw [h]; exact nofun)

theorem readSymbol_comma {c : Char} {rest : List Char} (h : (readSymbol c rest).1 = .comma) :
    c = ',' ∧ (readSymbol c rest).2 = rest := by
  by_cases hc : c = ','
  · subst hc
    exact ⟨rfl, rfl⟩
  · exfalso
    unfold readSymbol at h
    split at h
    · split at h <;> cases h
    · cases h
    · cases h
    · rw [if_neg hc] at h
      repeat' split at h
      all_goals first | cases h | exact absurd (isApart_readHash _) (by rw [h]; exact nofun)

/-- A closing bracket is read from its one character. -/
theorem readToken_closing {c : Char} {rest : List Char} {b : Bracket} (h : (readToken c rest).1 = .closing b) :
    c = b.closeChar ∧ (readToken c rest).2 = rest := by
  have heq : readToken c rest = readSymbol c rest := readToken_of_isLone (by rw [h]; rfl)
  rw [heq] at h ⊢
  exact readSymbol_closing h

/-- So is a comma. -/
theorem readToken_comma {c : Char} {rest : List Char} (h : (readToken c rest).1 = .comma) :
    c = ',' ∧ (readToken c rest).2 = rest := by
  have heq : readToken c rest = readSymbol c rest := readToken_of_isLone (by rw [h]; rfl)
  rw [heq] at h ⊢
  exact readSymbol_comma h

end StyleSelectors.Token
