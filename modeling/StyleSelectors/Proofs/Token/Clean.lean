/-
What reading a text cannot give: a name that is empty, or NUL in a name or string. A reader puts the
replacement character in its place, and starts a name only where there is a character for one.
-/
import StyleSelectors.Proofs.Selector.Legible
import StyleSelectors.Proofs.Token.ReadBack

namespace StyleSelectors

open Text

namespace Token

/-! ## Names and strings -/

theorem scalar_ne_nul (n : Nat) : scalar n ≠ nul := by
  unfold scalar
  split
  · decide
  · next hzero =>
    split
    · next hvalid =>
      have hnat : (Char.ofNat n).toNat = n := by
        rw [Char.ofNat, dif_pos hvalid]
        rfl
      rw [ne_nul_iff, hnat]
      exact hzero
    · decide

theorem readEscape_ne_nul (cs : List Char) : (readEscape cs).1 ≠ nul := by
  cases cs with
  | nil => decide
  | cons c rest =>
    rw [readEscape]
    split
    · exact scalar_ne_nul _
    · exact shown_ne_nul c

theorem nul_not_mem_readName (cs : List Char) : nul ∉ (readName cs).1 := by
  fun_induction readName cs with
  | case1 | case2 | case5 => exact List.not_mem_nil
  | case3 rest _ escape _ _ ih => exact List.not_mem_cons_of_ne_of_not_mem (readEscape_ne_nul rest).symm ih
  | case4 c _ _ _ _ ih => exact List.not_mem_cons_of_ne_of_not_mem (shown_ne_nul c).symm ih

/-- Where a name starts, one is read. -/
theorem readName_ne_nil {cs : List Char} (h : startsName cs = true) : (readName cs).1 ≠ [] := by
  cases cs with
  | nil => cases h
  | cons c rest =>
    by_cases hslash : c = '\\'
    · subst hslash
      have hline : atNewline rest = false := by simpa [startsName] using h
      rw [readName_escape hline]
      exact List.cons_ne_nil _ _
    · have hname : isNameChar c = true := by
        rcases startsName_cases h with hc | hc | ⟨rfl, -⟩
        · rw [isNameChar, hc]
          rfl
        · exact absurd hc hslash
        · rfl
      rw [readName, if_neg hslash, if_pos hname]
      exact List.cons_ne_nil _ _

theorem isName_readName {cs : List Char} (h : startsName cs = true) : IsName (String.ofList (readName cs).1) := by
  constructor
  · intro hempty
    apply readName_ne_nil h
    rw [← String.toList_ofList (l := (readName cs).1), hempty]
    rfl
  · rw [String.toList_ofList]
    exact nul_not_mem_readName cs

theorem nul_not_mem_readQuoted (quote : Char) (cs : List Char) : nul ∉ (readQuoted quote cs).1.1 := by
  fun_induction readQuoted quote cs with
  | case1 | case2 | case3 | case4 => exact List.not_mem_nil
  | case5 _ _ _ _ _ _ ih => exact ih
  | case6 rest _ _ _ _ escape _ _ ih => exact List.not_mem_cons_of_ne_of_not_mem (readEscape_ne_nul rest).symm ih
  | case7 c _ _ _ _ _ ih => exact List.not_mem_cons_of_ne_of_not_mem (shown_ne_nul c).symm ih

/-! ## Tokens -/

/-- Whether the names that selectors take from a token are names, and its string can be shown. -/
def Clean : Token → Prop
  | .ident name | .idHash name | .function name => IsName name
  | .string value => IsShown value
  | _ => True

theorem clean_readString (quote : Char) (cs : List Char) : (readString quote cs).1.Clean := by
  unfold readString
  dsimp only
  split
  · rw [Clean, IsShown, String.toList_ofList]
    exact nul_not_mem_readQuoted quote cs
  · trivial

theorem clean_readUrl (cs : List Char) : (readUrl cs).1.Clean := by
  unfold readUrl
  dsimp only
  split
  · trivial
  · trivial

theorem clean_readNamed {cs : List Char} (h : startsName cs = true) : (readNamed cs).1.Clean := by
  unfold readNamed
  dsimp only
  split
  · split
    · exact clean_readUrl _
    · exact isName_readName h
  · exact isName_readName h

theorem clean_readNumeric (cs : List Char) : (readNumeric cs).1.Clean := by
  unfold readNumeric
  dsimp only
  split
  · trivial
  · split
    · trivial
    · trivial

theorem clean_readHash (rest : List Char) : (readHash rest).1.Clean := by
  unfold readHash
  split
  · next h => exact isName_readName h
  · split
    · trivial
    · trivial

theorem clean_readSymbol (c : Char) (rest : List Char) : (readSymbol c rest).1.Clean := by
  unfold readSymbol
  split
  · split
    · trivial
    · trivial
  · trivial
  · trivial
  · repeat' split
    · trivial
    · trivial
    · trivial
    · trivial
    · trivial
    · exact clean_readHash rest
    · trivial
    · trivial

theorem clean_readToken (c : Char) (rest : List Char) : (readToken c rest).1.Clean := by
  unfold readToken
  split
  · trivial
  split
  · exact clean_readString _ _
  split
  · exact clean_readNumeric _
  split
  · trivial
  split
  · next h => exact clean_readNamed h
  · exact clean_readSymbol c rest

end Token

theorem Lexeme.clean_of_mem_ofChars {cs : List Char} {x : Lexeme} (h : x ∈ ofChars cs) : x.token.Clean := by
  fun_induction ofChars cs with
  | case1 => cases h
  | case2 c rest read _ ih =>
    rcases List.mem_cons.1 h with rfl | h
    · exact Token.clean_readToken c rest
    · exact ih h

end StyleSelectors
