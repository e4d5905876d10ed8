/-
The kinds of tokens that no selector is written with read back as well. A character that is a token by itself does so
unless what comes next goes on with it: `Token.readsBack_delim` says what that is for each such character.
-/
import StyleSelectors.Proofs.Token.Fits

namespace StyleSelectors.Token

open Text Numeric

variable {rest : List Char}

/-! ## Single characters -/

section Stray

variable {c : Char} (h : isStray c = true)
include h

theorem not_of_isStray : isSpace c = false ∧ isNameStart c = false ∧ c.isDigit = false ∧
    c ∉ ['"', '\'', ':', ';', ',', '(', ')', '[', ']', '\x7b', '\x7d'] := by
  simpa only [isStray, Bool.not_eq_true', Bool.or_eq_false_iff, List.contains_eq_mem, decide_eq_false_iff_not,
    and_assoc] using h

/-- Where neither a number nor a name starts. -/
theorem readToken_of_isStray (hnumber : startsNumber (c :: rest) = false) (hname : startsName (c :: rest) = false) :
    readToken c rest = readSymbol c rest := by
  obtain ⟨hspace, -, -, hc⟩ := not_of_isStray h
  have hquote : ¬ (c = '"' ∨ c = '\'') := by
    rintro (rfl | rfl) <;> exact hc (by decide)
  have hclose : ¬ (c = '-' ∧ ['-', '>'] <+: rest) := by
    rintro ⟨rfl, tail, rfl⟩
    cases hname
  rw [readToken, if_neg (by simp [hspace]), if_neg hquote, if_neg (by simp [hnumber]), if_neg hclose,
    if_neg (by simp [hname])]

/-- A single character is read unless it is part of a longer sign, a comment, a hash or a keyword. -/
theorem readSymbol_of_isStray (hsign : (MatchOperator.ofSign? c).isSome = true → rest.head? ≠ some '=')
    (hmarkup : c = '<' → ¬ ['!', '-', '-'] <+: rest) (hcomment : c = '/' → rest.head? ≠ some '*')
    (hname : c = '#' ∨ c = '@' → startsName rest = false)
    (hdigit : c = '#' → rest.head?.any (fun c => c.isDigit || c == '-') = false) :
    readSymbol c rest = (.delim c, rest) := by
  obtain ⟨-, -, -, hc⟩ := not_of_isStray h
  have hopen : Bracket.ofOpen? c = none := by
    refine List.find?_eq_none.2 fun b _ hb => hc ?_
    rw [← beq_iff_eq.1 hb]
    cases b <;> decide
  have hclose : Bracket.ofClose? c = none := by
    refine List.find?_eq_none.2 fun b _ hb => hc ?_
    rw [← beq_iff_eq.1 hb]
    cases b <;> decide
  have hne (d : Char) (hd : d ∈ [':', ';', ',']) : c ≠ d := by
    rintro rfl
    exact hc (List.mem_of_mem_drop (i := 2) (List.mem_of_mem_take (i := 3) hd))
  unfold readSymbol
  cases hop : MatchOperator.ofSign? c with
  | some op => exact if_neg (hsign (by rw [hop]; rfl))
  | none =>
    have hstar : ¬ (c = '/' ∧ ['*'] <+: rest) := by
      rintro ⟨rfl, tail, rfl⟩
      exact hcomment rfl rfl
    have hkeyword : ¬ (c = '@' ∧ startsName rest = true) := by
      rintro ⟨rfl, hstart⟩
      rw [hname (.inr rfl)] at hstart
      cases hstart
    rw [hopen, hclose]
    dsimp only
    rw [if_neg (hne ':' (by decide)), if_neg (hne ';' (by decide)), if_neg (hne ',' (by decide)),
      if_neg fun hc => hmarkup hc.1 hc.2, if_neg hstar, if_neg hkeyword]
    split
    · next hhash =>
      rw [readHash, if_neg (by simp [hname (.inl hhash)]), if_neg (by simp [hdigit hhash]), hhash]
    · rfl

/-- What goes on with a single character. -/
structure Ends (c : Char) (rest : List Char) : Prop where
  number : startsNumber (c :: rest) = false
  name : startsName (c :: rest) = false
  sign : (MatchOperator.ofSign? c).isSome = true → rest.head? ≠ some '='
  markup : c = '<' → ¬ ['!', '-', '-'] <+: rest
  comment : c = '/' → rest.head? ≠ some '*'
  named : c = '#' ∨ c = '@' → startsName rest = false
  hashed : c = '#' → rest.head?.any (fun c => c.isDigit || c == '-') = false

theorem readsBack_delim (hends : Ends c rest) : (delim c).ReadsBack rest := by
  refine ⟨c, [], rfl, ?_⟩
  rw [List.nil_append, readToken_of_isStray h hends.number hends.name]
  exact readSymbol_of_isStray h hends.sign hends.markup hends.comment hends.named hends.hashed

end Stray

/-! ## Other kinds -/

theorem readsBack_semicolon : Token.semicolon.ReadsBack rest := ⟨';', [], rfl, rfl⟩

theorem readsBack_markupOpen : Token.markupOpen.ReadsBack rest := ⟨'<', ['!', '-', '-'], rfl, rfl⟩

theorem readsBack_atKeyword {name : String} (h : IsName name) (hrest : readName rest = ([], rest)) :
    (Token.atKeyword name).ReadsBack rest := by
  refine ⟨'@', writeIdentifier name.toList, rfl, ?_⟩
  have hname := startsName_writeIdentifier (toList_ne_nil h.1) rest
  show (if '@' = '@' ∧ startsName (writeIdentifier name.toList ++ rest) = true then
    (Token.atKeyword (String.ofList (readName (writeIdentifier name.toList ++ rest)).1),
      (readName (writeIdentifier name.toList ++ rest)).2) else _) = _
  rw [if_pos ⟨rfl, hname⟩, readName_writeIdentifier h.2 hrest, String.ofList_toList]

theorem readsBack_hash {name : String} (h : IsShown name) (hrest : readName rest = ([], rest))
    (hname : startsName (writeName name.toList ++ rest) = false)
    (hdigit : (writeName name.toList ++ rest).head?.any (fun c => c.isDigit || c == '-') = true) :
    (Token.hash name).ReadsBack rest := by
  refine ⟨'#', writeName name.toList, rfl, ?_⟩
  show readHash (writeName name.toList ++ rest) = _
  rw [readHash, if_neg (by simp [hname]), if_pos hdigit, readName_writeName h hrest, String.ofList_toList]

theorem readsBack_badString {value : String} (h : IsShown value) (hrest : atNewline rest = true) :
    (Token.badString value).ReadsBack rest := by
  refine ⟨'"', writeQuoted value.toList, rfl, ?_⟩
  show readString '"' (writeQuoted value.toList ++ rest) = _
  obtain ⟨c, rest, rfl⟩ := List.exists_cons_of_ne_nil (ne_nil_of_atNewline hrest)
  have hquote : c ≠ '"' := by
    rintro rfl
    cases hrest
  rw [readString, readQuoted_writeQuoted_append h, readQuoted_newline hquote hrest, List.append_nil,
    String.ofList_toList]
  rfl

theorem readsBack_whitespace {space : String} (hne : space.toList ≠ []) (hspace : ∀ c ∈ space.toList, isSpace c = true)
    (hrest : ∀ c ∈ rest.head?, isSpace c = false) : (Token.whitespace space).ReadsBack rest := by
  obtain ⟨c, cs, hcs⟩ := List.exists_cons_of_ne_nil hne
  refine ⟨c, cs, hcs, ?_⟩
  rw [hcs] at hspace
  rw [readToken, if_pos (hspace c (List.mem_cons_self ..)), ← List.cons_append, readSpace, takeWhile_append_head hrest,
    dropWhile_append_head hrest, List.takeWhile_eq_self_iff.2 hspace, List.dropWhile_eq_nil_iff.2 hspace, ← hcs,
    String.ofList_toList, List.nil_append]

theorem readsBack_comment {inside : String}
    (h : readComment (inside.toList ++ '*' :: '/' :: rest) = (inside.toList, rest)) :
    (Token.comment inside).ReadsBack rest := by
  refine ⟨'/', '*' :: inside.toList ++ ['*', '/'], rfl, ?_⟩
  have htext : '*' :: inside.toList ++ ['*', '/'] ++ rest = '*' :: (inside.toList ++ '*' :: '/' :: rest) := by simp
  rw [htext]
  show (Token.comment (String.ofList (readComment (inside.toList ++ '*' :: '/' :: rest)).1),
    (readComment (inside.toList ++ '*' :: '/' :: rest)).2) = _
  rw [h, String.ofList_toList]

end StyleSelectors.Token
