/-
Tokens read back as they were written, in front of whatever does not go on with them. For each kind
of token that a selector is written with there is one lemma, whose hypotheses are all that it asks
of the text that comes next; `Lexeme.ofChars_text` then takes the token off a whole text.
-/
import StyleSelectors.Token.Lexer
import StyleSelectors.Token.Printer
import StyleSelectors.Proofs.Token.Quoted
import StyleSelectors.Proofs.Token.Parted

namespace StyleSelectors

open Text Numeric

namespace Token

/-- Whether the text of a token, with `rest` after it, reads as that token and then `rest`. -/
def ReadsBack (t : Token) (rest : List Char) : Prop :=
  ∃ c cs, t.text = c :: cs ∧ readToken c (cs ++ rest) = (t, rest)

end Token

theorem Lexeme.ofChars_text {t : Token} {rest : List Char} (h : t.ReadsBack rest) :
    Lexeme.ofChars (t.text ++ rest) = ⟨t, t.text⟩ :: Lexeme.ofChars rest := by
  obtain ⟨c, cs, htext, hread⟩ := h
  rw [htext, ofChars_of_readToken hread]

namespace Token

/-! ## What a name does not start with -/

theorem startsUnsigned_of_isNameStart {c : Char} (h : isNameStart c = true ∨ c = '-' ∨ c = '\\')
    (rest : List Char) : startsUnsigned (c :: rest) = false := by
  simp only [isNameStart_iff, eq_iff_toNat, Char.reduceToNat] at h
  have hpoint : c ≠ '.' := by
    rw [ne_eq, eq_iff_toNat]
    simp only [Char.reduceToNat]
    omega
  rw [startsUnsigned_of_ne hpoint, Bool.eq_false_iff, ne_eq, isDigit_iff]
  omega

/-- The character that a name starts with, and after a dash the next one. -/
theorem startsName_cases {c : Char} {rest : List Char} (h : startsName (c :: rest) = true) :
    isNameStart c = true ∨ c = '\\' ∨
      c = '-' ∧ ∃ d tail, rest = d :: tail ∧ (isNameStart d = true ∨ d = '-' ∨ d = '\\') := by
  unfold startsName at h
  split at h
  · next heq => cases heq
  · next heq =>
    cases heq
    obtain ⟨d, hd, hname⟩ := (Option.any_eq_true _ _).1 h
    obtain ⟨tail, htail⟩ := List.head?_eq_some_iff.1 hd
    exact .inr (.inr ⟨rfl, d, tail, htail, by simpa [or_assoc] using hname⟩)
  · next heq => cases heq; exact .inr (.inl rfl)
  · next heq => cases heq; exact .inl h

theorem startsNumber_of_startsName {c : Char} {rest : List Char} (h : startsName (c :: rest) = true) :
    startsNumber (c :: rest) = false := by
  rw [startsNumber]
  rcases startsName_cases h with hc | rfl | ⟨rfl, d, tail, rfl, hd⟩
  · have hsign : isSign c = false := by
      rw [isNameStart_iff] at hc
      simp only [isSign, Bool.or_eq_false_iff, beq_eq_false_iff_ne, ne_eq, eq_iff_toNat, Char.reduceToNat]
      omega
    rw [startsUnsigned_of_isNameStart (.inl hc), hsign, Bool.false_and, Bool.or_false]
  · rfl
  · rw [startsUnsigned_of_isNameStart (.inr (.inl rfl)), startsUnsigned_of_isNameStart hd, Bool.and_false,
      Bool.or_false]

theorem startsName_ne {c : Char} {rest : List Char} (h : startsName (c :: rest) = true) :
    isSpace c = false ∧ ¬ (c = '"' ∨ c = '\'') := by
  have hc : isNameStart c = true ∨ c = '\\' ∨ c = '-' := by
    rcases startsName_cases h with hc | hc | ⟨hc, -⟩
    · exact .inl hc
    · exact .inr (.inl hc)
    · exact .inr (.inr hc)
  simp only [isNameStart_iff, eq_iff_toNat, Char.reduceToNat] at hc
  rw [Bool.eq_false_iff, ne_eq, isSpace_iff, eq_iff_toNat, eq_iff_toNat]
  simp only [Char.reduceToNat]
  omega

/-- Whether a text starts with the end of markup, which is tried before a name. -/
def startsMarkupClose (cs : List Char) : Bool := ['-', '-', '>'].isPrefixOf cs

theorem readToken_of_startsName {c : Char} {rest : List Char} (h : startsName (c :: rest) = true)
    (hmarkup : startsMarkupClose (c :: rest) = false) : readToken c rest = readNamed (c :: rest) := by
  have hmarkup : ¬ (c = '-' ∧ ['-', '>'] <+: rest) := by
    rintro ⟨rfl, hrest⟩
    rw [startsMarkupClose, List.isPrefixOf_cons_cons, List.isPrefixOf_iff_prefix.2 hrest] at hmarkup
    exact absurd hmarkup (by decide)
  obtain ⟨hspace, hquote⟩ := startsName_ne h
  rw [readToken, if_neg (by simp [hspace]), if_neg hquote, if_neg (by simp [startsNumber_of_startsName h]),
    if_neg hmarkup, if_pos h]

/-! ## Names -/

theorem writeNameChar_cons (c : Char) : ∃ d ds, writeNameChar c = d :: ds ∧ d ≠ '>' := by
  unfold writeNameChar
  split
  · exact ⟨replacement, [], rfl, by decide⟩
  split
  · next hname =>
    refine ⟨c, [], rfl, ?_⟩
    rintro rfl
    exact absurd hname (by decide)
  split
  · exact ⟨'\\', _, rfl, by decide⟩
  · exact ⟨'\\', [c], rfl, by decide⟩

theorem startsMarkupClose_cons {c : Char} (hc : c ≠ '-') (rest : List Char) :
    startsMarkupClose (c :: rest) = false := by
  simp [startsMarkupClose, List.isPrefixOf, Ne.symm hc]

theorem ne_dash_of_isNameStart {c : Char} (h : isNameStart c = true) : c ≠ '-' := by
  rintro rfl
  exact absurd h (by decide)

/-- A name without a dash in front is written without one in front. -/
theorem writeUndigited_ne_dash {c : Char} (hc : c ≠ '-') (cs : List Char) :
    ∃ d ds, writeUndigited (c :: cs) = d :: ds ∧ d ≠ '-' := by
  obtain ⟨d, ds, hds, hd | ⟨rfl, -⟩⟩ := writeUndigited_cons hc cs
  · exact ⟨d, ds, hds, ne_dash_of_isNameStart hd⟩
  · exact ⟨'\\', ds, hds, by decide⟩

/-- Only two dashes right before `>` are taken for the end of markup. -/
theorem startsMarkupClose_writeIdentifier {cs rest : List Char} (hne : cs ≠ [])
    (h : cs = ['-', '-'] → rest.head? ≠ some '>') :
    startsMarkupClose (writeIdentifier cs ++ rest) = false := by
  unfold writeIdentifier
  split
  · rfl
  · next tail =>
    -- two dashes and no more, or a character after them that is written as no `>`
    cases tail with
    | nil =>
      have hhead := h rfl
      cases rest with
      | nil => rfl
      | cons c rest =>
        have hc : '>' ≠ c := by
          rintro rfl
          exact hhead rfl
        simp [startsMarkupClose, writeName, List.isPrefixOf, hc]
    | cons c tail =>
      obtain ⟨d, ds, hds, hd⟩ := writeNameChar_cons c
      rw [writeName, List.flatMap_cons, hds]
      simp [startsMarkupClose, List.isPrefixOf, Ne.symm hd]
  · next tail hone htwo =>
    -- what comes after one dash is written as no other
    cases tail with
    | nil => exact absurd rfl hone
    | cons c tail =>
      have hc : c ≠ '-' := by
        rintro rfl
        exact htwo tail rfl
      obtain ⟨d, ds, hds, hd⟩ := writeUndigited_ne_dash hc tail
      rw [hds]
      simp [startsMarkupClose, List.isPrefixOf, Ne.symm hd]
  · next hone htwo hdash =>
    cases cs with
    | nil => exact absurd rfl hne
    | cons c tail =>
      have hc : c ≠ '-' := by
        rintro rfl
        exact hdash tail rfl
      obtain ⟨d, ds, hds, hd⟩ := writeUndigited_ne_dash hc tail
      rw [hds]
      exact startsMarkupClose_cons hd (ds ++ rest)

theorem writeIdentifier_ne_nil {cs : List Char} (hne : cs ≠ []) : writeIdentifier cs ≠ [] := by
  intro hnil
  have := startsName_writeIdentifier hne []
  rw [hnil] at this
  cases this

theorem readNamed_ident {cs name rest : List Char} (h : readName cs = (name, rest))
    (hopen : rest.head? ≠ some '(') : readNamed cs = (.ident (String.ofList name), rest) := by
  unfold readNamed
  rw [h]
  dsimp only
  split
  · exact absurd rfl hopen
  · rfl

theorem readNamed_function {cs name rest : List Char} (h : readName cs = (name, '(' :: rest))
    (hurl : sameIgnoringCase (String.ofList name) "url" = true → quoteAhead rest = true) :
    readNamed cs = (.function (String.ofList name), rest) := by
  unfold readNamed
  rw [h]
  dsimp only
  split
  · next heq =>
    cases heq
    split
    · next hcond =>
      rw [Bool.and_eq_true, Bool.not_eq_true'] at hcond
      rw [hurl hcond.1] at hcond
      exact absurd hcond.2 (by decide)
    · rfl
  · next hno => exact absurd rfl (hno rest)

section Named

variable {name : String} {rest : List Char}

theorem toList_ne_nil (h : name ≠ "") : name.toList ≠ [] := fun hnil => h (String.toList_eq_nil_iff.1 hnil)

/-- The text of a name is read as a name, up to its end. -/
theorem readToken_writeIdentifier (hne : name ≠ "") (hnul : nul ∉ name.toList) (hrest : readName rest = ([], rest))
    (hmarkup : name = "--" → rest.head? ≠ some '>') :
    ∃ c cs, writeIdentifier name.toList = c :: cs ∧ readToken c (cs ++ rest) = readNamed (c :: (cs ++ rest)) ∧
      readName (c :: (cs ++ rest)) = (name.toList, rest) := by
  have hne := toList_ne_nil hne
  obtain ⟨c, cs, htext⟩ := List.exists_cons_of_ne_nil (writeIdentifier_ne_nil hne)
  have hstart := startsName_writeIdentifier hne rest
  have hclose : startsMarkupClose (writeIdentifier name.toList ++ rest) = false :=
    startsMarkupClose_writeIdentifier hne fun h => hmarkup (String.toList_inj.1 h)
  have hname := readName_writeIdentifier hnul hrest
  rw [htext, List.cons_append] at hstart hclose hname
  exact ⟨c, cs, htext, readToken_of_startsName hstart hclose, hname⟩

theorem readsBack_ident (hne : name ≠ "") (hnul : nul ∉ name.toList) (hrest : readName rest = ([], rest))
    (hopen : rest.head? ≠ some '(') (hmarkup : name = "--" → rest.head? ≠ some '>') :
    (Token.ident name).ReadsBack rest := by
  obtain ⟨c, cs, htext, hread, hname⟩ := readToken_writeIdentifier hne hnul hrest hmarkup
  refine ⟨c, cs, htext, ?_⟩
  rw [hread, readNamed_ident hname hopen, String.ofList_toList]

/-- A function's name may be that of a url if a quote comes next. -/
theorem readsBack_function (hne : name ≠ "") (hnul : nul ∉ name.toList)
    (hurl : sameIgnoringCase name "url" = true → quoteAhead rest = true) :
    (Token.function name).ReadsBack rest := by
  have hends : readName ('(' :: rest) = ([], '(' :: rest) := readName_of_endsName rfl
  obtain ⟨c, cs, htext, hread, hname⟩ := readToken_writeIdentifier hne hnul hends (by simp)
  refine ⟨c, cs ++ ['('], by rw [text, htext, List.cons_append], ?_⟩
  rw [List.append_assoc, List.singleton_append, hread, readNamed_function hname (by rwa [String.ofList_toList]),
    String.ofList_toList]

theorem readUrl_ne_function (cs : List Char) (name : String) : (readUrl cs).1 ≠ .function name := by
  unfold readUrl
  dsimp only
  split <;> exact nofun

/-- The text of a function starts with a url or with that function. -/
theorem readsBack_function_of_lexeme (hne : name ≠ "") (hnul : nul ∉ name.toList) {x : Lexeme}
    {xs : List Lexeme} (h : Lexeme.ofChars ((Token.function name).text ++ rest) = x :: xs)
    (hx : x.token = .function name) : (Token.function name).ReadsBack rest := by
  apply readsBack_function hne hnul
  intro hurl
  cases hquote : quoteAhead rest with
  | true => rfl
  | false =>
    -- without a quote ahead the text starts with a url
    have hends : readName ('(' :: rest) = ([], '(' :: rest) := readName_of_endsName rfl
    obtain ⟨c, cs, htext, hread, hname⟩ := readToken_writeIdentifier hne hnul hends (by simp)
    obtain ⟨d, u, -, hcons, htoken, -⟩ := Lexeme.ofChars_eq_cons h
    rw [text, htext, List.append_assoc, List.singleton_append] at hcons
    obtain ⟨rfl, hrest⟩ : c = d ∧ cs ++ '(' :: rest = u ++ Lexeme.chars xs := List.cons.inj hcons
    rw [← hrest, hread] at htoken
    have hspoilt : (readNamed (c :: (cs ++ '(' :: rest))).1 = (readUrl rest).1 := by
      simp only [readNamed, hname, String.ofList_toList, hurl, hquote]
      rfl
    rw [htoken, hx] at hspoilt
    exact absurd hspoilt.symm (readUrl_ne_function rest name)

theorem readsBack_idHash (hne : name ≠ "") (hnul : nul ∉ name.toList) (hrest : readName rest = ([], rest)) :
    (Token.idHash name).ReadsBack rest := by
  refine ⟨'#', writeIdentifier name.toList, rfl, ?_⟩
  show readHash (writeIdentifier name.toList ++ rest) = _
  rw [readHash, if_pos (startsName_writeIdentifier (toList_ne_nil hne) rest),
    readName_writeIdentifier hnul hrest, String.ofList_toList]

end Named

/-! ## Strings and signs -/

section Signs

variable {rest : List Char}

theorem readsBack_string {value : String} (hnul : nul ∉ value.toList) : (Token.string value).ReadsBack rest := by
  refine ⟨'"', writeQuoted value.toList ++ ['"'], rfl, ?_⟩
  show readString '"' _ = _
  rw [List.append_assoc, List.singleton_append, readString, readQuoted_writeQuoted hnul]
  simp

/-- A sign that an equals sign would go on with. -/
theorem readsBack_sign (op : MatchOperator) (h : rest.head? ≠ some '=') : (delim op.sign).ReadsBack rest := by
  refine ⟨op.sign, [], rfl, ?_⟩
  cases op <;> exact if_neg h

theorem readsBack_matching (op : MatchOperator) : (Token.matching op).ReadsBack rest := by
  refine ⟨op.sign, ['='], rfl, ?_⟩
  cases op <;> rfl

theorem readsBack_equals : (delim '=').ReadsBack rest := ⟨'=', [], rfl, rfl⟩

theorem readsBack_greater : (delim '>').ReadsBack rest := ⟨'>', [], rfl, rfl⟩

theorem readsBack_plus (h : startsUnsigned rest = false) : (delim '+').ReadsBack rest := by
  refine ⟨'+', [], rfl, ?_⟩
  show (if startsUnsigned rest = true then readNumeric ('+' :: rest) else (delim '+', rest)) = _
  rw [if_neg (by simp [h])]

theorem readsBack_point (h : startsUnsigned ('.' :: rest) = false) : (delim '.').ReadsBack rest := by
  refine ⟨'.', [], rfl, ?_⟩
  show (if startsNumber ('.' :: rest) = true then readNumeric ('.' :: rest) else (delim '.', rest)) = _
  rw [if_neg (by simp [startsNumber, h, isSign])]

theorem readsBack_colon : Token.colon.ReadsBack rest := ⟨':', [], rfl, rfl⟩

theorem readsBack_comma : Token.comma.ReadsBack rest := ⟨',', [], rfl, rfl⟩

theorem readsBack_opening (b : Bracket) : (Token.opening b).ReadsBack rest := by
  refine ⟨b.openChar, [], rfl, ?_⟩
  cases b <;> rfl

theorem readsBack_closing (b : Bracket) : (Token.closing b).ReadsBack rest := by
  refine ⟨b.closeChar, [], rfl, ?_⟩
  cases b <;> rfl

theorem readsBack_markupClose : Token.markupClose.ReadsBack rest := ⟨'-', ['-', '>'], rfl, rfl⟩

theorem readsBack_separator : (Token.comment "").ReadsBack rest := ⟨'/', ['*', '*', '/'], rfl, rfl⟩

theorem readsBack_space (h : rest.head?.any isSpace = false) : (Token.whitespace " ").ReadsBack rest := by
  refine ⟨' ', [], rfl, ?_⟩
  show readSpace (' ' :: rest) = _
  cases rest with
  | nil => rfl
  | cons c rest =>
    have hc : isSpace c = false := h
    have hblank : isSpace ' ' = true := rfl
    simp [readSpace, hc, hblank]

end Signs

end Token

end StyleSelectors
