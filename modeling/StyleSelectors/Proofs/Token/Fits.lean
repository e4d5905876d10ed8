/-
What a text settles about each of its tokens and those after it. A string that was cut off has a line end
after it, a run of blanks no other blank, a hash sign no name: `Token.Fits` says for every kind of token
what its reader has made sure of, told by the tokens that come next, so that it still can be asked where
these are written anew. It holds all along the tokens of a text: `Token.fits_ofChars`.
-/
import StyleSelectors.Proofs.Token.Clean
import StyleSelectors.Proofs.Token.Sign
import StyleSelectors.Proofs.Token.Trim

namespace StyleSelectors

open Text Numeric

namespace Token

/-! ## Tokens and what comes after them -/

/-- Whether something holds of each token and those after it. -/
def Everywhere (P : Token → List Token → Prop) : List Token → Prop
  | [] => True
  | t :: rest => P t rest ∧ Everywhere P rest

/-- A character that is a token by itself, unless what comes next goes on with it. -/
def isStray (c : Char) : Bool :=
  !(isSpace c || isNameStart c || c.isDigit ||
    ['"', '\'', ':', ';', ',', '(', ')', '[', ']', '\x7b', '\x7d'].contains c)

/-- Whether a line ends right before the tokens. -/
def lineNext : List Token → Bool
  | .whitespace space :: _ => atNewline space.toList
  | _ => false

def isQuoted : Token → Bool
  | .string _ | .badString _ => true
  | _ => false

/-- Whether the first thing after blanks is a string. -/
def quoteNext (rest : List Token) : Bool := (rest.dropWhile isWhitespace).head?.any isQuoted

/-- Whether the text of a token starts with a star, as that of a comment goes on after its slash. -/
def isStar (t : Token) : Bool := t == .delim '*' || t == .matching .part

/-- What a name after a hash sign is like if it is no identifier: it starts as a number does. -/
inductive HashFits (rest : List Token) : List Char → Prop
  | digit {c : Char} (name : List Char) : c.isDigit = true → HashFits rest (c :: name)
  | dashed {c : Char} (name : List Char) : c.isDigit = true → HashFits rest ('-' :: c :: name)
  | dash : rest.head? ≠ some (.delim '\\') → HashFits rest ['-']

structure DelimFits (c : Char) (rest : List Token) : Prop where
  stray : isStray c = true
  close : c = '#' ∨ c = '@' ∨ c = '-' → rest.head? ≠ some .markupClose
  slash : c = '-' → rest.head? ≠ some (.delim '\\')
  line : c = '\\' → lineNext rest = true
  comment : c = '/' → ∀ next ∈ rest.head?, next.isStar = false

structure SpaceFits (space : List Char) (rest : List Token) : Prop where
  ne_nil : space ≠ []
  isSpace : ∀ c ∈ space, isSpace c = true
  next : ∀ next ∈ rest.head?, next.isWhitespace = false

/-- What a token's reader has made sure of. -/
def Fits : Token → List Token → Prop
  | .ident name, _ | .atKeyword name, _ | .idHash name, _ => IsName name
  | .function name, rest => IsName name ∧ (sameIgnoringCase name "url" = true → quoteNext rest = true)
  | .hash name, rest => IsShown name ∧ HashFits rest name.toList
  | .string value, _ | .url value, _ => IsShown value
  | .badString value, rest => IsShown value ∧ lineNext rest = true
  | .delim c, rest => DelimFits c rest
  | .whitespace space, rest => SpaceFits space.toList rest
  | .comment inside, _ => ∀ v, readComment (inside.toList ++ '*' :: '/' :: v) = (inside.toList, v)
  | _, _ => True

/-! ## The first token of a text -/

section First

variable {c : Char} {rest : List Char}

theorem ofChars_nil : ofChars [] = [] := by
  rw [ofChars, Lexeme.ofChars]
  rfl

theorem ofChars_cons (c : Char) (rest : List Char) :
    ofChars (c :: rest) = (readToken c rest).1 :: ofChars (readToken c rest).2 := by
  rw [ofChars, Lexeme.ofChars]
  rfl

theorem eq_nil_of_ofChars {cs : List Char} (h : ofChars cs = []) : cs = [] := by
  cases cs with
  | nil => rfl
  | cons c rest =>
    rw [ofChars_cons] at h
    cases h

theorem head?_ofChars_cons (c : Char) (rest : List Char) : (ofChars (c :: rest)).head? = some (readToken c rest).1 := by
  rw [ofChars_cons, List.head?_cons]

/-- What no reader of strings, numbers and names gives. -/
def isFixed : Token → Bool
  | .delim _ | .matching _ | .markupClose => true
  | _ => false

theorem isFixed_readString (quote : Char) (cs : List Char) : (readString quote cs).1.isFixed = false := by
  unfold readString
  dsimp only
  split <;> rfl

theorem isFixed_readNumeric (cs : List Char) : (readNumeric cs).1.isFixed = false := by
  unfold readNumeric
  dsimp only
  split
  · rfl
  split <;> rfl

theorem isFixed_readUrl (cs : List Char) : (readUrl cs).1.isFixed = false := by
  unfold readUrl
  dsimp only
  split <;> rfl

theorem isFixed_readNamed (cs : List Char) : (readNamed cs).1.isFixed = false := by
  unfold readNamed
  dsimp only
  split
  · split
    · exact isFixed_readUrl _
    · rfl
  · rfl

/-- Such a token is the end of markup, or read from its first character. -/
theorem readToken_of_isFixed (h : (readToken c rest).1.isFixed = true) :
    (c = '-' ∧ ['-', '>'] <+: rest ∧ (readToken c rest).1 = .markupClose) ∨ readToken c rest = readSymbol c rest := by
  unfold readToken at h ⊢
  split at h
  · cases h
  split at h
  · rw [isFixed_readString] at h; cases h
  split at h
  · rw [isFixed_readNumeric] at h; cases h
  split at h
  · next hspace hquote hnumber hclose =>
    rw [if_neg hspace, if_neg hquote, if_neg hnumber, if_pos hclose]
    exact .inl ⟨hclose.1, hclose.2, rfl⟩
  split at h
  · rw [isFixed_readNamed] at h; cases h
  · simp only [*, if_false, Bool.false_eq_true, or_true]

theorem readHash_ne (cs : List Char) (op : MatchOperator) :
    (readHash cs).1 ≠ .markupClose ∧ (readHash cs).1 ≠ .matching op := by
  unfold readHash
  repeat' split
  all_goals exact ⟨nofun, nofun⟩

theorem readSymbol_ne_markupClose (c : Char) (rest : List Char) : (readSymbol c rest).1 ≠ .markupClose := by
  unfold readSymbol
  split
  · split <;> exact nofun
  · exact nofun
  · exact nofun
  · repeat' split
    all_goals first | exact (readHash_ne rest .part).1 | exact nofun

theorem readSymbol_matching {op : MatchOperator} (h : (readSymbol c rest).1 = .matching op) : c = op.sign := by
  unfold readSymbol at h
  split at h
  · next hsign =>
    split at h
    · cases h
      have hc : op.sign = c := by simpa using List.find?_some hsign
      exact hc.symm
    · cases h
  · cases h
  · cases h
  · repeat' split at h
    all_goals first | exact absurd h (readHash_ne rest op).2 | cases h

/-- The end of markup is read from its three characters. -/
theorem readToken_markupClose (h : (readToken c rest).1 = .markupClose) : c = '-' ∧ ['-', '>'] <+: rest := by
  rcases readToken_of_isFixed (by rw [h]; rfl) with ⟨hc, hrest, -⟩ | hread
  · exact ⟨hc, hrest⟩
  · rw [hread] at h
    exact absurd h (readSymbol_ne_markupClose c rest)

theorem readToken_matching {op : MatchOperator} (h : (readToken c rest).1 = .matching op) : c = op.sign := by
  rcases readToken_of_isFixed (by rw [h]; rfl) with ⟨-, -, hclose⟩ | hread
  · rw [hclose] at h
    cases h
  · rw [hread] at h
    exact readSymbol_matching h

/-- Where no name starts, no markup ends. -/
theorem head?_ne_markupClose {cs : List Char} (h : startsName cs = false) :
    (ofChars cs).head? ≠ some .markupClose := by
  cases cs with
  | nil =>
    rw [ofChars_nil]
    intro hhead
    cases hhead
  | cons c rest =>
    intro hhead
    rw [head?_ofChars_cons] at hhead
    obtain ⟨rfl, tail, rfl⟩ := readToken_markupClose (Option.some.inj hhead)
    cases h

theorem head?_ne_delim {cs : List Char} {d : Char} (h : cs.head? ≠ some d) :
    (ofChars cs).head? ≠ some (.delim d) := by
  cases cs with
  | nil =>
    rw [ofChars_nil]
    intro hhead
    cases hhead
  | cons c rest =>
    intro hhead
    rw [head?_ofChars_cons] at hhead
    obtain ⟨rfl, -⟩ := readToken_delim (Option.some.inj hhead)
    exact h rfl

theorem not_isStar_ofChars {cs : List Char} (h : cs.head? ≠ some '*') :
    ∀ next ∈ (ofChars cs).head?, next.isStar = false := by
  cases cs with
  | nil =>
    rw [ofChars_nil]
    intro next hnext
    cases hnext
  | cons c rest =>
    intro next hnext
    rw [head?_ofChars_cons] at hnext
    obtain rfl := Option.some.inj hnext
    refine Bool.eq_false_iff.2 fun hstar => h ?_
    rw [isStar, Bool.or_eq_true, beq_iff_eq, beq_iff_eq] at hstar
    rcases hstar with hdelim | hpart
    · rw [(readToken_delim hdelim).1, List.head?_cons]
    · rw [readToken_matching hpart]
      rfl

theorem lineNext_ofChars {cs : List Char} (h : atNewline cs = true) : lineNext (ofChars cs) = true := by
  cases cs with
  | nil => cases h
  | cons c rest =>
    have hspace : isSpace c = true := isSpace_of_isNewline h
    rw [ofChars_cons, readToken, if_pos hspace, readSpace, lineNext, String.toList_ofList,
      List.takeWhile_cons_of_pos hspace]
    exact h

/-- A string after blanks is one for the tokens too. -/
theorem quoteNext_ofChars {cs : List Char} (h : quoteAhead cs = true) : quoteNext (ofChars cs) = true := by
  obtain ⟨c, hc, hquote⟩ := (Option.any_eq_true _ _).1 h
  obtain ⟨rest, hdrop⟩ := List.head?_eq_some_iff.1 hc
  have hquote : c = '"' ∨ c = '\'' := by simpa using hquote
  have hspace : isSpace c = false := by rcases hquote with rfl | rfl <;> rfl
  have hstring : (readToken c rest).1.isQuoted = true := by
    rw [readToken, if_neg (by simp [hspace]), if_pos hquote, readString]
    dsimp only
    split <;> rfl
  have hcs : cs = cs.takeWhile isSpace ++ c :: rest := by rw [← hdrop, List.takeWhile_append_dropWhile]
  rw [quoteNext, hcs, dropWhile_ofChars (fun d hd => List.mem_takeWhile_imp hd), head?_ofChars_cons]
  · exact hstring
  · intro d hd
    cases hd
    exact hspace

end First

/-! ## Reading each kind -/

theorem nul_not_mem_readUrlBody (cs : List Char) : ∀ chars ∈ (readUrlBody cs).1, nul ∉ chars := by
  fun_induction readUrlBody cs with
  | case1 | case2 =>
    rintro chars ⟨⟩
    exact List.not_mem_nil
  | case3 =>
    intro chars h
    dsimp only at h
    split at h
    · cases h
      exact List.not_mem_nil
    · cases h
  | case4 | case5 =>
    intro chars h
    cases h
  | case6 rest _ _ _ _ _ _ _ ih =>
    intro chars h
    obtain ⟨tail, htail, rfl⟩ := Option.map_eq_some_iff.1 h
    exact List.not_mem_cons_of_ne_of_not_mem (readEscape_ne_nul rest).symm (ih tail htail)
  | case7 c rest _ _ _ _ _ ih =>
    intro chars h
    obtain ⟨tail, htail, rfl⟩ := Option.map_eq_some_iff.1 h
    exact List.not_mem_cons_of_ne_of_not_mem (shown_ne_nul c).symm (ih tail htail)

/-- A string that is not closed ends before a line end. -/
theorem atNewline_readQuoted {quote : Char} {cs : List Char} (h : (readQuoted quote cs).1.2 = false) :
    atNewline (readQuoted quote cs).2 = true := by
  fun_induction readQuoted quote cs with
  | case1 | case2 | case4 => cases h
  | case3 c rest _ hline => exact hline
  | case5 _ _ _ _ _ _ ih => exact ih h
  | case6 _ _ _ _ _ _ _ _ ih => exact ih h
  | case7 _ _ _ _ _ _ ih => exact ih h

/-- A comment's text is read up to its end, whatever comes next. -/
theorem readComment_readComment (cs v : List Char) :
    readComment ((readComment cs).1 ++ '*' :: '/' :: v) = ((readComment cs).1, v) := by
  fun_induction readComment cs with
  | case1 => rfl
  | case2 rest => rfl
  | case3 c rest hend ih =>
    rw [List.cons_append, readComment_cons, ih]
    rintro ⟨rfl, hhead⟩
    -- the slash would be the first character after the star
    cases rest with
    | nil => cases hhead
    | cons d rest =>
      by_cases hd : d = '/'
      · exact hend rest rfl (by rw [hd])
      · rw [readComment.eq_def] at hhead
        split at hhead
        · cases hhead
        · cases hhead
        · next heq =>
          cases heq
          exact hd (Option.some.inj hhead)

theorem fits_readString (quote : Char) (cs : List Char) :
    Fits (readString quote cs).1 (ofChars (readString quote cs).2) := by
  have hnul : IsShown (String.ofList (readQuoted quote cs).1.1) := by
    rw [IsShown, String.toList_ofList]
    exact nul_not_mem_readQuoted quote cs
  unfold readString
  dsimp only
  split
  · exact hnul
  · next hopen => exact ⟨hnul, lineNext_ofChars (atNewline_readQuoted (Bool.not_eq_true _ |>.mp hopen))⟩

theorem fits_readUrl (cs : List Char) (rest : List Token) : Fits (readUrl cs).1 rest := by
  unfold readUrl
  dsimp only
  split
  · next chars hbody =>
    show IsShown (String.ofList chars)
    rw [IsShown, String.toList_ofList]
    exact nul_not_mem_readUrlBody _ chars hbody
  · trivial

theorem fits_readNamed {cs : List Char} (h : startsName cs = true) :
    Fits (readNamed cs).1 (ofChars (readNamed cs).2) := by
  unfold readNamed
  dsimp only
  split
  · next rest _ =>
    split
    · exact fits_readUrl rest _
    · next hurl =>
      refine ⟨isName_readName h, fun hname => quoteNext_ofChars ?_⟩
      simpa [hname] using hurl
  · exact isName_readName h

theorem fits_readHash (rest : List Char) : Fits (readHash rest).1 (ofChars (readHash rest).2) := by
  unfold readHash
  split
  · next hname => exact isName_readName hname
  next hname =>
  rw [Bool.not_eq_true] at hname
  split
  · next hhead =>
    have hnul : IsShown (String.ofList (readName rest).1) := by
      rw [IsShown, String.toList_ofList]
      exact nul_not_mem_readName rest
    refine ⟨hnul, ?_⟩
    rw [String.toList_ofList]
    cases rest with
    | nil => cases hhead
    | cons c rest =>
      have hc : c.isDigit = true ∨ c = '-' := by simpa using hhead
      rcases hc with hc | rfl
      · have hchar : isNameChar c = true := by rw [isNameChar, hc, Bool.or_true, Bool.true_or]
        rw [readName_cons hchar, shown_of_ne_nul (toNat_of_isDigit hc).1]
        exact .digit _ hc
      · -- after the dash comes no name, and so a digit or something else
        rw [readName_dash]
        cases rest with
        | nil =>
          rw [readName, ofChars_nil]
          exact .dash (by simp)
        | cons d rest =>
          obtain ⟨⟨hstart, hdash⟩, hslash⟩ : (isNameStart d = false ∧ d ≠ '-') ∧ d ≠ '\\' := by
            simpa [startsName] using hname
          by_cases hdigit : d.isDigit = true
          · have hchar : isNameChar d = true := by rw [isNameChar, hdigit, Bool.or_true, Bool.true_or]
            rw [readName_cons hchar, shown_of_ne_nul (toNat_of_isDigit hdigit).1]
            exact .dashed _ hdigit
          · have hends : endsName (d :: rest) = true := by
              simp [endsName, isNameChar, hstart, hdash, hslash, hdigit]
            rw [readName_of_endsName hends]
            exact .dash (head?_ne_delim (by simpa using hslash))
  · exact
      { stray := by decide
        close := fun _ => head?_ne_markupClose hname
        slash := fun h => absurd h (by decide)
        line := fun h => absurd h (by decide)
        comment := fun h => absurd h (by decide) }

theorem isStray_of_readToken {c d : Char} {rest : List Char} (h : (readToken c rest).1 = .delim d) :
    isStray c = true := by
  cases hstray : isStray c with
  | true => rfl
  | false =>
    exfalso
    have hc : isSpace c = true ∨ isNameStart c = true ∨ c.isDigit = true ∨
        c ∈ ['"', '\'', ':', ';', ',', '(', ')', '[', ']', '\x7b', '\x7d'] := by
      rw [isStray, Bool.not_eq_false'] at hstray
      simpa only [Bool.or_eq_true, List.contains_iff_mem, or_assoc] using hstray
    obtain ⟨rfl, hnumber⟩ := readToken_delim h
    rcases hc with hspace | hstart | hdigit | hc
    · rw [readToken, if_pos hspace] at h
      cases h
    · have hclose := startsMarkupClose_cons (ne_dash_of_isNameStart hstart) rest
      rw [readToken_of_startsName (startsName_of_isNameStart hstart rest) hclose] at h
      exact readNamed_ne_delim _ _ h
    · have hpoint : c ≠ '.' := by
        rintro rfl
        cases hdigit
      rw [startsNumber, startsUnsigned_of_ne hpoint, hdigit] at hnumber
      cases hnumber
    · simp only [List.mem_cons, List.not_mem_nil, or_false] at hc
      rcases hc with rfl | rfl | rfl | rfl | rfl | rfl | rfl | rfl | rfl | rfl | rfl
      · exact readString_ne_delim _ _ _ h
      · exact readString_ne_delim _ _ _ h
      all_goals cases h

theorem delimFits_ofChars {c : Char} {rest : List Char} (hstray : isStray c = true)
    (hname : startsName (c :: rest) = false) (hhash : c ≠ '#') (hat : c = '@' → startsName rest = false)
    (hcomment : c = '/' → rest.head? ≠ some '*') : DelimFits c (ofChars rest) where
  stray := hstray
  close := by
    rintro (rfl | rfl | rfl)
    · exact absurd rfl hhash
    · exact head?_ne_markupClose (hat rfl)
    · cases rest with
      | nil =>
        rw [ofChars_nil]
        intro hclose
        cases hclose
      | cons d rest =>
        intro hclose
        rw [head?_ofChars_cons] at hclose
        obtain ⟨rfl, -⟩ := readToken_markupClose (Option.some.inj hclose)
        cases hname
  slash := by
    rintro rfl
    apply head?_ne_delim
    intro hslash
    obtain ⟨tail, rfl⟩ := List.head?_eq_some_iff.1 hslash
    cases hname
  line := by
    rintro rfl
    exact lineNext_ofChars (by simpa [startsName] using hname)
  comment hc := not_isStar_ofChars (hcomment hc)

theorem fits_readSymbol {c : Char} {rest : List Char} (hname : startsName (c :: rest) = false)
    (hstray : ∀ d, (readSymbol c rest).1 = .delim d → isStray c = true) :
    Fits (readSymbol c rest).1 (ofChars (readSymbol c rest).2) := by
  revert hstray
  unfold readSymbol
  cases hsign : MatchOperator.ofSign? c with
  | some op =>
    have hc : op.sign = c := by simpa using List.find?_some hsign
    dsimp only
    split
    · exact fun _ => trivial
    · intro hstray
      refine delimFits_ofChars (hstray c rfl) hname ?_ ?_ ?_
      all_goals
        rintro rfl
        cases op <;> cases hc
  | none =>
    cases Bracket.ofOpen? c with
    | some b => exact fun _ => trivial
    | none =>
      cases Bracket.ofClose? c with
      | some b => exact fun _ => trivial
      | none =>
        dsimp only
        repeat' split
        · exact fun _ => trivial
        · exact fun _ => trivial
        · exact fun _ => trivial
        · exact fun _ => trivial
        · intro _ v
          rw [String.toList_ofList]
          exact readComment_readComment _ v
        · exact fun _ => fits_readHash rest
        · next hat => exact fun _ => isName_readName hat.2
        · next hcomment hhash hat =>
          intro hstray
          refine delimFits_ofChars (hstray c rfl) hname hhash ?_ fun hc hstar => hcomment ⟨hc, ?_⟩
          · rintro rfl
            exact Bool.not_eq_true _ |>.mp fun hstart => hat ⟨rfl, hstart⟩
          · obtain ⟨tail, rfl⟩ := List.head?_eq_some_iff.1 hstar
            exact ⟨tail, rfl⟩

theorem fits_readToken (c : Char) (rest : List Char) : Fits (readToken c rest).1 (ofChars (readToken c rest).2) := by
  have hstray (d : Char) (hd : (readToken c rest).1 = .delim d) : isStray c = true := isStray_of_readToken hd
  revert hstray
  unfold readToken
  split
  · next hspace =>
    intro _
    refine ⟨?_, ?_, ?_⟩
    · rw [String.toList_ofList, List.takeWhile_cons_of_pos hspace]
      exact List.cons_ne_nil _ _
    · rw [String.toList_ofList]
      exact fun d hd => List.mem_takeWhile_imp hd
    · apply head_ofChars
      intro d hd
      have := List.head?_dropWhile_not isSpace (c :: rest)
      rw [show ((c :: rest).dropWhile isSpace).head? = some d from hd] at this
      simpa using this
  split
  · exact fun _ => fits_readString c rest
  split
  · intro _
    unfold readNumeric
    dsimp only
    split
    · trivial
    · split <;> trivial
  split
  · exact fun _ => trivial
  split
  · next hname => exact fun _ => fits_readNamed hname
  · next hname => exact fits_readSymbol (Bool.not_eq_true _ |>.mp hname)

/-- Every token of a text fits what comes after it. -/
theorem fits_ofChars (cs : List Char) : Everywhere Fits (ofChars cs) := by
  rw [ofChars]
  fun_induction Lexeme.ofChars cs with
  | case1 => trivial
  | case2 c rest read _ ih => exact ⟨fits_readToken c rest, ih⟩

end Token

end StyleSelectors
