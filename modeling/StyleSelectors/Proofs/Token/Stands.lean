/-
Tokens that read back in front of the tokens after them. What a token's reader has made sure of, and that it
does not run into the next token, is told by tokens (`Stands`); here it becomes what the text after it starts
with, which is what reading it back asks for (`readsBack_of_stands`).
-/
import StyleSelectors.Proofs.Token.Kinds
import StyleSelectors.Proofs.Token.Url
import StyleSelectors.Proofs.Token.Weave

namespace StyleSelectors.Token

open Text Numeric

/-! ## What is asked of the tokens -/

/-- What is left of a name that starts with two dashes, where the text that is left reads as this. -/
inductive Undashed : Token → List Token → Prop
  | ident {name : String} : name.toList = ['-', '-'] → Undashed (.ident name) []
  | function {name : String} : name.toList = ['-', '-'] → Undashed (.function name) [.opening .round]
  | identMore {name left : String} : name.toList = '-' :: '-' :: left.toList → left ≠ "" →
      writeIdentifier left.toList = writeName left.toList → Undashed (.ident name) [.ident left]
  | functionMore {name left : String} : name.toList = '-' :: '-' :: left.toList → left ≠ "" →
      writeIdentifier left.toList = writeName left.toList → sameIgnoringCase left "url" = false →
      Undashed (.function name) [.function left]

/-- Whether two dashes after `<!`, which start markup with it, are those of a name of which the rest is left. -/
def KeepsMarkup (t : Token) (rest : List Token) : Prop :=
  t = .delim '<' → ∀ next more, rest = .delim '!' :: next :: more → ['-', '-'] <+: next.text →
    ∃ left, Undashed next left

/-- What lets a token read back in front of the tokens after it. -/
structure Stands (t : Token) (rest : List Token) : Prop where
  fits : Fits t rest
  apart : Apart t rest
  number : t.isNumeric = false
  markup : KeepsMarkup t rest

/-! ## First characters -/

/-- The characters that the text of a token may start with. -/
def canStart : Token → Char → Bool
  | .ident _, c | .function _, c => isNameStart c || c == '\\' || c == '-'
  | .atKeyword _, c => c == '@'
  | .hash _, c | .idHash _, c => c == '#'
  | .string _, c | .badString _, c => c == '"'
  | .url _, c | .badUrl _, c => c == 'u'
  | .delim d, c => isStray d && c == d
  | .whitespace _, c => isSpace c
  | .comment _, c => c == '/'
  | .colon, c => c == ':'
  | .semicolon, c => c == ';'
  | .comma, c => c == ','
  | .matching op, c => c == op.sign
  | .markupOpen, c => c == '<'
  | .markupClose, c => c == '-'
  | .opening b, c => c == b.openChar
  | .closing b, c => c == b.closeChar
  | .number _, _ | .percentage _, _ | .dimension _ _, _ => false

section CanStart

variable {t : Token} {c : Char} {rest w : List Token}

theorem exists_writeIdentifier {cs : List Char} (h : cs ≠ []) :
    ∃ c u, writeIdentifier cs = c :: u ∧ (isNameStart c || c == '\\' || c == '-') = true := by
  obtain ⟨c, u, hcu⟩ := List.exists_cons_of_ne_nil (writeIdentifier_ne_nil h)
  have hstart := startsName_writeIdentifier h []
  rw [List.append_nil, hcu] at hstart
  refine ⟨c, u, hcu, ?_⟩
  rcases startsName_cases hstart with hc | hc | ⟨hc, -⟩ <;> simp [hc]

theorem exists_text (h : Fits t rest) (hnumber : t.isNumeric = false) :
    ∃ c u, t.text = c :: u ∧ t.canStart c = true := by
  cases t with
  | ident name => exact exists_writeIdentifier (toList_ne_nil h.1)
  | function name =>
    obtain ⟨c, u, hcu, hc⟩ := exists_writeIdentifier (toList_ne_nil h.1.1)
    exact ⟨c, u ++ ['('], by rw [text, hcu, List.cons_append], hc⟩
  | delim d => exact ⟨d, [], rfl, by simp [canStart, h.stray]⟩
  | whitespace space =>
    obtain ⟨c, u, hcu⟩ := List.exists_cons_of_ne_nil h.ne_nil
    exact ⟨c, u, hcu, h.isSpace c (by rw [hcu]; exact List.mem_cons_self ..)⟩
  | number _ | percentage _ | dimension _ _ => cases hnumber
  | _ => exact ⟨_, _, rfl, beq_self_eq_true _⟩

theorem exists_plain (h : Everywhere Stands w) (hc : (plain w).head? = some c) :
    ∃ t rest, w = t :: rest ∧ Stands t rest ∧ Everywhere Stands rest ∧ t.canStart c = true ∧
      ∃ u, t.text = c :: u ∧ plain w = c :: (u ++ plain rest) := by
  cases w with
  | nil => cases hc
  | cons t rest =>
    obtain ⟨d, u, htext, hd⟩ := exists_text h.1.fits h.1.number
    rw [plain_cons, htext, List.cons_append] at hc ⊢
    obtain rfl : d = c := Option.some.inj hc
    exact ⟨t, rest, rfl, h.1, h.2, hd, u, htext, rfl⟩

theorem head?_plain_ne (h : Everywhere Stands w) (hw : ∀ next ∈ w.head?, next.canStart c = false) :
    (plain w).head? ≠ some c := by
  intro hc
  obtain ⟨t, rest, rfl, -, -, ht, -⟩ := exists_plain h hc
  rw [hw t rfl] at ht
  cases ht

theorem delim_of_canStart {d : Char} (h : (delim d).canStart c = true) : isStray c = true ∧ c = d := by
  rw [canStart, Bool.and_eq_true, beq_iff_eq] at h
  rw [h.2]
  exact ⟨h.1, rfl⟩

theorem not_isDigit_of_canStart (h : t.canStart c = true) : c.isDigit = false := by
  refine Bool.eq_false_iff.2 fun hdigit => ?_
  cases t with
  | ident _ | function _ =>
    simp only [canStart, Bool.or_eq_true, beq_iff_eq] at h
    rcases h with (hstart | rfl) | rfl
    · rw [isNameStart_iff] at hstart
      rw [isDigit_iff] at hdigit
      omega
    · cases hdigit
    · cases hdigit
  | delim d =>
    rw [(not_of_isStray (delim_of_canStart h).1).2.2.1] at hdigit
    cases hdigit
  | whitespace _ =>
    have hspace : isSpace c = true := h
    rw [isSpace_iff] at hspace
    rw [isDigit_iff] at hdigit
    omega
  | number _ | percentage _ | dimension _ _ => cases h
  | matching op =>
    obtain rfl := beq_iff_eq.1 h
    cases op <;> cases hdigit
  | opening b | closing b =>
    obtain rfl := beq_iff_eq.1 h
    cases b <;> cases hdigit
  | _ =>
    obtain rfl := beq_iff_eq.1 h
    cases hdigit

/-- Whether a name may not go on with a token, and neither may what looks like one. -/
def endsNames (t : Token) : Bool := !t.extendsName && t != .markupClose

theorem not_isNameChar_of_canStart (hends : t.endsNames = true) (h : t.canStart c = true) : isNameChar c = false := by
  refine Bool.eq_false_iff.2 fun hname => ?_
  cases t with
  | ident _ | function _ | url _ | badUrl _ | markupClose => cases hends
  | delim d =>
    obtain ⟨hstray, rfl⟩ := delim_of_canStart h
    obtain ⟨-, hstart, hdigit, -⟩ := not_of_isStray hstray
    have hdash : c ≠ '-' := by
      rintro rfl
      cases hends
    simp [isNameChar, hstart, hdigit, hdash] at hname
  | whitespace _ =>
    have hspace : isSpace c = true := h
    rw [isSpace_iff] at hspace
    rw [isNameChar_iff] at hname
    omega
  | number _ | percentage _ | dimension _ _ => cases h
  | matching op =>
    obtain rfl := beq_iff_eq.1 h
    cases op <;> cases hname
  | opening b | closing b =>
    obtain rfl := beq_iff_eq.1 h
    cases b <;> cases hname
  | _ =>
    obtain rfl := beq_iff_eq.1 h
    cases hname

/-- Characters that are tokens by themselves, wherever a token starts with them. -/
theorem eq_delim_of_canStart (hc : c ∈ ['=', '>', '!', '.']) (h : t.canStart c = true) : t = .delim c := by
  simp only [List.mem_cons, List.not_mem_nil, or_false] at hc
  cases t with
  | delim d => rw [(delim_of_canStart h).2]
  | matching op => rcases hc with rfl | rfl | rfl | rfl <;> cases op <;> cases h
  | opening b | closing b => rcases hc with rfl | rfl | rfl | rfl <;> cases b <;> cases h
  | _ => rcases hc with rfl | rfl | rfl | rfl <;> cases h

theorem eq_slash_of_canStart (hends : t.endsNames = true) (h : t.canStart '\\' = true) : t = .delim '\\' := by
  cases t with
  | ident _ | function _ => cases hends
  | delim d => rw [(delim_of_canStart h).2]
  | matching op => cases op <;> cases h
  | opening b | closing b => cases b <;> cases h
  | _ => cases h

theorem isStar_of_canStart (h : t.canStart '*' = true) : t.isStar = true := by
  cases t with
  | delim d =>
    obtain ⟨-, rfl⟩ := delim_of_canStart h
    rfl
  | matching op => cases op <;> first | rfl | cases h
  | opening b | closing b => cases b <;> cases h
  | _ => cases h

theorem eq_opening_of_canStart (h : t.canStart '(' = true) : t = .opening .round := by
  cases t with
  | delim d =>
    obtain ⟨hstray, rfl⟩ := delim_of_canStart h
    cases hstray
  | matching op => cases op <;> cases h
  | opening b => cases b <;> first | rfl | cases h
  | closing b => cases b <;> cases h
  | _ => cases h

theorem isWhitespace_of_canStart (hspace : isSpace c = true) (h : t.canStart c = true) : t.isWhitespace = true := by
  cases t with
  | ident _ | function _ =>
    simp only [canStart, Bool.or_eq_true, beq_iff_eq] at h
    rcases h with (hstart | rfl) | rfl
    · rw [isNameStart_iff] at hstart
      rw [isSpace_iff] at hspace
      omega
    · cases hspace
    · cases hspace
  | delim d =>
    rw [(not_of_isStray (delim_of_canStart h).1).1] at hspace
    cases hspace
  | whitespace _ => rfl
  | number _ | percentage _ | dimension _ _ => cases h
  | matching op =>
    obtain rfl := beq_iff_eq.1 h
    cases op <;> cases hspace
  | opening b | closing b =>
    obtain rfl := beq_iff_eq.1 h
    cases b <;> cases hspace
  | _ =>
    obtain rfl := beq_iff_eq.1 h
    cases hspace

end CanStart

/-! ## In front of other tokens -/

section Plain

variable {w : List Token} (h : Everywhere Stands w)
include h

theorem not_digit_plain : (plain w).head?.any Char.isDigit = false := by
  rw [Option.any_eq_false]
  intro c hc
  obtain ⟨t, rest, -, -, -, ht, -⟩ := exists_plain h hc
  simp [not_isDigit_of_canStart ht]

theorem startsUnsigned_point : startsUnsigned ('.' :: plain w) = false := by
  have hdigit := not_digit_plain h
  cases hw : plain w with
  | nil => rfl
  | cons c u =>
    rw [hw] at hdigit
    exact hdigit

theorem startsUnsigned_plain : startsUnsigned (plain w) = false := by
  cases hw : plain w with
  | nil => rfl
  | cons c u =>
    obtain ⟨t, rest, rfl, -, hrest, ht, v, htext, hplain⟩ := exists_plain h (c := c) (by rw [hw]; rfl)
    by_cases hc : c = '.'
    · subst hc
      obtain rfl := eq_delim_of_canStart (by decide) ht
      cases htext
      rw [← hw, hplain]
      exact startsUnsigned_point hrest
    · rw [startsUnsigned_of_ne hc, not_isDigit_of_canStart ht]

theorem atNewline_plain (hline : lineNext w = true) : atNewline (plain w) = true := by
  cases w with
  | nil => cases hline
  | cons t rest =>
    cases t with
    | whitespace space =>
      obtain ⟨c, u, hcu⟩ := List.exists_cons_of_ne_nil h.1.fits.ne_nil
      rw [plain_cons, text, hcu]
      rw [lineNext, hcu] at hline
      exact hline
    | _ => cases hline

/-- What a name ends before ends it in the text. -/
theorem stops_plain (hw : ∀ next ∈ w.head?, next.endsNames = true) :
    readName (plain w) = ([], plain w) ∧ startsName (plain w) = false ∧
      ∀ c ∈ (plain w).head?, isNameChar c = false := by
  cases hplain : plain w with
  | nil => exact ⟨by rw [readName], rfl, nofun⟩
  | cons c u =>
    obtain ⟨t, rest, rfl, hstands, hrest, ht, v, htext, heq⟩ := exists_plain h (c := c) (by rw [hplain]; rfl)
    have hends := hw t rfl
    have hchar := not_isNameChar_of_canStart hends ht
    have hhead : ∀ d ∈ (c :: u).head?, isNameChar d = false := by
      rintro d ⟨⟩
      exact hchar
    by_cases hc : c = '\\'
    · -- a backslash that is no escape, with a line end after it
      subst hc
      obtain rfl := eq_slash_of_canStart hends ht
      cases htext
      rw [hplain] at heq
      have hline : atNewline u = true := by
        rw [(List.cons.inj heq).2]
        exact atNewline_plain hrest (hstands.fits.line rfl)
      exact ⟨readName_newline hline, by simp [startsName, hline], hhead⟩
    · have hstart : isNameStart c = false := (Bool.or_eq_false_iff.1 (Bool.or_eq_false_iff.1 hchar).1).1
      refine ⟨readName_of_endsName (by simp [endsName, hchar, hc]), ?_, hhead⟩
      refine Bool.eq_false_iff.2 fun hname => ?_
      rcases startsName_cases hname with hc' | hc' | ⟨rfl, -⟩
      · rw [hstart] at hc'
        cases hc'
      · exact hc hc'
      · cases hchar

theorem quoteAhead_plain (hquote : quoteNext w = true) : quoteAhead (plain w) = true := by
  induction w with
  | nil => cases hquote
  | cons t rest ih =>
    cases t with
    | whitespace space =>
      have hall := h.1.fits.isSpace
      rw [quoteAhead, plain_cons, text, List.dropWhile_append, List.dropWhile_eq_nil_iff.2 hall]
      exact ih h.2 hquote
    | string _ | badString _ => rfl
    | _ => cases hquote

end Plain

/-! ## Reading back -/

section ReadBack

variable {t : Token} {w : List Token}

/-- A token that is no comment runs into nothing. -/
theorem Apart.runsInto (h : Apart t w) (hcomment : t.isComment = false) :
    ∀ next ∈ w.head?, t.runsInto next = false := by
  intro next hnext
  refine Bool.eq_false_iff.2 fun hruns => ?_
  rw [h next hnext hruns] at hcomment
  cases hcomment

theorem endsNames_of_runsInto {next : Token}
    (h : (next.extendsName || next.isNumeric || next == .markupClose) = false) : next.endsNames = true := by
  obtain ⟨hextends, hclose⟩ : (next.extendsName = false ∧ next.isNumeric = false) ∧ next ≠ .markupClose := by
    simpa using h
  simp [endsNames, hextends, hclose]

theorem startsName_dash (hw : Everywhere Stands w) (hends : ∀ next ∈ w.head?, next.endsNames = true)
    (hslash : w.head? ≠ some (.delim '\\')) : startsName ('-' :: plain w) = false := by
  show (plain w).head?.any (fun c => isNameStart c || c == '-' || c == '\\') = false
  rw [Option.any_eq_false]
  intro c hc
  have hchar := (stops_plain hw hends).2.2 c hc
  obtain ⟨⟨hstart, -⟩, hdash⟩ : (isNameStart c = false ∧ c.isDigit = false) ∧ c ≠ '-' := by
    simpa [isNameChar] using hchar
  have hne : c ≠ '\\' := by
    rintro rfl
    obtain ⟨t, rest, rfl, -, -, ht, -⟩ := exists_plain hw hc
    exact hslash (by rw [eq_slash_of_canStart (hends t rfl) ht, List.head?_cons])
  simp [hstart, hdash, hne]

theorem not_isNameStart_of_isDigit {c : Char} (h : c.isDigit = true) : isNameStart c = false ∧ c ≠ '-' ∧ c ≠ '\\' := by
  refine ⟨Bool.eq_false_iff.2 fun hstart => ?_, ?_, ?_⟩
  · rw [isDigit_iff] at h
    rw [isNameStart_iff] at hstart
    omega
  · rintro rfl
    cases h
  · rintro rfl
    cases h

theorem writeNameChar_of_isDigit {c : Char} (h : c.isDigit = true) : writeNameChar c = [c] := by
  rw [writeNameChar, if_neg (toNat_of_isDigit h).1, if_pos (by rw [isNameChar, h, Bool.or_true, Bool.true_or])]

/-- A name after a hash sign that is no identifier does not look like one either. -/
theorem startsName_writeName {cs : List Char} (h : HashFits w cs) (hw : Everywhere Stands w)
    (hends : ∀ next ∈ w.head?, next.endsNames = true) :
    startsName (writeName cs ++ plain w) = false ∧
      (writeName cs ++ plain w).head?.any (fun c => c.isDigit || c == '-') = true := by
  cases h with
  | digit name hc =>
    rw [writeName_cons, writeNameChar_of_isDigit hc]
    obtain ⟨hstart, hdash, hslash⟩ := not_isNameStart_of_isDigit hc
    refine ⟨Bool.eq_false_iff.2 fun hname => ?_, by simp [hc]⟩
    rcases startsName_cases hname with h | h | ⟨h, -⟩
    · rw [hstart] at h
      cases h
    · exact hslash h
    · exact hdash h
  | @dashed c name hc =>
    rw [writeName_cons, writeName_cons, writeNameChar_of_isDigit hc]
    refine ⟨?_, rfl⟩
    show (isNameStart c || c == '-' || c == '\\') = false
    simp [not_isNameStart_of_isDigit hc]
  | dash hslash => exact ⟨startsName_dash hw hends hslash, rfl⟩

/-- What comes after a character that starts a name with what goes on with one. -/
theorem endsNames_after {c : Char} (hc : c = '#' ∨ c = '@' ∨ c = '-') (hfits : DelimFits c w)
    (hapart : Apart (.delim c) w) : ∀ next ∈ w.head?, next.endsNames = true := by
  intro next hnext
  have hclose : next ≠ .markupClose := by
    rintro rfl
    exact hfits.close hc hnext
  have hextends : next.extendsName = false := by
    have hnone := hapart.runsInto rfl next hnext
    rcases hc with rfl | rfl | rfl
    · exact (Bool.or_eq_false_iff.1 hnone).1
    · exact hnone
    · exact (Bool.or_eq_false_iff.1 hnone).1
  simp [endsNames, hextends, hclose]

theorem ends_plain {c : Char} (hfits : DelimFits c w) (hapart : Apart (.delim c) w) (hw : Everywhere Stands w)
    (hmarkup : c = '<' → ¬ ['!', '-', '-'] <+: plain w) : Ends c (plain w) := by
  have hruns := hapart.runsInto rfl
  have hends (hc : c = '#' ∨ c = '@' ∨ c = '-') := endsNames_after hc hfits hapart
  obtain ⟨-, hstart, hdigit, -⟩ := not_of_isStray hfits.stray
  exact
    { number := by
        rw [startsNumber, startsUnsigned_plain hw, Bool.and_false, Bool.or_false]
        by_cases hpoint : c = '.'
        · rw [hpoint]
          exact startsUnsigned_point hw
        · rw [startsUnsigned_of_ne hpoint, hdigit]
      name := by
        refine Bool.eq_false_iff.2 fun hname => ?_
        rcases startsName_cases hname with h | rfl | ⟨rfl, -⟩
        · rw [hstart] at h
          cases h
        · simp [startsName, atNewline_plain hw (hfits.line rfl)] at hname
        · rw [startsName_dash hw (hends (.inr (.inr rfl))) (hfits.slash rfl)] at hname
          cases hname
      sign := by
        intro hsome
        obtain ⟨op, hop⟩ := Option.isSome_iff_exists.1 hsome
        have hc : op.sign = c := by simpa using List.find?_some hop
        refine head?_plain_ne hw fun next hnext => Bool.eq_false_iff.2 fun hequals => ?_
        have hnone := hruns next hnext
        rw [eq_delim_of_canStart (by decide) hequals, ← hc] at hnone
        cases op <;> cases hnone
      markup := hmarkup
      comment := by
        intro hc
        refine head?_plain_ne hw fun next hnext => Bool.eq_false_iff.2 fun hstar => ?_
        have hnone := hfits.comment hc next hnext
        rw [isStar_of_canStart hstar] at hnone
        cases hnone
      named := fun hc => (stops_plain hw (hends (by tauto))).2.1
      hashed := by
        intro hc
        rw [Option.any_eq_false]
        intro d hd
        have hchar := (stops_plain hw (hends (.inl hc))).2.2 d hd
        obtain ⟨⟨-, hdigit⟩, hdash⟩ : (isNameStart d = false ∧ d.isDigit = false) ∧ d ≠ '-' := by
          simpa [isNameChar] using hchar
        simp [hdigit, hdash] }

/-- A token reads back in front of the tokens after it, but for the two accidents with dashes. -/
theorem readsBack_of_stands (h : Everywhere Stands (t :: w))
    (hclosed : ∀ raw, t = .badUrl raw → ofChars t.text = [t])
    (hclose : t = .ident "--" → w.head? ≠ some (.delim '>'))
    (hmarkup : t = .delim '<' → ¬ ['!', '-', '-'] <+: plain w) : t.ReadsBack (plain w) := by
  obtain ⟨⟨hfits, hapart, hnumber, -⟩, hw⟩ := h
  cases t with
  | ident name =>
    have hruns := hapart.runsInto rfl
    have hends (next : Token) (hnext : next ∈ w.head?) : next.endsNames = true :=
      endsNames_of_runsInto (Bool.or_eq_false_iff.1 (hruns next hnext)).1
    refine readsBack_ident hfits.1 hfits.2 (stops_plain hw hends).1 ?_ fun hname => ?_
    · refine head?_plain_ne hw fun next hnext => Bool.eq_false_iff.2 fun hopen => ?_
      have hround := (Bool.or_eq_false_iff.1 (hruns next hnext)).2
      rw [eq_opening_of_canStart hopen] at hround
      cases hround
    · refine head?_plain_ne hw fun next hnext => Bool.eq_false_iff.2 fun hgreater => ?_
      rw [eq_delim_of_canStart (by decide) hgreater] at hnext
      exact hclose (by rw [hname]) hnext
  | atKeyword name =>
    have hends (next : Token) (hnext : next ∈ w.head?) := endsNames_of_runsInto (hapart.runsInto rfl next hnext)
    exact readsBack_atKeyword hfits (stops_plain hw hends).1
  | hash name =>
    have hends (next : Token) (hnext : next ∈ w.head?) := endsNames_of_runsInto (hapart.runsInto rfl next hnext)
    obtain ⟨hname, hdigit⟩ := startsName_writeName hfits.2 hw hends
    exact readsBack_hash hfits.1 (stops_plain hw hends).1 hname hdigit
  | idHash name =>
    have hends (next : Token) (hnext : next ∈ w.head?) := endsNames_of_runsInto (hapart.runsInto rfl next hnext)
    exact readsBack_idHash hfits.1 hfits.2 (stops_plain hw hends).1
  | string value => exact readsBack_string hfits
  | badString value => exact readsBack_badString hfits.1 (atNewline_plain hw hfits.2)
  | url value => exact readsBack_url hfits _
  | badUrl raw => exact readsBack_badUrl (hclosed raw rfl) _
  | delim c => exact readsBack_delim hfits.stray (ends_plain hfits hapart hw fun hc => hmarkup (by rw [hc]))
  | number _ | percentage _ | dimension _ _ => cases hnumber
  | whitespace space =>
    refine readsBack_whitespace hfits.ne_nil hfits.isSpace fun c hc => Bool.eq_false_iff.2 fun hspace => ?_
    obtain ⟨next, rest, rfl, -, -, hnext, -⟩ := exists_plain hw hc
    have hnone := hfits.next next rfl
    rw [isWhitespace_of_canStart hspace hnext] at hnone
    cases hnone
  | comment inside => exact readsBack_comment (hfits _)
  | colon => exact readsBack_colon
  | semicolon => exact readsBack_semicolon
  | comma => exact readsBack_comma
  | matching op => exact readsBack_matching op
  | markupOpen => exact readsBack_markupOpen
  | markupClose => exact readsBack_markupClose
  | function name => exact readsBack_function hfits.1.1 hfits.1.2 fun hurl => quoteAhead_plain hw (hfits.2 hurl)
  | opening b => exact readsBack_opening b
  | closing b => exact readsBack_closing b

end ReadBack

/-! ## Tokens that are kept apart -/

theorem keepsMarkup_of_ne {t : Token} (h : t ≠ .delim '<') (rest : List Token) : KeepsMarkup t rest :=
  fun ht => absurd ht h

theorem keepsMarkup_woven {ts : List Token} (h : Everywhere KeepsMarkup ts) : Everywhere KeepsMarkup (woven ts) := by
  induction ts with
  | nil => trivial
  | cons t rest ih =>
    have hrest := ih h.2
    rw [woven]
    rcases between_cases t rest with ⟨hnone, -⟩ | ⟨hone, next, -, hruns⟩
    · rw [hnone]
      refine ⟨?_, hrest⟩
      rintro rfl next more hwoven hdashes
      cases rest with
      | nil => cases hwoven
      | cons mark rest =>
        -- nothing is put after the exclamation mark either
        obtain ⟨rfl, -⟩ := List.cons.inj (show mark :: (between [mark] rest ++ woven rest) = _ from hwoven)
        rw [List.nil_append, woven_cons (fun _ => rfl)] at hwoven
        obtain ⟨-, htail⟩ := List.cons.inj hwoven
        cases rest with
        | nil => cases htail
        | cons first rest =>
          obtain ⟨rfl, -⟩ := List.cons.inj (show first :: (between [first] rest ++ woven rest) = _ from htail)
          exact h.1 rfl first rest rfl hdashes
    · rw [hone]
      refine ⟨keepsMarkup_of_ne ?_ _, keepsMarkup_of_ne (by simp) _, hrest⟩
      rintro rfl
      cases hruns

theorem keepsMarkup_append_closing {ts : List Token} (h : Everywhere KeepsMarkup ts) (bs : List Bracket) :
    Everywhere KeepsMarkup (ts ++ bs.map .closing) := by
  induction ts with
  | nil =>
    induction bs with
    | nil => trivial
    | cons b bs ih => exact ⟨keepsMarkup_of_ne (by simp) _, ih⟩
  | cons t rest ih =>
    refine ⟨?_, ih h.2⟩
    intro ht next more hrest hdashes
    cases rest with
    | nil => cases bs <;> cases hrest
    | cons mark rest =>
      obtain ⟨rfl, hmore⟩ := List.cons.inj hrest
      cases rest with
      | nil =>
        -- a closing bracket does not start with a dash
        cases bs with
        | nil => cases hmore
        | cons b bs =>
          obtain ⟨rfl, -⟩ := List.cons.inj hmore
          obtain ⟨u, hu⟩ := hdashes
          cases b <;> cases hu
      | cons first rest =>
        obtain ⟨rfl, -⟩ := List.cons.inj hmore
        exact h.1 ht first rest rfl hdashes

theorem stands_woven {ts : List Token} (hfits : Everywhere Fits ts) (hnumber : ∀ t ∈ ts, t.isNumeric = false)
    (hmarkup : Everywhere KeepsMarkup ts) : Everywhere Stands (woven ts) := by
  have hfits := fits_woven hfits
  have hapart := apart_woven ts
  have hmarkup := keepsMarkup_woven hmarkup
  have hnumber (t : Token) (ht : t ∈ woven ts) : t.isNumeric = false := by
    rcases mem_woven ht with ht | rfl
    · exact hnumber t ht
    · rfl
  generalize woven ts = us at *
  induction us with
  | nil => trivial
  | cons t us ih =>
    exact ⟨⟨hfits.1, hapart.1, hnumber t (List.mem_cons_self ..), hmarkup.1⟩,
      ih hfits.2 hapart.2 hmarkup.2 fun u hu => hnumber u (List.mem_cons_of_mem t hu)⟩

end StyleSelectors.Token
