/-
Reading up to a bracket or comma does not depend on what comes after it. No token but a string, a
url, a comment or an escape goes on past `)` or `,`, so a reader that leaves one of them ahead has
read the text before it only: with any other such text after it, or none, it reads the same
(`readToken_stop`), and so do all the lexemes up to there (`Lexeme.ofChars_stop`).
-/
import StyleSelectors.Proofs.Token.Quoted
import StyleSelectors.Proofs.Token.Stop

namespace StyleSelectors

open Text Numeric

namespace Token

/-! ## What may go past a stop -/

/-- Whether a reader ends before any stop that comes after `u`, always at the same place, or goes past
every one. -/
def Parted {α : Type} (read : List Char → α × List Char) (u : List Char) : Prop :=
  (∃ x r, ∀ v, AtStop v → read (u ++ v) = (x, r ++ v)) ∨
    ∀ c v, (c = ')' ∨ c = ',') → (read (u ++ c :: v)).2 <:+ v

namespace Parted

variable {α β : Type} {read : List Char → α × List Char} {more : List Char → β × List Char}
  {u u' : List Char}

theorem within (x : α) (r : List Char) (h : ∀ v, AtStop v → read (u ++ v) = (x, r ++ v)) : Parted read u :=
  .inl ⟨x, r, h⟩

theorem past (h : ∀ c v, (c = ')' ∨ c = ',') → (read (u ++ c :: v)).2 <:+ v) : Parted read u :=
  .inr h

theorem atStop_cons {c : Char} (hc : c = ')' ∨ c = ',') (v : List Char) : AtStop (c :: v) := by
  intro d hd
  obtain rfl : c = d := Option.some.inj hd
  exact hc

/-- A reader that goes on with another one. -/
theorem step (f : β → α) (h : ∀ v, AtStop v → read (u ++ v) = (f (more (u' ++ v)).1, (more (u' ++ v)).2))
    (hmore : Parted more u') : Parted read u := by
  rcases hmore with ⟨x, r, hx⟩ | hpast
  · apply within (f x) r
    intro v hv
    rw [h v hv, hx v hv]
  · apply past
    intro c v hc
    rw [h _ (atStop_cons hc v)]
    exact hpast c v hc

/-- What is left before one stop is left before any. -/
theorem eq {x : α} {r v w : List Char} (h : Parted read u) (hv : AtStop v) (hne : v ≠ [])
    (hread : read (u ++ v) = (x, r ++ v)) (hw : AtStop w) : read (u ++ w) = (x, r ++ w) := by
  rcases h with ⟨y, s, hy⟩ | hpast
  · have heq := (hy v hv).symm.trans hread
    obtain ⟨rfl, hs⟩ := Prod.mk.inj heq
    obtain rfl := List.append_cancel_right hs
    exact hy w hw
  · rcases hv.eq_nil_or_cons with rfl | ⟨c, v, rfl, hc⟩
    · exact absurd rfl hne
    · have := (hpast c v hc).length_le
      rw [hread, List.length_append, List.length_cons] at this
      omega

end Parted

theorem atNewline_append {v : List Char} (hv : AtStop v) (u : List Char) : atNewline (u ++ v) = atNewline u :=
  hv.any_head? (by decide) u

/-- An escaped stop is a character like any other. -/
theorem readEscape_stop {c : Char} (hc : c = ')' ∨ c = ',') (v : List Char) : readEscape (c :: v) = (c, v) := by
  rcases hc with rfl | rfl
  · exact readEscape_cons (by decide) (by decide) v
  · exact readEscape_cons (by decide) (by decide) v

theorem readName_newline {rest : List Char} (h : atNewline rest = true) :
    readName ('\\' :: rest) = ([], '\\' :: rest) := by
  rw [readName, if_pos rfl, if_pos h]

theorem parted_readName (u : List Char) : Parted readName u := by
  match u with
  | [] =>
    refine .within [] [] ?_
    intro v hv
    rw [List.nil_append, readName_of_endsName (endsName_stop hv)]
  | c :: u =>
    by_cases hslash : c = '\\'
    · subst hslash
      by_cases hnew : atNewline u = true
      · refine .within [] ('\\' :: u) ?_
        intro v hv
        exact readName_newline ((atNewline_append hv u).trans hnew)
      rw [Bool.not_eq_true] at hnew
      cases u with
      | nil =>
        -- the stop itself is escaped
        apply Parted.past
        intro c v hc
        have hline : atNewline (c :: v) = false := by rcases hc with rfl | rfl <;> rfl
        rw [List.singleton_append, readName_escape hline, readEscape_stop hc]
        exact readName_suffix v
      | cons d u =>
        have := readEscape_length_le (d :: u)
        refine .step ((readEscape (d :: u)).1 :: ·) ?_ (parted_readName (readEscape (d :: u)).2)
        intro v hv
        rw [List.cons_append, readName_escape ((atNewline_append hv _).trans hnew),
          readEscape_append hv (List.cons_ne_nil d u)]
    · by_cases hname : isNameChar c = true
      · exact .step (shown c :: ·) (fun v _ => readName_cons hname _) (parted_readName u)
      · refine .within [] (c :: u) ?_
        intro v _
        rw [List.cons_append, readName, if_neg hslash, if_neg hname]
termination_by u.length
decreasing_by all_goals grind

theorem parted_readQuoted {quote : Char} (hquote : quote = '"' ∨ quote = '\'') (u : List Char) :
    Parted (readQuoted quote) u := by
  match u with
  | [] =>
    -- a string that is open takes in the stop, and goes on
    apply Parted.past
    intro c v hc
    have hne : c ≠ quote := by rcases hc with rfl | rfl <;> rcases hquote with rfl | rfl <;> decide
    have hline : isNewline c = false := by rcases hc with rfl | rfl <;> decide
    have hslash : c ≠ '\\' := by rcases hc with rfl | rfl <;> decide
    rw [List.nil_append, readQuoted_cons hne hslash hline]
    exact readQuoted_suffix quote v
  | c :: u =>
    by_cases hc : c = quote
    · subst hc
      exact .within ([], true) u fun v _ => readQuoted_quote c (u ++ v)
    by_cases hline : isNewline c = true
    · exact .within ([], false) (c :: u) fun v _ => readQuoted_newline hc hline (u ++ v)
    by_cases hslash : c = '\\'
    · subst hslash
      cases u with
      | nil =>
        -- the stop itself is escaped
        apply Parted.past
        intro c v hstop
        have hnew : atNewline (c :: v) = false := by rcases hstop with rfl | rfl <;> rfl
        rw [List.singleton_append, readQuoted_escape hc (List.cons_ne_nil _ _) hnew, readEscape_stop hstop]
        exact readQuoted_suffix quote v
      | cons d u =>
        have := readEscape_length_le (d :: u)
        have := (dropSpace_suffix (d :: u)).length_le
        by_cases hnew : atNewline (d :: u) = true
        · refine .step id ?_ (parted_readQuoted hquote (dropSpace (d :: u)))
          intro v hv
          rw [← dropSpace_append hv]
          exact readQuoted_slash_newline hc (List.cons_ne_nil _ _) ((atNewline_append hv _).trans hnew)
        · rw [Bool.not_eq_true] at hnew
          refine .step (fun x => ((readEscape (d :: u)).1 :: x.1, x.2)) ?_
            (parted_readQuoted hquote (readEscape (d :: u)).2)
          intro v hv
          have hne : d :: u ++ v ≠ [] := List.cons_ne_nil d (u ++ v)
          rw [List.cons_append, readQuoted_escape hc hne ((atNewline_append hv _).trans hnew),
            readEscape_append hv (List.cons_ne_nil d u)]
    · rw [Bool.not_eq_true] at hline
      refine .step (fun x => (shown c :: x.1, x.2)) ?_ (parted_readQuoted hquote u)
      intro v _
      exact readQuoted_cons hc hslash hline (u ++ v)
termination_by u.length
decreasing_by all_goals grind

/-! ## Urls, one step at a time -/

section UrlStep

variable {c : Char} {rest : List Char}

theorem readUrlEnd_space (hc : c ≠ ')') (hspace : isSpace c = true) (rest : List Char) :
    readUrlEnd (c :: rest) = readUrlEnd rest := by
  rw [readUrlEnd, if_neg hc, if_pos hspace]

theorem readUrlEnd_cons (hc : c ≠ ')') (hspace : isSpace c = false) (rest : List Char) :
    readUrlEnd (c :: rest) = (false, rest) := by
  rw [readUrlEnd, if_neg hc, if_neg (by simp [hspace])]

theorem readUrlBody_close (rest : List Char) : readUrlBody (')' :: rest) = (some [], rest) := by
  rw [readUrlBody, if_pos rfl]

theorem readUrlBody_space (hc : c ≠ ')') (hspace : isSpace c = true) (rest : List Char) :
    readUrlBody (c :: rest) = (if (readUrlEnd rest).1 then some [] else none, (readUrlEnd rest).2) := by
  rw [readUrlBody, if_neg hc, if_pos hspace]

theorem readUrlBody_spoilt (hc : c ≠ ')') (hspace : isSpace c = false) (hspoils : spoilsUrl c = true)
    (rest : List Char) : readUrlBody (c :: rest) = (none, rest) := by
  rw [readUrlBody, if_neg hc, if_neg (by simp [hspace]), if_pos hspoils]

theorem readUrlBody_newline (hline : atNewline rest = true) : readUrlBody ('\\' :: rest) = (none, rest) := by
  rw [readUrlBody, if_neg (by decide), if_neg (by decide), if_neg (by decide), if_pos rfl, if_pos hline]

theorem readUrlBody_escape (hline : atNewline rest = false) :
    readUrlBody ('\\' :: rest) =
      ((readUrlBody (readEscape rest).2).1.map ((readEscape rest).1 :: ·), (readUrlBody (readEscape rest).2).2) := by
  rw [readUrlBody, if_neg (by decide), if_neg (by decide), if_neg (by decide), if_pos rfl, if_neg (by simp [hline])]

theorem readUrlBody_cons (hc : c ≠ ')') (hspace : isSpace c = false) (hspoils : spoilsUrl c = false)
    (hslash : c ≠ '\\') (rest : List Char) :
    readUrlBody (c :: rest) = ((readUrlBody rest).1.map (shown c :: ·), (readUrlBody rest).2) := by
  rw [readUrlBody, if_neg hc, if_neg (by simp [hspace]), if_neg (by simp [hspoils]), if_neg hslash]

end UrlStep

theorem parted_readUrlEnd (u : List Char) : Parted readUrlEnd u := by
  induction u with
  | nil =>
    -- the bracket is read as the end of the url, and the comma as what spoils it
    apply Parted.past
    rintro c v (rfl | rfl)
    · exact List.suffix_refl v
    · refine ⟨[], ?_⟩
      rw [List.nil_append, List.nil_append, readUrlEnd_cons (by decide) (by decide)]
  | cons c u ih =>
    by_cases hc : c = ')'
    · subst hc
      exact .within true u fun _ _ => rfl
    by_cases hspace : isSpace c = true
    · exact .step id (fun v _ => readUrlEnd_space hc hspace (u ++ v)) ih
    · rw [Bool.not_eq_true] at hspace
      exact .within false u fun v _ => readUrlEnd_cons hc hspace (u ++ v)

theorem parted_readUrlBody (u : List Char) : Parted readUrlBody u := by
  match u with
  | [] =>
    -- the bracket ends the url, and the comma is part of it
    apply Parted.past
    rintro c v (rfl | rfl)
    · refine ⟨[], ?_⟩
      rw [List.nil_append, List.nil_append, readUrlBody_close]
    · rw [List.nil_append, readUrlBody_cons (by decide) (by decide) (by decide) (by decide)]
      exact readUrlBody_suffix v
  | c :: u =>
    by_cases hc : c = ')'
    · subst hc
      exact .within (some []) u fun v _ => readUrlBody_close (u ++ v)
    by_cases hspace : isSpace c = true
    · refine .step (fun x => if x then some [] else none) ?_ (parted_readUrlEnd u)
      intro v _
      exact readUrlBody_space hc hspace (u ++ v)
    rw [Bool.not_eq_true] at hspace
    by_cases hspoils : spoilsUrl c = true
    · exact .within none u fun v _ => readUrlBody_spoilt hc hspace hspoils (u ++ v)
    rw [Bool.not_eq_true] at hspoils
    by_cases hslash : c = '\\'
    · subst hslash
      by_cases hnew : atNewline u = true
      · exact .within none u fun v hv => readUrlBody_newline ((atNewline_append hv u).trans hnew)
      rw [Bool.not_eq_true] at hnew
      cases u with
      | nil =>
        apply Parted.past
        intro c v hstop
        have hline : atNewline (c :: v) = false := by rcases hstop with rfl | rfl <;> rfl
        rw [List.singleton_append, readUrlBody_escape hline, readEscape_stop hstop]
        exact readUrlBody_suffix v
      | cons d u =>
        have := readEscape_length_le (d :: u)
        refine .step (Option.map ((readEscape (d :: u)).1 :: ·)) ?_
          (parted_readUrlBody (readEscape (d :: u)).2)
        intro v hv
        rw [List.cons_append, readUrlBody_escape ((atNewline_append hv _).trans hnew),
          readEscape_append hv (List.cons_ne_nil d u)]
    · refine .step (Option.map (shown c :: ·)) ?_ (parted_readUrlBody u)
      intro v _
      exact readUrlBody_cons hc hspace hspoils hslash (u ++ v)
termination_by u.length
decreasing_by all_goals grind

theorem readSpoilt_cons {c : Char} (hc : c ≠ ')') {rest : List Char}
    (h : c = '\\' → rest.head? ≠ some ')' ∧ rest.head? ≠ some '\\') :
    readSpoilt (c :: rest) = (c :: (readSpoilt rest).1, (readSpoilt rest).2) := by
  rw [readSpoilt.eq_def]
  split
  · next heq => cases heq
  · next heq => exact absurd (List.cons.inj heq).1 hc
  · next heq =>
    obtain ⟨rfl, rfl⟩ := List.cons.inj heq
    exact absurd rfl (h rfl).1
  · next heq =>
    obtain ⟨rfl, rfl⟩ := List.cons.inj heq
    exact absurd rfl (h rfl).2
  · next heq =>
    obtain ⟨rfl, rfl⟩ := List.cons.inj heq
    rfl

theorem parted_readSpoilt (u : List Char) : Parted readSpoilt u := by
  match u with
  | [] =>
    apply Parted.past
    rintro c v (rfl | rfl)
    · exact List.suffix_refl v
    · rw [List.nil_append, readSpoilt_cons (by decide) (fun h => absurd h (by decide))]
      exact readSpoilt_suffix v
  | c :: u =>
    by_cases hc : c = ')'
    · subst hc
      exact .within [] u fun _ _ => rfl
    by_cases hslash : c = '\\'
    · subst hslash
      match u with
      | [] =>
        -- a bracket after the backslash does not end the url either
        apply Parted.past
        rintro c v (rfl | rfl)
        · exact readSpoilt_suffix v
        · rw [List.singleton_append, readSpoilt_cons (by decide) (fun _ => by simp),
            readSpoilt_cons (by decide) (fun h => absurd h (by decide))]
          exact readSpoilt_suffix v
      | d :: u =>
        by_cases hd : d = ')'
        · subst hd
          exact .step (fun x => '\\' :: ')' :: x) (fun _ _ => rfl) (parted_readSpoilt u)
        by_cases hd' : d = '\\'
        · subst hd'
          exact .step (fun x => '\\' :: '\\' :: x) (fun _ _ => rfl) (parted_readSpoilt u)
        · refine .step ('\\' :: ·) ?_ (parted_readSpoilt (d :: u))
          intro v _
          exact readSpoilt_cons hc fun _ => ⟨by simpa using hd, by simpa using hd'⟩
    · refine .step (c :: ·) ?_ (parted_readSpoilt u)
      intro v _
      exact readSpoilt_cons hc fun h => absurd h hslash
termination_by u.length

theorem readComment_cons {c : Char} {rest : List Char} (h : ¬ (c = '*' ∧ rest.head? = some '/')) :
    readComment (c :: rest) = (c :: (readComment rest).1, (readComment rest).2) := by
  rw [readComment.eq_def]
  split
  · next heq => cases heq
  · next heq =>
    obtain ⟨rfl, rfl⟩ := List.cons.inj heq
    exact absurd ⟨rfl, rfl⟩ h
  · next heq =>
    obtain ⟨rfl, rfl⟩ := List.cons.inj heq
    rfl

theorem parted_readComment (u : List Char) : Parted readComment u := by
  induction u with
  | nil =>
    apply Parted.past
    intro c v hc
    rw [List.nil_append, readComment_cons (by rcases hc with rfl | rfl <;> simp)]
    exact readComment_suffix v
  | cons c u ih =>
    by_cases hend : c = '*' ∧ u.head? = some '/'
    · obtain ⟨rfl, hu⟩ := hend
      obtain ⟨u, rfl⟩ := List.head?_eq_some_iff.1 hu
      exact .within [] u fun _ _ => rfl
    · refine .step (c :: ·) ?_ ih
      intro v hv
      refine readComment_cons fun h => hend ⟨h.1, ?_⟩
      cases u with
      | nil => exact absurd h.2 (hv.head?_ne (by decide))
      | cons d u => exact h.2

/-! ## Tokens -/

theorem taken_append_right (u r v : List Char) : taken (u ++ v) (r ++ v) = taken u r := by
  rw [taken, taken, List.length_append, List.length_append, Nat.add_sub_add_right,
    List.take_append_of_le_length (Nat.sub_le _ _)]

theorem parted_readUrl (u : List Char) : Parted readUrl u := by
  have hspace : isSpace ')' = false ∧ isSpace ',' = false := by decide
  rcases parted_readUrlBody (u.dropWhile isSpace) with ⟨x, r, hbody⟩ | hpast
  · cases x with
    | some chars =>
      refine .within (.url (String.ofList chars)) r ?_
      intro v hv
      simp only [readUrl, hv.dropWhile_append hspace, hbody v hv]
    | none =>
      refine .step (fun x => .badUrl (String.ofList (taken (u.dropWhile isSpace) r ++ x))) ?_
        (parted_readSpoilt r)
      intro v hv
      simp only [readUrl, hv.dropWhile_append hspace, hbody v hv, taken_append_right]
  · apply Parted.past
    intro c v hc
    have hsuffix := hpast c v hc
    simp only [readUrl, (Parted.atStop_cons hc v).dropWhile_append hspace]
    split
    · exact hsuffix
    · exact (readSpoilt_suffix _).trans hsuffix

theorem quoteAhead_append {v : List Char} (hv : AtStop v) (u : List Char) :
    quoteAhead (u ++ v) = quoteAhead u := by
  rw [quoteAhead, hv.dropWhile_append (by decide), hv.any_head? (by decide), quoteAhead]

theorem readNamed_suffix_readName (cs : List Char) : (readNamed cs).2 <:+ (readName cs).2 := by
  unfold readNamed
  dsimp only
  split
  · next heq =>
    rw [heq]
    split
    · exact (readUrl_suffix _).trans (List.suffix_cons _ _)
    · exact List.suffix_cons _ _
  · exact List.suffix_refl _

theorem parted_readNamed (u : List Char) : Parted readNamed u := by
  rcases parted_readName u with ⟨name, r, hname⟩ | hpast
  · by_cases hopen : ∃ r', r = '(' :: r'
    · obtain ⟨r, rfl⟩ := hopen
      by_cases hurl : (sameIgnoringCase (String.ofList name) "url" && !quoteAhead r) = true
      · refine .step id ?_ (parted_readUrl r)
        intro v hv
        simp only [readNamed, hname v hv, List.cons_append, quoteAhead_append hv, hurl]
        rfl
      · refine .within (.function (String.ofList name)) r ?_
        intro v hv
        simp only [readNamed, hname v hv, List.cons_append, quoteAhead_append hv, hurl]
        rfl
    · refine .within (.ident (String.ofList name)) r ?_
      intro v hv
      simp only [readNamed, hname v hv]
      split
      · next rest heq =>
        cases r with
        | nil =>
          rw [List.nil_append] at heq
          refine absurd ?_ (hv.head?_ne (d := '(') (by decide))
          rw [heq]
          rfl
        | cons d r =>
          obtain ⟨rfl, -⟩ := List.cons.inj heq
          exact absurd ⟨r, rfl⟩ hopen
      · rfl
  · exact .past fun c v hc => (readNamed_suffix_readName _).trans (hpast c v hc)

theorem parted_readNumeric (u : List Char) : Parted readNumeric u := by
  obtain ⟨literal, r, hread⟩ : ∃ literal r, Literal.read u = (literal, r) := ⟨_, _, rfl⟩
  have hread (v : List Char) (hv : AtStop v) : Literal.read (u ++ v) = (literal, r ++ v) := by
    rw [read_append hv.number, hread]
  by_cases hpercent : ∃ r', r = '%' :: r'
  · obtain ⟨r, rfl⟩ := hpercent
    refine .within (.percentage (literal.numeral true)) r ?_
    intro v hv
    simp only [readNumeric, hread v hv, List.cons_append]
  · -- a percent sign would have to come from after the stop
    have hcons (v : List Char) (hv : AtStop v) (rest : List Char) : r ++ v ≠ '%' :: rest := by
      intro heq
      cases r with
      | nil =>
        refine absurd ?_ (hv.head?_ne (d := '%') (by decide))
        rw [List.nil_append] at heq
        rw [heq]
        rfl
      | cons d r =>
        obtain ⟨rfl, -⟩ := List.cons.inj heq
        exact hpercent ⟨r, rfl⟩
    -- the number ends before the stop; the name of its unit may go past
    by_cases hname : startsName r = true
    · refine .step (fun x => .dimension (literal.numeral false) (String.ofList x)) ?_
        (parted_readName r)
      intro v hv
      simp only [readNumeric, hread v hv]
      split
      · next heq => exact absurd heq (hcons v hv _)
      · rw [if_pos ((startsName_append hv r).trans hname)]
    · refine .within (.number (literal.numeral false)) r ?_
      intro v hv
      simp only [readNumeric, hread v hv]
      split
      · next heq => exact absurd heq (hcons v hv _)
      · rw [if_neg (by rw [startsName_append hv]; exact hname)]

theorem parted_readHash (u : List Char) : Parted readHash u := by
  by_cases hname : startsName u = true
  · refine .step (fun x => .idHash (String.ofList x)) ?_ (parted_readName u)
    intro v hv
    rw [readHash, if_pos ((startsName_append hv u).trans hname)]
  · by_cases hhead : (u.head?.any fun c => c.isDigit || c == '-') = true
    · refine .step (fun x => .hash (String.ofList x)) ?_ (parted_readName u)
      intro v hv
      rw [readHash, if_neg (by rw [startsName_append hv]; exact hname), hv.any_head? (by decide),
        if_pos hhead]
    · refine .within (.delim '#') u ?_
      intro v hv
      rw [readHash, if_neg (by rw [startsName_append hv]; exact hname), hv.any_head? (by decide),
        if_neg hhead]

theorem drop_append_of_isPrefix {l u : List Char} (h : l <+: u) (v : List Char) :
    (u ++ v).drop l.length = u.drop l.length ++ v :=
  List.drop_append_of_le_length h.length_le

theorem parted_readSymbol (c : Char) (u : List Char) : Parted (readSymbol c) u := by
  unfold readSymbol
  cases hsign : MatchOperator.ofSign? c with
  | some op =>
    dsimp only
    by_cases heq : u.head? = some '='
    · obtain ⟨u, rfl⟩ := List.head?_eq_some_iff.1 heq
      exact .within (.matching op) u fun _ _ => rfl
    · refine .within (.delim c) u fun v hv => if_neg ?_
      cases u with
      | nil => exact hv.head?_ne (by decide)
      | cons d u => exact heq
  | none =>
    cases hopen : Bracket.ofOpen? c with
    | some b => exact .within (.opening b) u fun _ _ => rfl
    | none =>
      cases hclose : Bracket.ofClose? c with
      | some b => exact .within (.closing b) u fun _ _ => rfl
      | none =>
        dsimp only
        by_cases hcolon : c = ':'
        · exact .within .colon u fun _ _ => if_pos hcolon
        simp only [if_neg hcolon]
        by_cases hsemicolon : c = ';'
        · exact .within .semicolon u fun _ _ => if_pos hsemicolon
        simp only [if_neg hsemicolon]
        by_cases hcomma : c = ','
        · exact .within .comma u fun _ _ => if_pos hcomma
        simp only [if_neg hcomma]
        by_cases hmarkup : c = '<' ∧ ['!', '-', '-'] <+: u
        · refine .within .markupOpen (u.drop 3) ?_
          intro v hv
          rw [if_pos ⟨hmarkup.1, (hv.prefix_append_iff (by decide) u).2 hmarkup.2⟩]
          exact congrArg _ (drop_append_of_isPrefix hmarkup.2 v)
        have hmarkup (v : List Char) (hv : AtStop v) : ¬ (c = '<' ∧ ['!', '-', '-'] <+: u ++ v) :=
          fun h => hmarkup ⟨h.1, (hv.prefix_append_iff (by decide) u).1 h.2⟩
        by_cases hcomment : c = '/' ∧ ['*'] <+: u
        · refine .step (fun x => .comment (String.ofList x)) ?_ (parted_readComment (u.drop 1))
          intro v hv
          have hdrop : (u ++ v).drop 1 = u.drop 1 ++ v := drop_append_of_isPrefix hcomment.2 v
          rw [if_neg (hmarkup v hv), if_pos ⟨hcomment.1, (hv.prefix_append_iff (by decide) u).2 hcomment.2⟩,
            hdrop]
        have hcomment (v : List Char) (hv : AtStop v) : ¬ (c = '/' ∧ ['*'] <+: u ++ v) :=
          fun h => hcomment ⟨h.1, (hv.prefix_append_iff (by decide) u).1 h.2⟩
        by_cases hhash : c = '#'
        · refine .step id ?_ (parted_readHash u)
          intro v hv
          rw [if_neg (hmarkup v hv), if_neg (hcomment v hv), if_pos hhash]
          rfl
        by_cases hat : c = '@' ∧ startsName u = true
        · refine .step (fun x => .atKeyword (String.ofList x)) ?_ (parted_readName u)
          intro v hv
          rw [if_neg (hmarkup v hv), if_neg (hcomment v hv), if_neg hhash, startsName_append hv, if_pos hat]
        · refine .within (.delim c) u ?_
          intro v hv
          rw [if_neg (hmarkup v hv), if_neg (hcomment v hv), if_neg hhash, startsName_append hv, if_neg hat]

theorem Parted.of_cons {α : Type} {read : List Char → α × List Char} {c : Char} {u : List Char}
    (h : Parted read (c :: u)) : Parted (fun cs => read (c :: cs)) u := h

theorem parted_readToken (c : Char) (u : List Char) : Parted (readToken c) u := by
  -- every test comes out as it does on the text before the stop, so that one reader is picked for all
  unfold readToken
  by_cases hspace : isSpace c = true
  · refine .within (readSpace (c :: u)).1 (readSpace (c :: u)).2 ?_
    intro v hv
    rw [if_pos hspace, ← List.cons_append, readSpace, hv.takeWhile_append (by decide),
      hv.dropWhile_append (by decide), readSpace]
  simp only [if_neg hspace]
  by_cases hquote : c = '"' ∨ c = '\''
  · refine .step (fun x => if x.2 then .string (String.ofList x.1) else .badString (String.ofList x.1))
      ?_ (parted_readQuoted hquote u)
    intro v _
    rw [if_pos hquote]
    rfl
  simp only [if_neg hquote]
  have hstarts (v : List Char) (hv : AtStop v) : startsNumber (c :: (u ++ v)) = startsNumber (c :: u) :=
    startsNumber_append hv.number (c :: u)
  by_cases hnumber : startsNumber (c :: u) = true
  · refine .step id ?_ (parted_readNumeric (c :: u)).of_cons
    intro v hv
    rw [if_pos ((hstarts v hv).trans hnumber)]
    rfl
  have hnumber (v : List Char) (hv : AtStop v) : ¬ startsNumber (c :: (u ++ v)) = true := by
    rw [hstarts v hv]
    exact hnumber
  by_cases hmarkup : c = '-' ∧ ['-', '>'] <+: u
  · refine .within .markupClose (u.drop 2) ?_
    intro v hv
    rw [if_neg (hnumber v hv), if_pos ⟨hmarkup.1, (hv.prefix_append_iff (by decide) u).2 hmarkup.2⟩]
    exact congrArg _ (drop_append_of_isPrefix hmarkup.2 v)
  have hmarkup (v : List Char) (hv : AtStop v) : ¬ (c = '-' ∧ ['-', '>'] <+: u ++ v) :=
    fun h => hmarkup ⟨h.1, (hv.prefix_append_iff (by decide) u).1 h.2⟩
  have hstarts (v : List Char) (hv : AtStop v) : startsName (c :: (u ++ v)) = startsName (c :: u) :=
    startsName_append hv (c :: u)
  by_cases hname : startsName (c :: u) = true
  · refine .step id ?_ (parted_readNamed (c :: u)).of_cons
    intro v hv
    rw [if_neg (hnumber v hv), if_neg (hmarkup v hv), if_pos ((hstarts v hv).trans hname)]
    rfl
  have hname (v : List Char) (hv : AtStop v) : ¬ startsName (c :: (u ++ v)) = true := by
    rw [hstarts v hv]
    exact hname
  refine .step id ?_ (parted_readSymbol c u)
  intro v hv
  rw [if_neg (hnumber v hv), if_neg (hmarkup v hv), if_neg (hname v hv)]
  rfl

/-- A token that ends before a stop is the same before any other. -/
theorem readToken_stop {c : Char} {u r v w : List Char} {t : Token} (hv : AtStop v) (hne : v ≠ [])
    (h : readToken c (u ++ v) = (t, r ++ v)) (hw : AtStop w) : readToken c (u ++ w) = (t, r ++ w) :=
  (parted_readToken c u).eq hv hne h hw

end Token

/-! ## Lexemes -/

namespace Lexeme

theorem ofChars_of_readToken {c : Char} {u rest : List Char} {t : Token}
    (h : Token.readToken c (u ++ rest) = (t, rest)) :
    ofChars (c :: u ++ rest) = ⟨t, c :: u⟩ :: ofChars rest := by
  rw [List.cons_append, ofChars]
  simp only [h]
  rw [← List.cons_append, Token.taken, List.length_append, Nat.add_sub_cancel, List.take_left]

/-- The first lexeme is the first token that is read, and the rest are those of the rest. -/
theorem ofChars_eq_cons {cs : List Char} {x : Lexeme} {xs : List Lexeme} (h : ofChars cs = x :: xs) :
    ∃ c u, x.text = c :: u ∧ cs = c :: u ++ chars xs ∧
      Token.readToken c (u ++ chars xs) = (x.token, chars xs) ∧ ofChars (chars xs) = xs := by
  cases cs with
  | nil => rw [ofChars] at h; cases h
  | cons c rest =>
    rw [ofChars] at h
    obtain ⟨rfl, hxs⟩ := List.cons.inj h
    have hrest : chars xs = (Token.readToken c rest).2 := by rw [← hxs, chars_ofChars]
    obtain ⟨u, hu⟩ := Token.readToken_suffix c rest
    rw [← hrest] at hu hxs
    refine ⟨c, u, ?_, ?_, ?_, hxs⟩
    · rw [← hrest, ← hu, ← List.cons_append, Token.taken, List.length_append, Nat.add_sub_cancel,
        List.take_left]
    · rw [List.cons_append, hu]
    · rw [hu, hrest]

/-- The last lexemes of a text are those of the text they were read from. -/
theorem ofChars_suffix {cs : List Char} {xs ys : List Lexeme} (h : ofChars cs = xs ++ ys) :
    ofChars (chars ys) = ys := by
  induction xs generalizing cs with
  | nil => rw [← List.nil_append ys, ← h, chars_ofChars]
  | cons x xs ih =>
    obtain ⟨c, u, -, -, -, hrest⟩ := ofChars_eq_cons h
    exact ih hrest

/-- The first of some lexemes in front of a text is the first token that is read, and the others are read
in front of that text too. -/
theorem ofChars_append_eq_cons {x : Lexeme} {xs : List Lexeme} {v : List Char}
    (h : ofChars (chars (x :: xs) ++ v) = x :: (xs ++ ofChars v)) :
    ∃ c u, x.text = c :: u ∧ Token.readToken c (u ++ chars xs ++ v) = (x.token, chars xs ++ v) ∧
      ofChars (chars xs ++ v) = xs ++ ofChars v := by
  obtain ⟨c, u, htext, -, hread, hrest⟩ := ofChars_eq_cons h
  have hchars : chars (xs ++ ofChars v) = chars xs ++ v := by
    rw [chars, List.flatMap_append, ← chars, ← chars, chars_ofChars]
  rw [hchars] at hread hrest
  rw [← List.append_assoc] at hread
  exact ⟨c, u, htext, hread, hrest⟩

/-- Lexemes that end before a stop are the same before any other. -/
theorem ofChars_stop {xs : List Lexeme} {v w : List Char} (hv : Token.AtStop v) (hne : v ≠ [])
    (h : ofChars (chars xs ++ v) = xs ++ ofChars v) (hw : Token.AtStop w) :
    ofChars (chars xs ++ w) = xs ++ ofChars w := by
  induction xs with
  | nil => rfl
  | cons x xs ih =>
    obtain ⟨c, u, htext, hread, hrest⟩ := ofChars_append_eq_cons h
    have hread := Token.readToken_stop hv hne hread hw
    rw [chars, List.flatMap_cons, ← chars, htext, List.append_assoc]
    rw [List.append_assoc] at hread
    rw [ofChars_of_readToken hread, ih hrest, ← htext]
    rfl

/-- What comes before a closing bracket or a comma reads by itself as it does in front of it. -/
theorem ofChars_front {cs : List Char} {xs more : List Lexeme} {x : Lexeme} {c : Char} (hc : c = ')' ∨ c = ',')
    (hx : x.text = [c]) (h : ofChars cs = xs ++ x :: more) : ofChars (chars xs) = xs := by
  have hmore : ofChars (c :: chars more) = x :: more := by
    have := ofChars_suffix h
    rwa [chars, List.flatMap_cons, hx, ← chars] at this
  have hcs : chars xs ++ c :: chars more = cs := by
    rw [← chars_ofChars cs, h, show chars (xs ++ x :: more) = chars xs ++ (x.text ++ chars more) from
      List.flatMap_append, hx, List.singleton_append]
  have hread : ofChars (chars xs ++ c :: chars more) = xs ++ ofChars (c :: chars more) := by rw [hcs, hmore, h]
  have hfront := ofChars_stop (Token.Parted.atStop_cons hc _) (List.cons_ne_nil _ _) hread Token.AtStop.nil
  rwa [ofChars, List.append_nil, List.append_nil] at hfront

end Lexeme

end StyleSelectors
