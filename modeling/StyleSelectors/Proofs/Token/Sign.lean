/-
Reading up to the sign of a combinator. A reader that comes to such a sign ends there, as it would at the
end of the text, or else takes the sign as well, as strings, escapes and `-->` do (`cuts_readToken`). So
what stands before a sign that is a token by itself reads by itself as it does in front of it:
`Lexeme.ofChars_before_sign`. Unlike brackets and commas, the sign may be part of a number, and what
comes after it tells.
-/
import StyleSelectors.Proofs.Token.Gap

namespace StyleSelectors

open Text Numeric

namespace Token

/-- Whether a text goes on with the sign of a combinator, and not with a number. -/
structure AtSign (v : List Char) : Prop where
  sign : ∃ c w, v = c :: w ∧ c ∈ ['>', '+', '~']
  number : startsNumber v = false

namespace AtSign

variable {v : List Char}

theorem ne_nil (hv : AtSign v) : v ≠ [] := by
  obtain ⟨c, w, rfl, -⟩ := hv.sign
  exact List.cons_ne_nil c w

theorem fails (hv : AtSign v) {p : Char → Bool} (hp : ['>', '+', '~'].all (fun c => !p c) = true) :
    ∀ c ∈ v.head?, p c = false := by
  obtain ⟨c, w, rfl, hc⟩ := hv.sign
  intro d hd
  cases hd
  simpa using List.all_eq_true.1 hp c hc

theorem head?_ne (hv : AtSign v) {d : Char} (hd : d ∉ ['>', '+', '~']) : v.head? ≠ some d := by
  obtain ⟨c, w, rfl, hc⟩ := hv.sign
  rintro ⟨⟩
  exact hd hc

theorem not_digit_or_point (hv : AtSign v) : ∀ c ∈ v.head?, c.isDigit = false ∧ c ≠ '.' := by
  intro c hc
  have hnone := hv.fails (p := fun c => c.isDigit || c == '.') (by decide) c hc
  simpa using hnone

theorem prefix_append_iff (hv : AtSign v) {l : List Char} (hl : l.all (fun c => c ∉ ['>', '+', '~']) = true)
    (u : List Char) : l <+: u ++ v ↔ l <+: u := by
  refine prefix_append_head_iff (fun c hc hmem => ?_) u
  obtain ⟨d, w, rfl, hd⟩ := hv.sign
  cases hc
  exact of_decide_eq_true (List.all_eq_true.1 hl _ hmem) hd

end AtSign

/-! ## Single characters -/

theorem readNumeric_ne_delim (cs : List Char) (d : Char) : (readNumeric cs).1 ≠ .delim d := by
  unfold readNumeric
  dsimp only
  split
  · exact nofun
  split <;> exact nofun

theorem readNamed_ne_delim (cs : List Char) (d : Char) : (readNamed cs).1 ≠ .delim d := by
  have hurl (rest : List Char) : (readUrl rest).1 ≠ .delim d := by
    unfold readUrl
    dsimp only
    split <;> exact nofun
  unfold readNamed
  dsimp only
  split
  · split
    · exact hurl _
    · exact nofun
  · exact nofun

theorem readString_ne_delim (quote : Char) (cs : List Char) (d : Char) : (readString quote cs).1 ≠ .delim d := by
  unfold readString
  dsimp only
  split <;> exact nofun

theorem readHash_delim {rest : List Char} {d : Char} (h : (readHash rest).1 = .delim d) : '#' = d := by
  unfold readHash at h
  repeat' split at h
  all_goals cases h
  rfl

theorem readSymbol_delim {c d : Char} {rest : List Char} (h : (readSymbol c rest).1 = .delim d) : c = d := by
  unfold readSymbol at h
  split at h
  · split at h <;> cases h
    rfl
  · cases h
  · cases h
  · repeat' split at h
    all_goals first
      | exact Eq.trans ‹c = '#'› (readHash_delim h)
      | cases h
    rfl

/-- A single character is read from a text that starts with it, and not with a number. -/
theorem readToken_delim {c d : Char} {rest : List Char} (h : (readToken c rest).1 = .delim d) :
    c = d ∧ startsNumber (c :: rest) = false := by
  unfold readToken at h
  split at h
  · cases h
  split at h
  · exact absurd h (readString_ne_delim c rest d)
  split at h
  · exact absurd h (readNumeric_ne_delim _ d)
  next hnumber =>
  split at h
  · cases h
  split at h
  · exact absurd h (readNamed_ne_delim _ d)
  · exact ⟨readSymbol_delim h, Bool.not_eq_true _ |>.mp hnumber⟩

/-! ## Numbers -/

theorem readSign_append_of_ne {u : List Char} (hu : u ≠ []) (v : List Char) :
    readSign (u ++ v) = ((readSign u).1, (readSign u).2 ++ v) := by
  cases u with
  | nil => exact absurd rfl hu
  | cons c u =>
    rw [List.cons_append, readSign, readSign]
    split <;> rfl

section Number

variable {v : List Char} (hv : AtSign v)
include hv

/-- No digit comes after the sign, which would be that of a power of ten. -/
theorem not_digit_readSign : (readSign v).2.head?.any Char.isDigit = false := by
  obtain ⟨c, w, rfl, -⟩ := hv.sign
  rw [readSign]
  split
  · next hc =>
    have hnumber : startsUnsigned w = false := by
      have hboth := (Bool.or_eq_false_iff.1 hv.number).2
      rwa [hc, Bool.true_and] at hboth
    cases w with
    | nil => rfl
    | cons d w =>
      by_cases hd : d = '.'
      · subst hd
        rfl
      · rwa [startsUnsigned_of_ne hd] at hnumber
  · exact (hv.not_digit_or_point c rfl).1

theorem readPower_sign (u : List Char) : readPower (u ++ v) = ((readPower u).1, (readPower u).2 ++ v) := by
  have hdigit (c : Char) (hc : c ∈ v.head?) : c.isDigit = false := (hv.not_digit_or_point c hc).1
  match u with
  | [] =>
    obtain ⟨c, w, rfl, -⟩ := hv.sign
    have hpower := hv.fails (p := fun c => c == 'e' || c == 'E') (by decide) c rfl
    simp [readPower, hpower]
  | [c] =>
    simp only [List.singleton_append, readPower, not_digit_readSign hv, Bool.and_false]
    simp [readSign]
  | c :: d :: u =>
    have hsign := readSign_append_of_ne (List.cons_ne_nil d u) v
    simp only [List.cons_append] at hsign
    simp only [List.cons_append, readPower, hsign, readDigits_append hv.not_digit_or_point, any_head?_append hdigit]
    split <;> rfl

/-- A number that has begun ends before the sign. -/
theorem read_sign {u : List Char} (hu : u ≠ []) :
    Literal.read (u ++ v) = ((Literal.read u).1, (Literal.read u).2 ++ v) := by
  simp only [Literal.read, readSign_append_of_ne hu, readDigits_append hv.not_digit_or_point,
    readFraction_append hv.not_digit_or_point, readPower_sign hv]

theorem startsNumber_sign {u : List Char} (hu : u ≠ []) : startsNumber (u ++ v) = startsNumber u := by
  cases u with
  | nil => exact absurd rfl hu
  | cons c u =>
    rw [List.cons_append, startsNumber, startsNumber, ← List.cons_append, startsUnsigned_append hv.not_digit_or_point,
      startsUnsigned_append hv.not_digit_or_point]

end Number

/-! ## Readers that come to a sign -/

/-- Whether a reader of `u` with `v` after it ends as it does at the end of `u`, or else takes the first
character of `v` as well. -/
def Cuts {α : Type} (v : List Char) (read : List Char → α × List Char) (u : List Char) : Prop :=
  read (u ++ v) = ((read u).1, (read u).2 ++ v) ∨ (read (u ++ v)).2 <:+ v.tail

namespace Cuts

variable {α β : Type} {v : List Char} {read : List Char → α × List Char} {more : List Char → β × List Char}
  {u u' : List Char}

theorem same {x : α} {r : List Char} (h : read u = (x, r)) (hv : read (u ++ v) = (x, r ++ v)) : Cuts v read u := by
  refine .inl ?_
  rw [h, hv]

/-- A reader that goes on with another one. -/
theorem step (f : β → α) (h : read u = (f (more u').1, (more u').2))
    (hv : read (u ++ v) = (f (more (u' ++ v)).1, (more (u' ++ v)).2)) (hmore : Cuts v more u') : Cuts v read u := by
  rcases hmore with hsame | hpast
  · refine .inl ?_
    rw [hv, hsame, h]
  · refine .inr ?_
    rw [hv]
    exact hpast

/-- A reader that is one of two, and the same one with more text. -/
theorem ite {p : List Char → Prop} [DecidablePred p] {first second : List Char → α × List Char}
    (hp : p (u ++ v) ↔ p u) (hfirst : p u → Cuts v first u) (hsecond : ¬ p u → Cuts v second u) :
    Cuts v (fun u => if p u then first u else second u) u := by
  by_cases h : p u
  · have := hfirst h
    simpa only [Cuts, if_pos h, if_pos (hp.2 h)] using this
  · have := hsecond h
    simpa only [Cuts, if_neg h, if_neg (mt hp.1 h)] using this

/-- What leaves all of `v` and more reads the same without it. -/
theorem eq {x : α} {r : List Char} (h : Cuts v read u) (hv : v ≠ []) (hread : read (u ++ v) = (x, r ++ v)) :
    read u = (x, r) := by
  rcases h with hsame | hpast
  · obtain ⟨hx, hr⟩ := Prod.mk.inj (hsame.symm.trans hread)
    rw [← hx, ← List.append_cancel_right hr]
  · have hlength := hpast.length_le
    have hpos := List.length_pos_iff.2 hv
    rw [hread, List.length_append, List.length_tail] at hlength
    omega

end Cuts

section Sign

variable {v : List Char} (hv : AtSign v)
include hv

theorem atNewline_sign (u : List Char) : atNewline (u ++ v) = atNewline u := any_head?_append (hv.fails (by decide)) u

/-- A sign that is escaped is a character like any other. -/
theorem readEscape_sign : (readEscape v).2 = v.tail := by
  obtain ⟨c, w, rfl, -⟩ := hv.sign
  have hhex := hv.fails (p := isHexDigit) (by decide) c rfl
  simp [readEscape, hhex]

theorem readEscape_append_sign {u : List Char} (hu : u ≠ []) :
    readEscape (u ++ v) = ((readEscape u).1, (readEscape u).2 ++ v) :=
  readEscape_append_head (hv.fails (by decide)) hu

theorem cuts_readName (u : List Char) : Cuts v readName u := by
  fun_induction readName u with
  | case1 => exact .same (readName_of_endsName rfl) (readName_of_endsName (endsName_head (hv.fails (by decide))))
  | case2 rest hnew => exact .same (readName_newline hnew) (readName_newline ((atNewline_sign hv rest).trans hnew))
  | case3 rest hnew escape _ _ ih =>
    rw [Bool.not_eq_true] at hnew
    have hmore := readName_escape ((atNewline_sign hv rest).trans hnew)
    by_cases hrest : rest = []
    · -- the sign itself is escaped
      subst hrest
      rw [List.nil_append, readEscape_sign hv] at hmore
      refine .inr ?_
      rw [List.singleton_append, hmore]
      exact readName_suffix _
    · rw [readEscape_append_sign hv hrest] at hmore
      exact .step (escape.1 :: ·) (readName_escape hnew) hmore ih
  | case4 c rest _ hname _ ih => exact .step (Text.shown c :: ·) (readName_cons hname rest) (readName_cons hname _) ih
  | case5 c rest hslash hname =>
    have hread (w : List Char) : readName (c :: w) = ([], c :: w) := by rw [readName, if_neg hslash, if_neg hname]
    exact .same (hread rest) (hread (rest ++ v))

theorem cuts_readQuoted {quote : Char} (hquote : quote = '"' ∨ quote = '\'') (u : List Char) :
    Cuts v (readQuoted quote) u := by
  fun_induction readQuoted quote u with
  | case1 =>
    -- a string that is open takes the sign in, and goes on
    obtain ⟨c, w, rfl, hc⟩ := hv.sign
    have hne : c ≠ quote := by
      rintro rfl
      rcases hquote with rfl | rfl <;> exact absurd hc (by decide)
    have hslash : c ≠ '\\' := ne_of_mem_of_not_mem hc (by decide)
    refine .inr ?_
    rw [List.nil_append, readQuoted_cons hne hslash (hv.fails (by decide) c rfl)]
    exact readQuoted_suffix quote w
  | case2 rest => exact .same (readQuoted_quote quote rest) (readQuoted_quote quote (rest ++ v))
  | case3 c rest hc hline => exact .same (readQuoted_newline hc hline rest) (readQuoted_newline hc hline (rest ++ v))
  | case4 rest hempty hc _ =>
    obtain rfl := List.isEmpty_iff.1 hempty
    refine .inr ?_
    rw [List.singleton_append, readQuoted_escape hc hv.ne_nil (atNewline_sign hv []), readEscape_sign hv]
    exact readQuoted_suffix quote _
  | case5 rest hempty hnew _ hc _ ih =>
    have hrest : rest ≠ [] := fun hnil => hempty (List.isEmpty_iff.2 hnil)
    have hmore : rest ++ v ≠ [] := List.append_ne_nil_of_left_ne_nil hrest v
    refine .step id (readQuoted_slash_newline hc hrest hnew) ?_ ih
    rw [← dropSpace_append_head rest (hv.fails (by decide))]
    exact readQuoted_slash_newline hc hmore ((atNewline_sign hv rest).trans hnew)
  | case6 rest hempty hnew escape _ _ hc _ ih =>
    rw [Bool.not_eq_true] at hnew
    have hrest : rest ≠ [] := fun hnil => hempty (List.isEmpty_iff.2 hnil)
    have hmore : rest ++ v ≠ [] := List.append_ne_nil_of_left_ne_nil hrest v
    refine .step (fun x => (escape.1 :: x.1, x.2)) (readQuoted_escape hc hrest hnew) ?_ ih
    rw [List.cons_append, readQuoted_escape hc hmore ((atNewline_sign hv rest).trans hnew),
      readEscape_append_sign hv hrest]
  | case7 c rest hc hline hslash _ ih =>
    rw [Bool.not_eq_true] at hline
    refine .step (fun x => (Text.shown c :: x.1, x.2)) (readQuoted_cons hc hslash hline rest) ?_ ih
    exact readQuoted_cons hc hslash hline (rest ++ v)

theorem cuts_readUrlEnd (u : List Char) : Cuts v readUrlEnd u := by
  fun_induction readUrlEnd u with
  | case1 =>
    -- the sign spoils the url, and is taken with it
    obtain ⟨c, w, rfl, hc⟩ := hv.sign
    have hclose : c ≠ ')' := ne_of_mem_of_not_mem hc (by decide)
    refine .inr ⟨[], ?_⟩
    rw [List.nil_append, List.nil_append, readUrlEnd_cons hclose (hv.fails (by decide) c rfl)]
    rfl
  | case2 rest => exact .same (x := true) (r := rest) rfl rfl
  | case3 c rest hc hspace ih =>
    exact .step id (readUrlEnd_space hc hspace rest) (readUrlEnd_space hc hspace (rest ++ v)) ih
  | case4 c rest hc hspace =>
    rw [Bool.not_eq_true] at hspace
    exact .same (readUrlEnd_cons hc hspace rest) (readUrlEnd_cons hc hspace (rest ++ v))

theorem cuts_readUrlBody (u : List Char) : Cuts v readUrlBody u := by
  fun_induction readUrlBody u with
  | case1 =>
    obtain ⟨c, w, rfl, hc⟩ := hv.sign
    have hclose : c ≠ ')' := ne_of_mem_of_not_mem hc (by decide)
    have hslash : c ≠ '\\' := ne_of_mem_of_not_mem hc (by decide)
    refine .inr ?_
    rw [List.nil_append, readUrlBody_cons hclose (hv.fails (by decide) c rfl) (hv.fails (by decide) c rfl) hslash]
    exact readUrlBody_suffix w
  | case2 rest => exact .same (readUrlBody_close rest) (readUrlBody_close (rest ++ v))
  | case3 c rest hc hspace _ =>
    refine .step (fun x => if x then some [] else none) (readUrlBody_space hc hspace rest) ?_ (cuts_readUrlEnd hv rest)
    exact readUrlBody_space hc hspace (rest ++ v)
  | case4 c rest hc hspace hspoils =>
    rw [Bool.not_eq_true] at hspace
    exact .same (readUrlBody_spoilt hc hspace hspoils rest) (readUrlBody_spoilt hc hspace hspoils (rest ++ v))
  | case5 rest hnew =>
    exact .same (readUrlBody_newline hnew) (readUrlBody_newline ((atNewline_sign hv rest).trans hnew))
  | case6 rest hnew escape _ _ _ _ _ ih =>
    rw [Bool.not_eq_true] at hnew
    have hmore := readUrlBody_escape ((atNewline_sign hv rest).trans hnew)
    by_cases hrest : rest = []
    · subst hrest
      rw [List.nil_append, readEscape_sign hv] at hmore
      refine .inr ?_
      rw [List.singleton_append, hmore]
      exact readUrlBody_suffix _
    · rw [readEscape_append_sign hv hrest] at hmore
      exact .step (Option.map (escape.1 :: ·)) (readUrlBody_escape hnew) hmore ih
  | case7 c rest hc hspace hspoils hslash _ ih =>
    rw [Bool.not_eq_true] at hspace hspoils
    exact .step (Option.map (Text.shown c :: ·)) (readUrlBody_cons hc hspace hspoils hslash rest)
      (readUrlBody_cons hc hspace hspoils hslash (rest ++ v)) ih

theorem readSpoilt_sign : readSpoilt v = (v.head?.toList ++ (readSpoilt v.tail).1, (readSpoilt v.tail).2) := by
  obtain ⟨c, w, rfl, hc⟩ := hv.sign
  have hslash : c ≠ '\\' := ne_of_mem_of_not_mem hc (by decide)
  exact readSpoilt_cons (ne_of_mem_of_not_mem hc (by decide)) fun h => absurd h hslash

theorem cuts_readSpoilt (u : List Char) : Cuts v readSpoilt u := by
  match u with
  | [] =>
    refine .inr ?_
    rw [List.nil_append, readSpoilt_sign hv]
    exact readSpoilt_suffix _
  | c :: u =>
    by_cases hc : c = ')'
    · subst hc
      exact .same (x := []) (r := u) rfl rfl
    by_cases hslash : c = '\\'
    · subst hslash
      match u with
      | [] =>
        have hcons : readSpoilt ('\\' :: v) = ('\\' :: (readSpoilt v).1, (readSpoilt v).2) :=
          readSpoilt_cons hc fun _ => ⟨hv.head?_ne (by decide), hv.head?_ne (by decide)⟩
        refine .inr ?_
        rw [List.singleton_append, hcons, readSpoilt_sign hv]
        exact readSpoilt_suffix _
      | d :: u =>
        by_cases hd : d = ')'
        · subst hd
          exact .step (fun x => '\\' :: ')' :: x) rfl rfl (cuts_readSpoilt u)
        by_cases hd' : d = '\\'
        · subst hd'
          exact .step (fun x => '\\' :: '\\' :: x) rfl rfl (cuts_readSpoilt u)
        · have hcons (w : List Char) : readSpoilt ('\\' :: d :: w) =
              ('\\' :: (readSpoilt (d :: w)).1, (readSpoilt (d :: w)).2) :=
            readSpoilt_cons hc fun _ => ⟨by simpa using hd, by simpa using hd'⟩
          exact .step ('\\' :: ·) (hcons u) (hcons (u ++ v)) (cuts_readSpoilt (d :: u))
    · have hcons (w : List Char) : readSpoilt (c :: w) = (c :: (readSpoilt w).1, (readSpoilt w).2) :=
        readSpoilt_cons hc fun h => absurd h hslash
      exact .step (c :: ·) (hcons u) (hcons (u ++ v)) (cuts_readSpoilt u)
termination_by u.length

theorem cuts_readComment (u : List Char) : Cuts v readComment u := by
  induction u with
  | nil =>
    obtain ⟨c, w, rfl, hc⟩ := hv.sign
    have hstar : c ≠ '*' := ne_of_mem_of_not_mem hc (by decide)
    refine .inr ?_
    rw [List.nil_append, readComment_cons fun h => hstar h.1]
    exact readComment_suffix w
  | cons c u ih =>
    by_cases hend : c = '*' ∧ u.head? = some '/'
    · obtain ⟨rfl, hu⟩ := hend
      obtain ⟨u, rfl⟩ := List.head?_eq_some_iff.1 hu
      exact .same (x := []) (r := u) rfl rfl
    · refine .step (c :: ·) (readComment_cons hend) (readComment_cons ?_) ih
      cases u with
      | nil => exact fun h => hv.head?_ne (by decide) h.2
      | cons d u => exact hend

/-! ## Tokens -/

theorem cuts_readUrl (u : List Char) : Cuts v readUrl u := by
  have hspace := dropWhile_append_head (p := isSpace) (hv.fails (by decide)) u
  rcases cuts_readUrlBody hv (u.dropWhile isSpace) with hbody | hpast
  · cases hx : (readUrlBody (u.dropWhile isSpace)).1 with
    | some chars =>
      refine .same (x := .url (String.ofList chars)) (r := (readUrlBody (u.dropWhile isSpace)).2) ?_ ?_
      · simp only [readUrl, hx]
      · simp only [readUrl, hspace, hbody, hx]
    | none =>
      refine .step
        (fun x => .badUrl (String.ofList (taken (u.dropWhile isSpace) (readUrlBody (u.dropWhile isSpace)).2 ++ x)))
        ?_ ?_ (cuts_readSpoilt hv (readUrlBody (u.dropWhile isSpace)).2)
      · simp only [readUrl, hx]
      · simp only [readUrl, hspace, hbody, hx, taken_append_right]
  · refine .inr ?_
    simp only [readUrl, hspace]
    split
    · exact hpast
    · exact (readSpoilt_suffix _).trans hpast

theorem quoteAhead_sign (u : List Char) : quoteAhead (u ++ v) = quoteAhead u := by
  rw [quoteAhead, dropWhile_append_head (hv.fails (by decide)), any_head?_append (hv.fails (by decide)), quoteAhead]

theorem cuts_readNamed (u : List Char) : Cuts v readNamed u := by
  rcases cuts_readName hv u with hname | hpast
  · obtain ⟨name, r, hr⟩ : ∃ name r, readName u = (name, r) := ⟨_, _, rfl⟩
    rw [hr] at hname
    by_cases hopen : ∃ w, r = '(' :: w
    · obtain ⟨w, rfl⟩ := hopen
      by_cases hurl : (sameIgnoringCase (String.ofList name) "url" && !quoteAhead w) = true
      · refine .step id ?_ ?_ (cuts_readUrl hv w)
        · simp only [readNamed, hr, hurl]
          rfl
        · simp only [readNamed, hname, List.cons_append, quoteAhead_sign hv, hurl]
          rfl
      · refine .same (x := .function (String.ofList name)) (r := w) ?_ ?_
        · simp only [readNamed, hr, hurl]
          rfl
        · simp only [readNamed, hname, List.cons_append, quoteAhead_sign hv, hurl]
          rfl
    · have hhead : r.head? ≠ some '(' := fun h => hopen (List.head?_eq_some_iff.1 h)
      have hmore : (r ++ v).head? ≠ some '(' := by
        cases r with
        | nil => exact hv.head?_ne (by decide)
        | cons c r => exact hhead
      exact .same (readNamed_ident hr hhead) (readNamed_ident hname hmore)
  · exact .inr ((readNamed_suffix_readName _).trans hpast)

theorem startsName_sign (u : List Char) : startsName (u ++ v) = startsName u :=
  startsName_append_head u (hv.fails (by decide))

theorem cuts_readNumeric {u : List Char} (hu : u ≠ []) : Cuts v readNumeric u := by
  obtain ⟨literal, r, hread⟩ : ∃ literal r, Literal.read u = (literal, r) := ⟨_, _, rfl⟩
  have hmore : Literal.read (u ++ v) = (literal, r ++ v) := by rw [read_sign hv hu, hread]
  by_cases hpercent : ∃ w, r = '%' :: w
  · obtain ⟨w, rfl⟩ := hpercent
    refine .same (x := .percentage (literal.numeral true)) (r := w) ?_ ?_
    · simp only [readNumeric, hread]
    · simp only [readNumeric, hmore, List.cons_append]
  have hunit {cs rest : List Char} (h : Literal.read cs = (literal, rest)) (hrest : ∀ w, rest ≠ '%' :: w) :
      readNumeric cs =
        if startsName rest then
          (.dimension (literal.numeral false) (String.ofList (readName rest).1), (readName rest).2)
        else (.number (literal.numeral false), rest) := by
    simp only [readNumeric, h]
  have hr (w : List Char) : r ≠ '%' :: w := fun heq => hpercent ⟨w, heq⟩
  have hrv (w : List Char) : r ++ v ≠ '%' :: w := by
    intro heq
    cases r with
    | nil => exact hv.head?_ne (d := '%') (by decide) (by rw [← List.nil_append v, heq]; rfl)
    | cons c r => exact hr r (by rw [(List.cons.inj heq).1])
  by_cases hname : startsName r = true
  · refine .step (fun x => .dimension (literal.numeral false) (String.ofList x)) ?_ ?_ (cuts_readName hv r)
    · rw [hunit hread hr, if_pos hname]
    · rw [hunit hmore hrv, startsName_sign hv, if_pos hname]
  · refine .same (x := .number (literal.numeral false)) (r := r) ?_ ?_
    · rw [hunit hread hr, if_neg hname]
    · rw [hunit hmore hrv, startsName_sign hv, if_neg hname]

theorem cuts_readHash (u : List Char) : Cuts v readHash u := by
  unfold readHash
  refine .ite (by rw [startsName_sign hv]) (fun _ => ?_) fun _ => .ite ?_ (fun _ => ?_) fun _ => .same rfl rfl
  · exact .step (fun x => .idHash (String.ofList x)) rfl rfl (cuts_readName hv u)
  · rw [any_head?_append (hv.fails (by decide))]
  · exact .step (fun x => .hash (String.ofList x)) rfl rfl (cuts_readName hv u)

theorem cuts_readSymbol (c : Char) (u : List Char) : Cuts v (readSymbol c) u := by
  have hhead : (u ++ v).head? = some '=' ↔ u.head? = some '=' := by
    cases u with
    | nil => exact iff_of_false (hv.head?_ne (by decide)) nofun
    | cons d u => exact Iff.rfl
  unfold readSymbol
  cases MatchOperator.ofSign? c with
  | some op =>
    refine .ite hhead (fun h => ?_) fun _ => .same rfl rfl
    obtain ⟨w, rfl⟩ := List.head?_eq_some_iff.1 h
    exact .same rfl rfl
  | none =>
    cases Bracket.ofOpen? c with
    | some b => exact .same rfl rfl
    | none =>
      cases Bracket.ofClose? c with
      | some b => exact .same rfl rfl
      | none =>
        refine .ite Iff.rfl (fun _ => .same rfl rfl) fun _ => ?_
        refine .ite Iff.rfl (fun _ => .same rfl rfl) fun _ => ?_
        refine .ite Iff.rfl (fun _ => .same rfl rfl) fun _ => ?_
        refine .ite (and_congr_right fun _ => hv.prefix_append_iff (by decide) u) (fun h => ?_) fun _ => ?_
        · exact .same rfl (congrArg _ (drop_append_of_isPrefix h.2 v))
        refine .ite (and_congr_right fun _ => hv.prefix_append_iff (by decide) u) (fun h => ?_) fun _ => ?_
        · have hdrop : (u ++ v).drop 1 = u.drop 1 ++ v := drop_append_of_isPrefix h.2 v
          refine .step (fun x => .comment (String.ofList x)) rfl ?_ (cuts_readComment hv (u.drop 1))
          rw [hdrop]
        refine .ite Iff.rfl (fun _ => cuts_readHash hv u) fun _ => ?_
        refine .ite (by rw [startsName_sign hv]) (fun _ => ?_) fun _ => .same rfl rfl
        exact .step (fun x => .atKeyword (String.ofList x)) rfl rfl (cuts_readName hv u)

/-- Only a single dash that the sign of a child comes after is no end of a markup comment by itself. -/
theorem prefix_markupClose_iff {u : List Char} (hu : ¬ (u = ['-'] ∧ v.head? = some '>')) :
    ['-', '>'] <+: u ++ v ↔ ['-', '>'] <+: u := by
  match u with
  | [] =>
    refine iff_of_false (fun h => ?_) (by decide)
    obtain ⟨w, rfl⟩ := h
    exact hv.head?_ne (d := '-') (by decide) rfl
  | [c] =>
    refine iff_of_false (fun h => hu ?_) (by simp)
    rw [List.singleton_append, List.cons_prefix_cons] at h
    obtain ⟨rfl, w, rfl⟩ := h
    exact ⟨rfl, rfl⟩
  | c :: d :: u => simp [List.cons_prefix_cons]

/-- A token ends before the sign of a combinator as it does at the end of the text, or else takes the
sign. -/
theorem cuts_readToken (c : Char) (u : List Char) : Cuts v (readToken c) u := by
  have hne : c :: u ≠ [] := List.cons_ne_nil c u
  unfold readToken
  refine .ite Iff.rfl (fun _ => ?_) fun _ => ?_
  · refine .same rfl ?_
    rw [← List.cons_append, readSpace, takeWhile_append_head (hv.fails (by decide)),
      dropWhile_append_head (hv.fails (by decide))]
  refine .ite Iff.rfl (fun hquote => ?_) fun _ => ?_
  · exact .step (fun x => if x.2 then .string (String.ofList x.1) else .badString (String.ofList x.1)) rfl rfl
      (cuts_readQuoted hv hquote u)
  refine .ite (by rw [← List.cons_append, startsNumber_sign hv hne]) (fun _ => cuts_readNumeric hv hne) fun _ => ?_
  by_cases hmarkup : c = '-' ∧ u = ['-'] ∧ v.head? = some '>'
  · -- two dashes make a token of their own with the sign after them
    obtain ⟨rfl, rfl, hhead⟩ := hmarkup
    obtain ⟨w, rfl⟩ := List.head?_eq_some_iff.1 hhead
    exact .inr (List.suffix_refl w)
  refine .ite (and_congr_right fun hc => prefix_markupClose_iff hv fun h => hmarkup ⟨hc, h⟩)
    (fun h => .same rfl (congrArg _ (drop_append_of_isPrefix h.2 v))) fun _ => ?_
  refine .ite (by rw [← List.cons_append, startsName_sign hv]) (fun _ => cuts_readNamed hv (c :: u)) fun _ => ?_
  exact cuts_readSymbol hv c u

end Sign

/-- A token that leaves the sign of a combinator ahead is the same at the end of the text. -/
theorem readToken_before_sign {c : Char} {u r v : List Char} {t : Token} (hv : AtSign v)
    (h : readToken c (u ++ v) = (t, r ++ v)) : readToken c u = (t, r) :=
  (cuts_readToken hv c u).eq hv.ne_nil h

end Token

/-! ## Lexemes -/

namespace Lexeme

/-- Lexemes that end before the sign of a combinator are the same at the end of the text. -/
theorem ofChars_sign {xs : List Lexeme} {v : List Char} (hv : Token.AtSign v)
    (h : ofChars (chars xs ++ v) = xs ++ ofChars v) : ofChars (chars xs) = xs := by
  induction xs with
  | nil => rw [chars, List.flatMap_nil, ofChars]
  | cons x xs ih =>
    obtain ⟨c, u, htext, hread, hrest⟩ := ofChars_append_eq_cons h
    rw [chars, List.flatMap_cons, ← chars, htext, ofChars_of_readToken (Token.readToken_before_sign hv hread), ih hrest,
      ← htext]

/-- What comes before the sign of a combinator reads by itself as it does in front of it. -/
theorem ofChars_before_sign {cs : List Char} {xs more : List Lexeme} {x : Lexeme} {c : Char}
    (hc : c ∈ ['>', '+', '~']) (hx : x.token = .delim c) (h : ofChars cs = xs ++ x :: more) :
    ofChars (chars xs) = xs := by
  have hmore := ofChars_suffix h
  obtain ⟨d, u, htext, -, hread, -⟩ := ofChars_eq_cons hmore
  obtain ⟨rfl, hnumber⟩ := Token.readToken_delim (congrArg Prod.fst hread |>.trans hx)
  have hrest : chars (x :: more) = d :: (u ++ chars more) := by
    rw [chars, List.flatMap_cons, htext]
    rfl
  have hsign : Token.AtSign (chars (x :: more)) := by
    rw [hrest]
    exact ⟨⟨d, _, rfl, hc⟩, hnumber⟩
  refine ofChars_sign hsign ?_
  rw [hmore, ← h]
  show ofChars (chars xs ++ chars (x :: more)) = _
  rw [chars, chars, ← List.flatMap_append, ← chars, ← h, chars_ofChars]

end Lexeme

end StyleSelectors
