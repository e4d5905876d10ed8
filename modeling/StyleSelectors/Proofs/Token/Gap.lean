/-
More text after a blank. A reader that leaves something of a text unread has found its end there, and
ends at the same place with a blank and anything else after the text (`settles_readToken`). So what
comes after a blank changes no lexeme of the text before it but the last one (`Lexeme.ofChars_gap`).
-/
import StyleSelectors.Proofs.Token.Parted
import StyleSelectors.Proofs.Token.ReadBack

namespace StyleSelectors

open Text Numeric

namespace Token

/-- Whether a text is at its end, or goes on with a blank. -/
def AtGap (v : List Char) : Prop := ∀ c ∈ v.head?, isSpace c = true

namespace AtGap

variable {v : List Char}

theorem fails (h : AtGap v) {p : Char → Bool} (hp : [' ', '\t', '\n', '\r', '\x0c'].all (fun c => !p c) = true) :
    ∀ c ∈ v.head?, p c = false := by
  intro c hc
  have hmem : c ∈ [' ', '\t', '\n', '\r', '\x0c'] := by simpa [isSpace, isNewline, or_assoc] using h c hc
  simpa using List.all_eq_true.1 hp c hmem

theorem number (h : AtGap v) : ∀ c ∈ v.head?, isNumberChar c = false := h.fails (by decide)

theorem prefix_append_iff (h : AtGap v) {l : List Char} (hl : l.all (fun c => !isSpace c) = true) (u : List Char) :
    l <+: u ++ v ↔ l <+: u := by
  refine prefix_append_head_iff (fun c hc hmem => ?_) u
  have hspace := List.all_eq_true.1 hl c hmem
  rw [h c hc] at hspace
  cases hspace

end AtGap

/-! ## Readers that find their end -/

section Gap

variable {v : List Char}

/-- Whether a reader that leaves something of `u` unread ends at the same place with `v` after `u`. -/
def Settles {α : Type} (v : List Char) (read : List Char → α × List Char) (u : List Char) : Prop :=
  (read u).2 ≠ [] → read (u ++ v) = ((read u).1, (read u).2 ++ v)

namespace Settles

variable {α β : Type} {read : List Char → α × List Char} {more : List Char → β × List Char} {u u' : List Char}

/-- A reader that takes all it is given says nothing of what comes next. -/
theorem of_all (h : (read u).2 = []) : Settles v read u := fun hne => absurd h hne

theorem of_eq {x : α} {r : List Char} (h : read u = (x, r)) (hmore : r ≠ [] → read (u ++ v) = (x, r ++ v)) :
    Settles v read u := by
  intro hne
  rw [h] at hne ⊢
  exact hmore hne

/-- A reader that goes on with another one, which leaves an end part of what it is given. -/
theorem step (f : β → α) (h : read u = (f (more u').1, (more u').2)) (hsuffix : (more u').2 <:+ u')
    (hmore : u' ≠ [] → read (u ++ v) = (f (more (u' ++ v)).1, (more (u' ++ v)).2)) (hu' : Settles v more u') :
    Settles v read u := by
  refine of_eq h fun hne => ?_
  have hu : u' ≠ [] := by
    rintro rfl
    exact hne (List.suffix_nil.1 hsuffix)
  rw [hmore hu, hu' hne]

/-- A reader that is one of two, and the same one with more text if it leaves any unread. -/
theorem ite {p : List Char → Prop} [DecidablePred p] {first second : List Char → α × List Char}
    (hp : (if p u then first u else second u).2 ≠ [] → (p (u ++ v) ↔ p u)) (hfirst : p u → Settles v first u)
    (hsecond : ¬ p u → Settles v second u) : Settles v (fun u => if p u then first u else second u) u := by
  intro hne
  have hp := hp hne
  by_cases h : p u
  · simp only [if_pos h, if_pos (hp.2 h)] at hne ⊢
    exact hfirst h hne
  · simp only [if_neg h, if_neg (mt hp.1 h)] at hne ⊢
    exact hsecond h hne

end Settles

theorem atNewline_append_of_ne {u : List Char} (hu : u ≠ []) (v : List Char) : atNewline (u ++ v) = atNewline u := by
  cases u with
  | nil => exact absurd rfl hu
  | cons c u => rfl

theorem ne_nil_of_atNewline {u : List Char} (h : atNewline u = true) : u ≠ [] := by
  rintro rfl
  cases h

theorem ne_nil_of_readEscape {u : List Char} (h : (readEscape u).2 ≠ []) : u ≠ [] := by
  rintro rfl
  exact h rfl

theorem dropSpace_gap {u : List Char} (h : dropSpace u ≠ []) : dropSpace (u ++ v) = dropSpace u ++ v := by
  match u with
  | [] => exact absurd rfl h
  | [c] =>
    by_cases hc : isSpace c = true
    · rw [dropSpace_cons (by simp), if_pos hc] at h
      exact absurd rfl h
    · have hline : ¬ (c = '\r' ∧ v.head? = some '\n') := by
        rintro ⟨rfl, -⟩
        exact hc rfl
      rw [List.singleton_append, dropSpace_cons hline, dropSpace_cons (by simp), if_neg hc, if_neg hc]
      rfl
  | c :: d :: u => exact dropSpace_cons_cons_append c d u v

theorem settles_readEscape (u : List Char) : Settles v readEscape u := by
  cases u with
  | nil => exact .of_all rfl
  | cons c u =>
    by_cases hhex : isHexDigit c = true
    · intro hne
      simp only [readEscape, if_pos hhex] at hne
      have hdrop : u.drop ((u.take 5).takeWhile isHexDigit).length ≠ [] := by
        intro hnil
        rw [hnil] at hne
        exact hne rfl
      -- the digits end before the text does
      have hlen : ((u.take 5).takeWhile isHexDigit).length < u.length := by
        rw [ne_eq, List.drop_eq_nil_iff] at hdrop
        omega
      have htake : ((u ++ v).take 5).takeWhile isHexDigit = (u.take 5).takeWhile isHexDigit := by
        rw [List.take_append]
        by_cases hlong : 5 ≤ u.length
        · rw [Nat.sub_eq_zero_of_le hlong, List.take_zero, List.append_nil]
        · rw [List.take_of_length_le (by omega)] at hlen ⊢
          rw [List.takeWhile_append, if_neg (Nat.ne_of_lt hlen)]
      simp only [List.cons_append, readEscape, if_pos hhex, htake, List.drop_append_of_le_length (Nat.le_of_lt hlen),
        dropSpace_gap hne]
    · refine .of_eq (x := Text.shown c) (r := u) ?_ fun _ => ?_
      · simp only [readEscape, if_neg hhex]
      · simp only [List.cons_append, readEscape, if_neg hhex]

theorem settles_readName (u : List Char) : Settles v readName u := by
  fun_induction readName u with
  | case1 => exact .of_all (by rw [readName])
  | case2 rest hnew =>
    refine .of_eq (readName_newline hnew) fun _ => readName_newline ?_
    exact (atNewline_append_of_ne (ne_nil_of_atNewline hnew) v).trans hnew
  | case3 rest hnew escape _ _ ih =>
    rw [Bool.not_eq_true] at hnew
    refine .step (escape.1 :: ·) (readName_escape hnew) (readName_suffix _) (fun hne => ?_) ih
    have hrest := ne_nil_of_readEscape hne
    rw [List.cons_append, readName_escape ((atNewline_append_of_ne hrest v).trans hnew), settles_readEscape rest hne]
  | case4 c rest _ hname _ ih =>
    exact .step (Text.shown c :: ·) (readName_cons hname rest) (readName_suffix _) (fun _ => readName_cons hname _) ih
  | case5 c rest hslash hname =>
    refine .of_eq (x := []) (r := c :: rest) ?_ fun _ => ?_
    · rw [readName, if_neg hslash, if_neg hname]
    · rw [List.cons_append, readName, if_neg hslash, if_neg hname]

theorem settles_readQuoted (quote : Char) (u : List Char) : Settles v (readQuoted quote) u := by
  fun_induction readQuoted quote u with
  | case1 => exact .of_all (by rw [readQuoted])
  | case2 rest => exact .of_eq (readQuoted_quote quote rest) fun _ => readQuoted_quote quote (rest ++ v)
  | case3 c rest hc hline =>
    exact .of_eq (readQuoted_newline hc hline rest) fun _ => readQuoted_newline hc hline (rest ++ v)
  | case4 rest hempty hc _ =>
    obtain rfl := List.isEmpty_iff.1 hempty
    exact .of_all (congrArg Prod.snd (readQuoted_slash_end hc))
  | case5 rest hempty hnew _ hc _ ih =>
    have hrest : rest ≠ [] := fun hnil => hempty (List.isEmpty_iff.2 hnil)
    have hmore : rest ++ v ≠ [] := List.append_ne_nil_of_left_ne_nil hrest v
    refine .step id (readQuoted_slash_newline hc hrest hnew) (readQuoted_suffix quote _) (fun hne => ?_) ih
    rw [← dropSpace_gap hne]
    exact readQuoted_slash_newline hc hmore ((atNewline_append_of_ne hrest v).trans hnew)
  | case6 rest hempty hnew escape _ _ hc _ ih =>
    rw [Bool.not_eq_true] at hnew
    have hrest : rest ≠ [] := fun hnil => hempty (List.isEmpty_iff.2 hnil)
    have hmore : rest ++ v ≠ [] := List.append_ne_nil_of_left_ne_nil hrest v
    refine .step (fun x => (escape.1 :: x.1, x.2)) (readQuoted_escape hc hrest hnew) (readQuoted_suffix quote _)
      (fun hne => ?_) ih
    rw [List.cons_append, readQuoted_escape hc hmore ((atNewline_append_of_ne hrest v).trans hnew),
      settles_readEscape rest hne]
  | case7 c rest hc hline hslash _ ih =>
    rw [Bool.not_eq_true] at hline
    exact .step (fun x => (Text.shown c :: x.1, x.2)) (readQuoted_cons hc hslash hline rest)
      (readQuoted_suffix quote rest) (fun _ => readQuoted_cons hc hslash hline (rest ++ v)) ih

theorem settles_readUrlEnd (u : List Char) : Settles v readUrlEnd u := by
  fun_induction readUrlEnd u with
  | case1 => exact .of_all rfl
  | case2 rest => exact .of_eq (x := true) (r := rest) rfl fun _ => rfl
  | case3 c rest hc hspace ih =>
    exact .step id (readUrlEnd_space hc hspace rest) (readUrlEnd_suffix rest)
      (fun _ => readUrlEnd_space hc hspace (rest ++ v)) ih
  | case4 c rest hc hspace =>
    rw [Bool.not_eq_true] at hspace
    exact .of_eq (readUrlEnd_cons hc hspace rest) fun _ => readUrlEnd_cons hc hspace (rest ++ v)

theorem settles_readUrlBody (u : List Char) : Settles v readUrlBody u := by
  fun_induction readUrlBody u with
  | case1 => exact .of_all (by rw [readUrlBody])
  | case2 rest => exact .of_eq (readUrlBody_close rest) fun _ => readUrlBody_close (rest ++ v)
  | case3 c rest hc hspace _ =>
    exact .step (fun x => if x then some [] else none) (readUrlBody_space hc hspace rest) (readUrlEnd_suffix rest)
      (fun _ => readUrlBody_space hc hspace (rest ++ v)) (settles_readUrlEnd rest)
  | case4 c rest hc hspace hspoils =>
    rw [Bool.not_eq_true] at hspace
    exact .of_eq (readUrlBody_spoilt hc hspace hspoils rest) fun _ => readUrlBody_spoilt hc hspace hspoils (rest ++ v)
  | case5 rest hnew =>
    refine .of_eq (readUrlBody_newline hnew) fun _ => readUrlBody_newline ?_
    exact (atNewline_append_of_ne (ne_nil_of_atNewline hnew) v).trans hnew
  | case6 rest hnew escape _ _ _ _ _ ih =>
    rw [Bool.not_eq_true] at hnew
    refine .step (Option.map (escape.1 :: ·)) (readUrlBody_escape hnew) (readUrlBody_suffix _) (fun hne => ?_) ih
    have hrest := ne_nil_of_readEscape hne
    rw [List.cons_append, readUrlBody_escape ((atNewline_append_of_ne hrest v).trans hnew), settles_readEscape rest hne]
  | case7 c rest hc hspace hspoils hslash _ ih =>
    rw [Bool.not_eq_true] at hspace hspoils
    exact .step (Option.map (Text.shown c :: ·)) (readUrlBody_cons hc hspace hspoils hslash rest)
      (readUrlBody_suffix rest) (fun _ => readUrlBody_cons hc hspace hspoils hslash (rest ++ v)) ih

theorem settles_readSpoilt (u : List Char) : Settles v readSpoilt u := by
  match u with
  | [] => exact .of_all rfl
  | c :: u =>
    by_cases hc : c = ')'
    · subst hc
      exact .of_eq (x := []) (r := u) rfl fun _ => rfl
    by_cases hslash : c = '\\'
    · subst hslash
      match u with
      | [] => exact .of_all rfl
      | d :: u =>
        by_cases hd : d = ')'
        · subst hd
          exact .step (fun x => '\\' :: ')' :: x) rfl (readSpoilt_suffix u) (fun _ => rfl) (settles_readSpoilt u)
        by_cases hd' : d = '\\'
        · subst hd'
          exact .step (fun x => '\\' :: '\\' :: x) rfl (readSpoilt_suffix u) (fun _ => rfl) (settles_readSpoilt u)
        · have hcons (w : List Char) : readSpoilt ('\\' :: d :: w) =
              ('\\' :: (readSpoilt (d :: w)).1, (readSpoilt (d :: w)).2) :=
            readSpoilt_cons hc fun _ => ⟨by simpa using hd, by simpa using hd'⟩
          exact .step ('\\' :: ·) (hcons u) (readSpoilt_suffix _) (fun _ => hcons (u ++ v))
            (settles_readSpoilt (d :: u))
    · have hcons (w : List Char) : readSpoilt (c :: w) = (c :: (readSpoilt w).1, (readSpoilt w).2) :=
        readSpoilt_cons hc fun h => absurd h hslash
      exact .step (c :: ·) (hcons u) (readSpoilt_suffix u) (fun _ => hcons (u ++ v)) (settles_readSpoilt u)
termination_by u.length

theorem settles_readComment (u : List Char) : Settles v readComment u := by
  induction u with
  | nil => exact .of_all rfl
  | cons c u ih =>
    by_cases hend : c = '*' ∧ u.head? = some '/'
    · obtain ⟨rfl, hu⟩ := hend
      obtain ⟨u, rfl⟩ := List.head?_eq_some_iff.1 hu
      exact .of_eq (x := []) (r := u) rfl fun _ => rfl
    · refine .step (c :: ·) (readComment_cons hend) (readComment_suffix u) (fun hne => readComment_cons ?_) ih
      cases u with
      | nil => exact absurd rfl hne
      | cons d u => exact hend

theorem dropWhile_append_of_ne {p : Char → Bool} {u : List Char} (h : u.dropWhile p ≠ []) (v : List Char) :
    (u ++ v).dropWhile p = u.dropWhile p ++ v := by
  rw [List.dropWhile_append, if_neg (by simpa [List.isEmpty_iff] using h)]

theorem takeWhile_append_of_ne {p : Char → Bool} {u : List Char} (h : u.dropWhile p ≠ []) (v : List Char) :
    (u ++ v).takeWhile p = u.takeWhile p := by
  rw [List.takeWhile_append, if_neg]
  intro hlength
  have hall := List.takeWhile_append_dropWhile (p := p) (l := u)
  rw [(List.takeWhile_prefix p).eq_of_length hlength] at hall
  exact h (List.append_right_eq_self.1 hall)

theorem settles_readUrl (u : List Char) : Settles v readUrl u := by
  intro hne
  have hbody : (readUrlBody (u.dropWhile isSpace)).2 ≠ [] := by
    intro hnil
    apply hne
    unfold readUrl
    dsimp only
    split
    · exact hnil
    · rw [hnil]
      rfl
  have hvalue : u.dropWhile isSpace ≠ [] := fun hnil => hbody (by rw [hnil, readUrlBody])
  simp only [readUrl] at hne
  simp only [readUrl, dropWhile_append_of_ne hvalue, settles_readUrlBody _ hbody]
  split
  · rfl
  · next hnone =>
    rw [hnone] at hne
    rw [settles_readSpoilt _ hne, taken_append_right]

/-! ## Tokens -/

/-- A url that is not at its end has something but blanks after its bracket. -/
theorem dropWhile_of_readUrl {u : List Char} (h : (readUrl u).2 ≠ []) : u.dropWhile isSpace ≠ [] := by
  intro hnil
  simp only [readUrl, hnil, readUrlBody] at h
  exact h rfl

theorem quoteAhead_append_of_ne {u : List Char} (h : u.dropWhile isSpace ≠ []) (v : List Char) :
    quoteAhead (u ++ v) = quoteAhead u := by
  rw [quoteAhead, dropWhile_append_of_ne h, quoteAhead]
  cases hdrop : u.dropWhile isSpace with
  | nil => exact absurd hdrop h
  | cons c w => rfl

theorem dropWhile_of_quoteAhead {u : List Char} (h : quoteAhead u = true) : u.dropWhile isSpace ≠ [] := by
  intro hnil
  rw [quoteAhead, hnil] at h
  cases h

theorem settles_readNamed (u : List Char) : Settles v readNamed u := by
  obtain ⟨name, r, hr⟩ : ∃ name r, readName u = (name, r) := ⟨_, _, rfl⟩
  have hsuffix := readNamed_suffix_readName u
  have hmore : r ≠ [] → readName (u ++ v) = (name, r ++ v) := by
    have := settles_readName (v := v) u
    rwa [Settles, hr] at this
  rw [hr] at hsuffix
  cases r with
  | nil => exact .of_all (List.suffix_nil.1 hsuffix)
  | cons c w =>
    have hmore := hmore (List.cons_ne_nil c w)
    by_cases hopen : c = '('
    · subst hopen
      by_cases hurl : (sameIgnoringCase (String.ofList name) "url" && !quoteAhead w) = true
      · have hread : readNamed u = readUrl w := by simp only [readNamed, hr, if_pos hurl]
        intro hne
        rw [hread] at hne ⊢
        have hurl : (sameIgnoringCase (String.ofList name) "url" && !quoteAhead (w ++ v)) = true := by
          rw [quoteAhead_append_of_ne (dropWhile_of_readUrl hne), hurl]
        rw [← settles_readUrl w hne]
        simp only [readNamed, hmore, List.cons_append, if_pos hurl]
      · have hquote (hname : sameIgnoringCase (String.ofList name) "url" = true) : quoteAhead w = true := by
          simpa [hname] using hurl
        refine .of_eq (readNamed_function hr hquote) fun _ => readNamed_function hmore fun hname => ?_
        rw [quoteAhead_append_of_ne (dropWhile_of_quoteAhead (hquote hname)), hquote hname]
    · have hhead (w : List Char) : (c :: w).head? ≠ some '(' := fun h => hopen (Option.some.inj h)
      exact .of_eq (readNamed_ident hr (hhead w)) fun _ => readNamed_ident hmore (hhead (w ++ v))

/-- A name that is left unfinished is more than a backslash. -/
theorem ne_slash_of_readName {u : List Char} (h : (readName u).2 ≠ []) : u ≠ ['\\'] := by
  rintro rfl
  rw [readName_escape rfl, readEscape, readName] at h
  exact h rfl

section AtGap

variable (hv : AtGap v)
include hv

/-- A name starts before a gap if it starts at the end, but for a backslash, which takes out what comes
next. -/
theorem startsName_gap {u : List Char} (hu : u ≠ ['\\']) : startsName (u ++ v) = startsName u := by
  match u with
  | [] =>
    cases v with
    | nil => rfl
    | cons c v =>
      have hhead := hv.fails (p := fun c => isNameStart c || c == '-' || c == '\\') (by decide) c rfl
      obtain ⟨⟨hstart, hdash⟩, hslash⟩ : (isNameStart c = false ∧ c ≠ '-') ∧ c ≠ '\\' := by simpa using hhead
      refine Bool.eq_false_iff.2 fun h => ?_
      rcases startsName_cases h with h | h | ⟨h, -⟩
      · rw [hstart] at h
        cases h
      · exact hslash h
      · exact hdash h
  | c :: u =>
    by_cases hdash : c = '-'
    · subst hdash
      exact any_head?_append (hv.fails (by decide)) u
    by_cases hslash : c = '\\'
    · subst hslash
      have hne : u ≠ [] := by
        rintro rfl
        exact hu rfl
      exact congrArg (!·) (atNewline_append_of_ne hne v)
    · simp [startsName]

theorem settles_readNumeric (u : List Char) : Settles v readNumeric u := by
  obtain ⟨literal, r, hread⟩ : ∃ literal r, Literal.read u = (literal, r) := ⟨_, _, rfl⟩
  have hmore : Literal.read (u ++ v) = (literal, r ++ v) := by rw [read_append hv.number, hread]
  match r with
  | [] => exact .of_all (by simp [readNumeric, hread, startsName])
  | c :: w =>
    have hmore : Literal.read (u ++ v) = (literal, c :: (w ++ v)) := hmore
    by_cases hpercent : c = '%'
    · subst hpercent
      refine .of_eq (x := .percentage (literal.numeral true)) (r := w) ?_ fun _ => ?_
      · simp only [readNumeric, hread]
      · simp only [readNumeric, hmore]
    have hunit {cs rest : List Char} (h : Literal.read cs = (literal, c :: rest)) : readNumeric cs =
        if startsName (c :: rest) then
          (.dimension (literal.numeral false) (String.ofList (readName (c :: rest)).1), (readName (c :: rest)).2)
        else (.number (literal.numeral false), c :: rest) := by
      simp only [readNumeric, h]
      split
      · next heq => exact absurd (List.cons.inj heq).1 hpercent
      · rfl
    by_cases hname : startsName (c :: w) = true
    · intro hne
      rw [hunit hread, if_pos hname] at hne ⊢
      rw [hunit hmore, ← List.cons_append, startsName_gap hv (ne_slash_of_readName hne), if_pos hname,
        settles_readName _ hne]
    · have hslash : c :: w ≠ ['\\'] := by
        intro heq
        rw [heq] at hname
        exact hname rfl
      refine .of_eq (x := .number (literal.numeral false)) (r := c :: w) ?_ fun _ => ?_
      · rw [hunit hread, if_neg hname]
      · rw [hunit hmore, ← List.cons_append, startsName_gap hv hslash, if_neg hname]

theorem settles_readHash (u : List Char) : Settles v readHash u := by
  unfold readHash
  refine .ite (fun hne => ?_) (fun _ hne => ?_) fun _ => .ite (fun hne => ?_) (fun _ hne => ?_) fun _ _ => rfl
  · rw [startsName_gap hv]
    rintro rfl
    rw [if_pos (show startsName ['\\'] = true from rfl)] at hne
    exact ne_slash_of_readName hne rfl
  · rw [settles_readName u hne]
  · cases u with
    | nil => exact absurd rfl hne
    | cons c u => exact Iff.rfl
  · rw [settles_readName u hne]

theorem settles_readSymbol (c : Char) (u : List Char) : Settles v (readSymbol c) u := by
  by_cases hu : u = []
  · subst hu
    exact .of_all (List.suffix_nil.1 (readSymbol_suffix c []))
  unfold readSymbol
  cases MatchOperator.ofSign? c with
  | some op =>
    cases u with
    | nil => exact absurd rfl hu
    | cons d u => exact .ite (fun _ => Iff.rfl) (fun _ _ => rfl) fun _ _ => rfl
  | none =>
    cases Bracket.ofOpen? c with
    | some b => exact fun _ => rfl
    | none =>
      cases Bracket.ofClose? c with
      | some b => exact fun _ => rfl
      | none =>
        refine .ite (fun _ => Iff.rfl) (fun _ _ => rfl) fun _ => ?_
        refine .ite (fun _ => Iff.rfl) (fun _ _ => rfl) fun _ => ?_
        refine .ite (fun _ => Iff.rfl) (fun _ _ => rfl) fun _ => ?_
        refine .ite (fun _ => and_congr_right fun _ => hv.prefix_append_iff (by decide) u) (fun h _ => ?_) fun _ => ?_
        · exact congrArg _ (drop_append_of_isPrefix h.2 v)
        refine .ite (fun _ => and_congr_right fun _ => hv.prefix_append_iff (by decide) u) (fun h hne => ?_) fun _ => ?_
        · have hdrop : (u ++ v).drop 1 = u.drop 1 ++ v := drop_append_of_isPrefix h.2 v
          rw [hdrop, settles_readComment _ hne]
        refine .ite (fun _ => Iff.rfl) (fun _ => settles_readHash hv u) fun _ => ?_
        refine .ite (fun hne => and_congr_right fun hat => ?_) (fun _ hne => ?_) fun _ _ => rfl
        · rw [startsName_gap hv]
          rintro rfl
          rw [if_pos ⟨hat, rfl⟩] at hne
          exact ne_slash_of_readName hne rfl
        · rw [settles_readName u hne]

/-- A token that does not take all of a text is the same with a blank and more after the text. -/
theorem settles_readToken (c : Char) (u : List Char) : Settles v (readToken c) u := by
  unfold readToken
  refine .ite (fun _ => Iff.rfl) (fun _ hne => ?_) fun _ => ?_
  · rw [readSpace, ← List.cons_append, dropWhile_append_of_ne hne, takeWhile_append_of_ne hne, readSpace]
  refine .ite (fun _ => Iff.rfl) (fun _ hne => ?_) fun _ => ?_
  · rw [readString, settles_readQuoted c u hne, readString]
  refine .ite (fun _ => ?_) (fun _ => settles_readNumeric hv (c :: u)) fun _ => ?_
  · rw [← List.cons_append, startsNumber_append hv.number]
  refine .ite (fun _ => and_congr_right fun _ => hv.prefix_append_iff (by decide) u) (fun h _ => ?_) fun _ => ?_
  · exact congrArg _ (drop_append_of_isPrefix h.2 v)
  refine .ite (fun hne => ?_) (fun _ => settles_readNamed (c :: u)) fun _ => settles_readSymbol hv c u
  rw [← List.cons_append, startsName_gap hv]
  intro hslash
  obtain ⟨rfl, rfl⟩ := List.cons.inj hslash
  rw [if_pos (show startsName ['\\'] = true from rfl)] at hne
  refine ne_slash_of_readName (fun hnil => hne ?_) rfl
  have hsuffix := readNamed_suffix_readName ['\\']
  rw [hnil] at hsuffix
  exact List.suffix_nil.1 hsuffix

end AtGap

end Gap

end Token

/-! ## Lexemes -/

namespace Lexeme

/-- What comes after a blank changes no lexeme before it but the last. -/
theorem ofChars_gap {cs v : List Char} {xs : List Lexeme} {y : Lexeme} (h : ofChars cs = xs ++ [y])
    (hv : Token.AtGap v) : ofChars (cs ++ v) = xs ++ ofChars (y.text ++ v) := by
  induction xs generalizing cs with
  | nil =>
    have hcs : cs = y.text ++ [] := by
      rw [← chars_ofChars cs, h]
      rfl
    rw [hcs, List.append_nil, List.nil_append]
  | cons x xs ih =>
    rw [List.cons_append] at h
    obtain ⟨c, u, htext, rfl, hread, hrest⟩ := ofChars_eq_cons h
    have hne : chars (xs ++ [y]) ≠ [] := by
      intro hnil
      rw [hnil, ofChars] at hrest
      exact List.append_ne_nil_of_right_ne_nil xs (List.cons_ne_nil y []) hrest.symm
    have hmore : Token.readToken c (u ++ (chars (xs ++ [y]) ++ v)) = (x.token, chars (xs ++ [y]) ++ v) := by
      have := Token.settles_readToken hv c (u ++ chars (xs ++ [y]))
      rw [Token.Settles, hread, List.append_assoc] at this
      exact this hne
    rw [List.append_assoc, ofChars_of_readToken hmore, ih hrest, ← htext]
    rfl

end Lexeme

end StyleSelectors
