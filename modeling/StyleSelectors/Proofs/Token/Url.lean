/-
Urls without quotes read back as they were written: every character of the value by itself, and the url to
its closing bracket (`readsBack_url`). The text of a spoilt url is written as it was read, so it reads back
in front of anything if it does so by itself, up to a bracket that ends it (`readsBack_badUrl`).
-/
import StyleSelectors.Proofs.Token.Fits

namespace StyleSelectors.Token

open Text

/-! ## Written urls -/

/-- A character of a written url reads back, and the rest of the url after it. -/
theorem readUrlBody_writeUrlChar {c : Char} (h : c ≠ nul) (rest : List Char) :
    readUrlBody (writeUrlChar c ++ rest) = ((readUrlBody rest).1.map (c :: ·), (readUrlBody rest).2) := by
  unfold writeUrlChar
  split
  · next hcontrol =>
    have hc : c.toNat < 128 := by omega
    simp only [hexEscape, List.cons_append, List.append_assoc, List.nil_append]
    rw [readUrlBody_escape (atNewline_toDigits hc _), readEscape_hex h hc]
  next hcontrol =>
  rw [not_or] at hcontrol
  split
  · next hc =>
    have hhex : isHexDigit c = false := by rcases hc with rfl | rfl | rfl | rfl | rfl <;> rfl
    have hline : isNewline c = false := by rcases hc with rfl | rfl | rfl | rfl | rfl <;> rfl
    rw [List.cons_append, List.singleton_append, readUrlBody_escape ((atNewline_cons c rest).trans hline),
      readEscape_cons hhex h]
  · next hc =>
    obtain ⟨hopen, hclose, hdouble, hsingle, hslash⟩ : c ≠ '(' ∧ c ≠ ')' ∧ c ≠ '"' ∧ c ≠ '\'' ∧ c ≠ '\\' := by
      simpa [not_or] using hc
    have hspace : isSpace c = false := by
      rw [Bool.eq_false_iff, ne_eq, isSpace_iff]
      omega
    have hspoils : spoilsUrl c = false := by
      have hplain : isControl c = false := by
        rw [Bool.eq_false_iff, ne_eq, isControl_iff]
        omega
      simp [spoilsUrl, hopen, hdouble, hsingle, hplain]
    rw [List.singleton_append, readUrlBody_cons hclose hspace hspoils hslash, shown_of_ne_nul h]

theorem readUrlBody_writeUrl {cs : List Char} (h : nul ∉ cs) (rest : List Char) :
    readUrlBody (writeUrl cs ++ ')' :: rest) = (some cs, rest) := by
  induction cs with
  | nil => rw [writeUrl, List.flatMap_nil, List.nil_append, readUrlBody_close]
  | cons c cs ih =>
    obtain ⟨hc, hcs⟩ := not_or.1 (mt List.mem_cons.2 h)
    rw [writeUrl, List.flatMap_cons, List.append_assoc, readUrlBody_writeUrlChar (Ne.symm hc), ← writeUrl, ih hcs]
    rfl

/-- A written url starts with no blank and no quote. -/
theorem head_writeUrl (cs rest : List Char) :
    ∀ c ∈ (writeUrl cs ++ ')' :: rest).head?, isSpace c = false ∧ c ≠ '"' ∧ c ≠ '\'' := by
  cases cs with
  | nil =>
    rintro c ⟨⟩
    exact ⟨rfl, by decide, by decide⟩
  | cons c cs =>
    rw [writeUrl, List.flatMap_cons, writeUrlChar]
    split
    · rintro d ⟨⟩
      exact ⟨rfl, by decide, by decide⟩
    next hcontrol =>
    split
    · rintro d ⟨⟩
      exact ⟨rfl, by decide, by decide⟩
    · next hc =>
      rintro d ⟨⟩
      refine ⟨?_, fun hd => hc (by simp [hd]), fun hd => hc (by simp [hd])⟩
      rw [Bool.eq_false_iff, ne_eq, isSpace_iff]
      omega

/-! ## The start of a url -/

theorem readName_url (rest : List Char) :
    readName ('u' :: 'r' :: 'l' :: '(' :: rest) = (['u', 'r', 'l'], '(' :: rest) := by
  have hnul : nul ∉ ['u', 'r', 'l'] := by decide
  exact readName_writeName hnul (readName_of_endsName rfl)

theorem readToken_url (rest : List Char) :
    readToken 'u' ('r' :: 'l' :: '(' :: rest) =
      if quoteAhead rest then (.function "url", rest) else readUrl rest := by
  have hname : sameIgnoringCase (String.ofList ['u', 'r', 'l']) "url" = true := beq_self_eq_true _
  rw [readToken_of_startsName rfl rfl]
  cases hquote : quoteAhead rest with
  | true => exact readNamed_function (readName_url rest) fun _ => hquote
  | false =>
    simp only [readNamed, readName_url, hname, hquote]
    rfl

/-- What starts with neither a blank nor a quote is all of a url. -/
theorem quoteAhead_of_head {cs : List Char} (h : ∀ c ∈ cs.head?, isSpace c = false ∧ c ≠ '"' ∧ c ≠ '\'') :
    cs.dropWhile isSpace = cs ∧ quoteAhead cs = false := by
  have hdrop : cs.dropWhile isSpace = cs := by
    have := dropWhile_append_head (fun c hc => (h c hc).1) []
    rwa [List.nil_append, List.dropWhile_nil, List.nil_append] at this
  refine ⟨hdrop, ?_⟩
  rw [quoteAhead, hdrop, Option.any_eq_false]
  intro c hc
  obtain ⟨-, hdouble, hsingle⟩ := h c hc
  simp [hdouble, hsingle]

theorem readsBack_url {value : String} (hnul : nul ∉ value.toList) (rest : List Char) : (url value).ReadsBack rest := by
  obtain ⟨hdrop, hquote⟩ := quoteAhead_of_head (head_writeUrl value.toList rest)
  refine ⟨'u', 'r' :: 'l' :: '(' :: writeUrl value.toList ++ [')'], rfl, ?_⟩
  simp only [List.cons_append, List.append_assoc, List.nil_append]
  rw [readToken_url, hquote, readUrl, hdrop, readUrlBody_writeUrl hnul]
  simp

/-! ## Spoilt urls -/

/-- A spoilt url ends at a bracket, and would there before any text, or goes on to the end. -/
theorem readSpoilt_cases (cs : List Char) :
    (cs = (readSpoilt cs).1 ++ ')' :: (readSpoilt cs).2 ∧
        ∀ v, readSpoilt ((readSpoilt cs).1 ++ ')' :: v) = ((readSpoilt cs).1, v)) ∨
      readSpoilt cs = (cs, []) := by
  fun_induction readSpoilt cs with
  | case1 => exact .inr rfl
  | case2 rest => exact .inl ⟨rfl, fun _ => rfl⟩
  | case3 rest ih | case4 rest ih =>
    rcases ih with ⟨hcs, hend⟩ | hall
    · refine .inl ⟨by rw [List.cons_append, List.cons_append, ← hcs], fun v => ?_⟩
      rw [List.cons_append, List.cons_append, readSpoilt, hend]
    · exact .inr (by rw [hall])
  | case5 c rest hclose hescaped hslash ih =>
    have hc : c ≠ ')' := fun h => hclose h
    have hnext : c = '\\' → rest.head? ≠ some ')' ∧ rest.head? ≠ some '\\' := by
      intro hc
      constructor
      · intro h
        obtain ⟨tail, htail⟩ := List.head?_eq_some_iff.1 h
        exact hescaped tail hc htail
      · intro h
        obtain ⟨tail, htail⟩ := List.head?_eq_some_iff.1 h
        exact hslash tail hc htail
    rcases ih with ⟨hcs, hend⟩ | hall
    · refine .inl ⟨by rw [List.cons_append, ← hcs], fun v => ?_⟩
      -- the bracket after the url comes where the one in the text did
      have hhead : ((readSpoilt rest).1 ++ ')' :: v).head? = rest.head? := by
        refine .trans ?_ (congrArg List.head? hcs).symm
        cases (readSpoilt rest).1 <;> rfl
      rw [List.cons_append, readSpoilt_cons hc (by rwa [hhead]), hend]
    · exact .inr (by rw [hall])

section Spoilt

variable {cs : List Char} {raw : String}

theorem readUrlEnd_append_of_false (h : (readUrlEnd cs).1 = false) (v : List Char) :
    readUrlEnd (cs ++ v) = (false, (readUrlEnd cs).2 ++ v) := by
  fun_induction readUrlEnd cs with
  | case1 => cases h
  | case2 => cases h
  | case3 c rest hc hspace ih => exact (readUrlEnd_space hc hspace (rest ++ v)).trans (ih h)
  | case4 c rest hc hspace => exact readUrlEnd_cons hc (Bool.not_eq_true _ |>.mp hspace) (rest ++ v)

/-- The text of a url that is spoilt already is spoilt at the same place with more after it. -/
theorem readUrlBody_append_of_none (h : (readUrlBody cs).1 = none) (v : List Char) :
    readUrlBody (cs ++ v) = (none, (readUrlBody cs).2 ++ v) := by
  fun_induction readUrlBody cs with
  | case1 => cases h
  | case2 => cases h
  | case3 c rest hc hspace _ =>
    have hend : (readUrlEnd rest).1 = false := by
      cases hend : (readUrlEnd rest).1 with
      | false => rfl
      | true =>
        dsimp only at h
        rw [hend, if_pos rfl] at h
        cases h
    rw [List.cons_append, readUrlBody_space hc hspace, readUrlEnd_append_of_false hend]
    rfl
  | case4 c rest hc hspace hspoils =>
    exact readUrlBody_spoilt hc (Bool.not_eq_true _ |>.mp hspace) hspoils (rest ++ v)
  | case5 rest hline _ _ _ =>
    exact readUrlBody_newline ((atNewline_append_of_ne (ne_nil_of_atNewline hline) v).trans hline)
  | case6 rest hline escape _ body _ _ _ ih =>
    rw [Bool.not_eq_true] at hline
    have hnone : body.1 = none := Option.map_eq_none_iff.1 h
    -- the escape ends before what spoils the url
    have hleft : escape.2 ≠ [] := by
      intro hnil
      have hsome : body.1 = some [] := by
        show (readUrlBody escape.2).1 = some []
        rw [hnil, readUrlBody]
      rw [hnone] at hsome
      cases hsome
    have hrest := ne_nil_of_readEscape hleft
    rw [List.cons_append, readUrlBody_escape ((atNewline_append_of_ne hrest v).trans hline),
      settles_readEscape rest hleft, ih hnone]
    rfl
  | case7 c rest hc hspace hspoils hslash body ih =>
    rw [Bool.not_eq_true] at hspace hspoils
    have hnone : body.1 = none := Option.map_eq_none_iff.1 h
    rw [List.cons_append, readUrlBody_cons hc hspace hspoils hslash, ih hnone]
    rfl

/-- A spoilt url that goes on to the end of the text is ended by a bracket there, whatever comes next, or takes
it in. -/
theorem readSpoilt_append_close (h : readSpoilt cs = (cs, [])) :
    (∀ v, readSpoilt (cs ++ ')' :: v) = (cs, v)) ∨
      ∀ v, readSpoilt (cs ++ ')' :: v) = (cs ++ ')' :: (readSpoilt v).1, (readSpoilt v).2) := by
  fun_induction readSpoilt cs with
  | case1 => exact .inl fun _ => rfl
  | case2 => cases h
  | case3 rest ih | case4 rest ih =>
    have hrest : readSpoilt rest = (rest, []) := by
      obtain ⟨hall, hend⟩ := Prod.mk.inj h
      exact Prod.ext (List.cons.inj (List.cons.inj hall).2).2 hend
    rcases ih hrest with hstop | hmore
    · refine .inl fun v => ?_
      rw [List.cons_append, List.cons_append, readSpoilt, hstop]
    · refine .inr fun v => ?_
      rw [List.cons_append, List.cons_append, readSpoilt, hmore]
      rfl
  | case5 c rest hclose hescaped hslash ih =>
    have hrest : readSpoilt rest = (rest, []) := by
      obtain ⟨hall, hend⟩ := Prod.mk.inj h
      exact Prod.ext (List.cons.inj hall).2 hend
    by_cases hlast : c = '\\' ∧ rest = []
    · -- the bracket is escaped
      obtain ⟨rfl, rfl⟩ := hlast
      exact .inr fun _ => rfl
    have hcons (v : List Char) : readSpoilt (c :: rest ++ ')' :: v) =
        (c :: (readSpoilt (rest ++ ')' :: v)).1, (readSpoilt (rest ++ ')' :: v)).2) := by
      refine readSpoilt_cons (fun hc => hclose hc) fun hc => ?_
      cases rest with
      | nil => exact absurd ⟨hc, rfl⟩ hlast
      | cons d rest =>
        constructor
        · rintro ⟨⟩
          exact hescaped rest hc rfl
        · rintro ⟨⟩
          exact hslash rest hc rfl
    rcases ih hrest with hstop | hmore
    · exact .inl fun v => by rw [hcons, hstop]
    · exact .inr fun v => by rw [hcons, hmore]; rfl

theorem taken_append_self (u v : List Char) : taken (u ++ v) v = u := by
  rw [taken, List.length_append, Nat.add_sub_cancel, List.take_left]

/-- A spoilt url is what comes up to its bracket, or all that comes. -/
theorem exists_spoilt {r : List Char} (hquote : quoteAhead cs = false) (h : readUrl cs = (.badUrl raw, r)) :
    ∃ front left, readUrlBody (front ++ left) = (none, left) ∧ raw.toList = front ++ (readSpoilt left).1 ∧
      r = (readSpoilt left).2 ∧ ∀ c ∈ (front ++ left).head?, isSpace c = false ∧ c ≠ '"' ∧ c ≠ '\'' := by
  obtain ⟨value, hvalue⟩ : ∃ value, cs.dropWhile isSpace = value := ⟨_, rfl⟩
  rw [readUrl, hvalue] at h
  dsimp only at h
  split at h
  · cases h
  next hnone =>
  obtain ⟨hraw, hend⟩ := Prod.mk.inj h
  have hsplit : taken value (readUrlBody value).2 ++ (readUrlBody value).2 = value :=
    Lexeme.taken_append (readUrlBody_suffix value)
  refine ⟨taken value (readUrlBody value).2, (readUrlBody value).2, ?_, ?_, hend.symm, ?_⟩
  · rw [hsplit]
    exact Prod.ext hnone rfl
  · rw [← badUrl.inj hraw, String.toList_ofList]
  · intro c hc
    rw [hsplit] at hc
    have hspace := List.head?_dropWhile_not isSpace cs
    rw [hvalue, hc] at hspace
    rw [quoteAhead, hvalue, hc] at hquote
    exact ⟨by simpa using hspace, by simpa using hquote⟩

/-- What a spoilt url starts with comes first where it is written again, or its bracket does. -/
theorem head_again {cs front left : List Char} (h : cs = front ++ (readSpoilt left).1)
    (hhead : ∀ c ∈ (front ++ left).head?, isSpace c = false ∧ c ≠ '"' ∧ c ≠ '\'') (v : List Char) :
    ∀ c ∈ (cs ++ ')' :: v).head?, isSpace c = false ∧ c ≠ '"' ∧ c ≠ '\'' := by
  have hfront : cs <+: front ++ left := by
    rw [h, List.prefix_append_right_inj]
    rcases readSpoilt_cases left with ⟨hclosed, -⟩ | hall
    · exact ⟨_, hclosed.symm⟩
    · exact ⟨[], by rw [hall, List.append_nil]⟩
  obtain ⟨tail, htail⟩ := hfront
  rw [← htail] at hhead
  cases cs with
  | nil =>
    rintro c ⟨⟩
    exact ⟨rfl, by decide, by decide⟩
  | cons d u => exact hhead

/-- A spoilt url that is written again ends at the bracket written after it, whatever comes next, or goes on past
it, and then it was the last of its text. -/
theorem readUrl_again {r : List Char} (hquote : quoteAhead cs = false) (h : readUrl cs = (.badUrl raw, r)) :
    (∀ v, quoteAhead (raw.toList ++ ')' :: v) = false) ∧
      ((∀ v, readUrl (raw.toList ++ ')' :: v) = (.badUrl raw, v)) ∨
        r = [] ∧ ∀ v, readUrl (raw.toList ++ ')' :: v) =
          (.badUrl (String.ofList (raw.toList ++ ')' :: (readSpoilt v).1)), (readSpoilt v).2)) := by
  obtain ⟨front, left, hbody, hraw, rfl, hhead⟩ := exists_spoilt hquote h
  have hspoilt := readSpoilt_cases left
  have hwritten (v : List Char) := quoteAhead_of_head (head_again hraw hhead v)
  have hread {v x y q : List Char} (hbody : readUrlBody (raw.toList ++ ')' :: v) = (none, x))
      (hspoilt : readSpoilt x = (y, q)) :
      readUrl (raw.toList ++ ')' :: v) = (.badUrl (String.ofList (taken (raw.toList ++ ')' :: v) x ++ y)), q) := by
    simp only [readUrl, (hwritten v).1, hbody, hspoilt]
  refine ⟨fun v => (hwritten v).2, ?_⟩
  rcases hspoilt with ⟨hclosed, hstop⟩ | hall
  · -- the url ends at a bracket, and so it does at any
    refine .inl fun v => ?_
    have hstop' (v : List Char) : AtStop (')' :: v) := Parted.atStop_cons (.inl rfl) v
    have hbody' : readUrlBody (raw.toList ++ ')' :: (readSpoilt left).2) =
        (none, (readSpoilt left).1 ++ ')' :: (readSpoilt left).2) := by
      rw [hraw, List.append_assoc, ← hclosed, hbody]
    have hbody := (parted_readUrlBody raw.toList).eq (hstop' _) (List.cons_ne_nil _ _) hbody' (hstop' v)
    rw [hread hbody (hstop v), hraw, List.append_assoc, taken_append_self, ← hraw, String.ofList_toList]
  · rw [hall] at hraw ⊢
    have hbody (v : List Char) : readUrlBody (raw.toList ++ ')' :: v) = (none, left ++ ')' :: v) := by
      have := readUrlBody_append_of_none (congrArg Prod.fst hbody) (')' :: v)
      rwa [hbody, ← hraw] at this
    have htaken (v : List Char) : taken (raw.toList ++ ')' :: v) (left ++ ')' :: v) = front := by
      rw [hraw, List.append_assoc, taken_append_self]
    rcases readSpoilt_append_close hall with hstop | hmore
    · exact .inl fun v => by rw [hread (hbody v) (hstop v), htaken, ← hraw, String.ofList_toList]
    · exact .inr ⟨rfl, fun v => by rw [hread (hbody v) (hmore v), htaken, hraw, List.append_assoc]⟩

/-! ## Spoilt urls of a text -/

/-- Whether a spoilt url goes on past the bracket that is written after it. -/
def Overruns (raw : List Char) : Prop :=
  ∀ v, readToken 'u' ('r' :: 'l' :: '(' :: (raw ++ ')' :: v)) =
    (.badUrl (String.ofList (raw ++ ')' :: (readSpoilt v).1)), (readSpoilt v).2)

/-- What becomes of a spoilt url that is written again. -/
def EndsUrl : Token → List Token → Prop
  | .badUrl raw, rest => ofChars (badUrl raw).text = [.badUrl raw] ∨ rest = [] ∧ Overruns raw.toList
  | _, _ => True

theorem text_badUrl (raw : String) : (badUrl raw).text = 'u' :: 'r' :: 'l' :: '(' :: (raw.toList ++ [')']) := rfl

/-- A spoilt url that reads back by itself does so in front of anything. -/
theorem readsBack_badUrl (h : ofChars (badUrl raw).text = [.badUrl raw]) (rest : List Char) :
    (badUrl raw).ReadsBack rest := by
  rw [text_badUrl, ofChars_cons, readToken_url] at h
  obtain ⟨htoken, hrest⟩ := List.cons.inj h
  have hquote : quoteAhead (raw.toList ++ [')']) = false := by
    cases hquote : quoteAhead (raw.toList ++ [')']) with
    | false => rfl
    | true =>
      rw [hquote, if_pos rfl] at htoken
      cases htoken
  rw [hquote, if_neg Bool.false_ne_true] at htoken hrest
  have hread : readUrl (raw.toList ++ [')']) = (.badUrl raw, []) := Prod.ext htoken (eq_nil_of_ofChars hrest)
  obtain ⟨hahead, hends | ⟨-, hmore⟩⟩ := readUrl_again hquote hread
  · refine ⟨'u', 'r' :: 'l' :: '(' :: (raw.toList ++ [')']), rfl, ?_⟩
    simp only [List.cons_append, List.append_assoc, List.nil_append]
    rw [readToken_url, hahead, if_neg Bool.false_ne_true, hends]
  · -- it would have one bracket more
    rw [hmore] at hread
    have hlength := congrArg (fun t => t.1.text.length) hread
    simp [text, readSpoilt] at hlength

theorem endsUrl_readUrl {r : List Char} (hquote : quoteAhead cs = false) (h : readUrl cs = (.badUrl raw, r)) :
    ofChars (badUrl raw).text = [.badUrl raw] ∨ r = [] ∧ Overruns raw.toList := by
  obtain ⟨hahead, hends | ⟨hnil, hmore⟩⟩ := readUrl_again hquote h
  · left
    rw [text_badUrl, ofChars_cons, readToken_url, hahead, if_neg Bool.false_ne_true, hends, ofChars_nil]
  · refine .inr ⟨hnil, fun v => ?_⟩
    rw [readToken_url, hahead, if_neg Bool.false_ne_true, hmore]

theorem exists_readUrl {c : Char} {rest : List Char} (h : (readToken c rest).1 = .badUrl raw) :
    ∃ cs, quoteAhead cs = false ∧ readUrl cs = (.badUrl raw, (readToken c rest).2) := by
  have hsymbol : (readSymbol c rest).1 ≠ .badUrl raw := by
    have hhash : (readHash rest).1 ≠ .badUrl raw := by
      unfold readHash
      repeat' split
      all_goals exact nofun
    unfold readSymbol
    split
    · split <;> exact nofun
    · exact nofun
    · exact nofun
    · repeat' split
      all_goals first | exact hhash | exact nofun
  unfold readToken at h ⊢
  split at h
  · cases h
  split at h
  · exfalso
    unfold readString at h
    dsimp only at h
    split at h <;> cases h
  split at h
  · exfalso
    unfold readNumeric at h
    dsimp only at h
    split at h
    · cases h
    · split at h <;> cases h
  split at h
  · cases h
  split at h
  · next hspace hstring hnumber hclose hname =>
    rw [if_neg hspace, if_neg hstring, if_neg hnumber, if_neg hclose, if_pos hname]
    unfold readNamed at h ⊢
    dsimp only at h ⊢
    split at h
    · next more _ =>
      split at h
      · next hurl =>
        rw [if_pos hurl]
        refine ⟨more, ?_, Prod.ext h rfl⟩
        rw [Bool.and_eq_true, Bool.not_eq_true'] at hurl
        exact hurl.2
      · cases h
    · cases h
  · exact absurd h hsymbol

theorem endsUrl_ofChars (cs : List Char) : Everywhere EndsUrl (ofChars cs) := by
  rw [ofChars]
  fun_induction Lexeme.ofChars cs with
  | case1 => trivial
  | case2 c rest read _ ih =>
    refine ⟨?_, ih⟩
    show EndsUrl (readToken c rest).1 (ofChars (readToken c rest).2)
    cases htoken : (readToken c rest).1 with
    | badUrl raw =>
      obtain ⟨cs, hquote, hread⟩ := exists_readUrl htoken
      rcases endsUrl_readUrl hquote hread with halone | ⟨hnil, hmore⟩
      · exact .inl halone
      · refine .inr ⟨?_, hmore⟩
        rw [hnil, ofChars_nil]
    | _ => trivial

end Spoilt

end StyleSelectors.Token
