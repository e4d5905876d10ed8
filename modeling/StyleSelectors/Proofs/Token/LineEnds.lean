/-
No token ends between a CR and its LF. Whatever a reader takes, it leaves an LF ahead only if the last
character that it took is no CR (`unparted_readToken`); so line ends are the same whether a text is
read at once or token by token (`Lexeme.unparted_ofChars`).
-/
import StyleSelectors.Proofs.Token.Stop

namespace StyleSelectors

namespace Token

open Text Numeric

/-- Whether `rest` is left of a text by taking something off its front, and no CR without its LF. -/
def Unparted (cs rest : List Char) : Prop :=
  ∃ front, front ++ rest = cs ∧ ¬ (front.getLast? = some '\r' ∧ rest.head? = some '\n')

namespace Unparted

variable {c : Char} {cs mid rest xs : List Char}

theorem refl (cs : List Char) : Unparted cs cs := ⟨[], rfl, fun h => nomatch h.1⟩

theorem cons (h : c ≠ '\r') (rest : List Char) : Unparted (c :: rest) rest :=
  ⟨[c], rfl, fun hparted => h (Option.some.inj hparted.1)⟩

theorem trans (h : Unparted cs mid) (h' : Unparted mid rest) : Unparted cs rest := by
  obtain ⟨front, rfl, hfront⟩ := h
  obtain ⟨back, rfl, hback⟩ := h'
  refine ⟨front ++ back, List.append_assoc .., ?_⟩
  cases back with
  | nil => simpa using hfront
  | cons d back => simpa [List.getLast?_append, List.getLast?_cons] using hback

theorem of_head? (h : rest <:+ cs) (hhead : rest.head? ≠ some '\n') : Unparted cs rest := by
  obtain ⟨front, rfl⟩ := h
  exact ⟨front, rfl, fun hparted => hhead hparted.2⟩

theorem nil (cs : List Char) : Unparted cs [] := of_head? List.nil_suffix nofun

/-- Something without a CR has been taken off. -/
theorem drop (h : xs <+: cs) (hxs : '\r' ∉ xs) : Unparted cs (cs.drop xs.length) := by
  obtain ⟨rest, rfl⟩ := h
  rw [List.drop_left]
  exact ⟨xs, rfl, fun hparted => hxs (List.mem_of_getLast? hparted.1)⟩

theorem dropWhile {p : Char → Bool} (hp : p '\r' = false) (cs : List Char) : Unparted cs (cs.dropWhile p) := by
  refine ⟨cs.takeWhile p, List.takeWhile_append_dropWhile, fun hparted => ?_⟩
  have hcr := List.all_eq_true.1 List.all_takeWhile _ (List.mem_of_getLast? hparted.1)
  rw [hp] at hcr
  cases hcr

/-- What is left starts with no blank, and so with no LF. -/
theorem dropSpaces (cs : List Char) : Unparted cs (cs.dropWhile isSpace) := by
  refine of_head? (List.dropWhile_suffix _) fun hhead => ?_
  have hnot := List.head?_dropWhile_not isSpace cs
  rw [hhead] at hnot
  exact absurd hnot (by decide)

end Unparted

/-! ## Names, strings and urls -/

theorem ne_cr_of_not_isNewline {c : Char} (h : ¬ isNewline c = true) : c ≠ '\r' := by
  rintro rfl
  exact h rfl

theorem unparted_dropSpace (cs : List Char) : Unparted cs (dropSpace cs) := by
  cases cs with
  | nil => exact .refl _
  | cons c rest =>
    by_cases hline : c = '\r' ∧ rest.head? = some '\n'
    · obtain ⟨rfl, hrest⟩ := hline
      obtain ⟨tail, rfl⟩ := List.head?_eq_some_iff.1 hrest
      exact ⟨['\r', '\n'], rfl, by simp⟩
    · rw [dropSpace_cons hline]
      split
      · exact ⟨[c], rfl, fun hparted => hline ⟨Option.some.inj hparted.1, hparted.2⟩⟩
      · exact .refl _

theorem unparted_readEscape {cs : List Char} (h : ¬ atNewline cs = true) : Unparted cs (readEscape cs).2 := by
  cases cs with
  | nil => exact .refl _
  | cons c rest =>
    have hc : c ≠ '\r' := ne_cr_of_not_isNewline h
    rw [readEscape]
    split
    · have hprefix : (rest.take 5).takeWhile isHexDigit <+: rest :=
        (List.takeWhile_prefix _).trans (List.take_prefix _ _)
      have hdigits : '\r' ∉ (rest.take 5).takeWhile isHexDigit := fun hmem => by
        cases List.all_eq_true.1 List.all_takeWhile _ hmem
      exact ((Unparted.cons hc rest).trans (.drop hprefix hdigits)).trans (unparted_dropSpace _)
    · exact .cons hc rest

theorem unparted_readName (cs : List Char) : Unparted cs (readName cs).2 := by
  fun_induction readName cs with
  | case1 => exact .refl _
  | case2 => exact .refl _
  | case3 rest h _ _ _ ih => exact ((Unparted.cons (by decide) rest).trans (unparted_readEscape h)).trans ih
  | case4 c rest _ hc _ ih =>
    have hcr : c ≠ '\r' := by
      rintro rfl
      cases hc
    exact (Unparted.cons hcr rest).trans ih
  | case5 => exact .refl _

theorem unparted_readQuoted {quote : Char} (hquote : quote ≠ '\r') (cs : List Char) :
    Unparted cs (readQuoted quote cs).2 := by
  fun_induction readQuoted quote cs with
  | case1 => exact .refl _
  | case2 rest => exact .cons hquote rest
  | case3 => exact .refl _
  | case4 => exact .nil _
  | case5 rest _ _ _ _ _ ih => exact ((Unparted.cons (by decide) rest).trans (unparted_dropSpace rest)).trans ih
  | case6 rest _ h _ _ _ _ _ ih => exact ((Unparted.cons (by decide) rest).trans (unparted_readEscape h)).trans ih
  | case7 c rest _ h _ _ ih => exact (Unparted.cons (ne_cr_of_not_isNewline h) rest).trans ih

/-- Whether nothing is left, or what is left comes after a character that is no CR. -/
def Ended (cs rest : List Char) : Prop := rest = [] ∨ ∃ front c, front ++ c :: rest = cs ∧ c ≠ '\r'

theorem Ended.cons {cs rest : List Char} (h : Ended cs rest) (c : Char) : Ended (c :: cs) rest := by
  rcases h with rfl | ⟨front, d, rfl, hd⟩
  · exact .inl rfl
  · exact .inr ⟨c :: front, d, rfl, hd⟩

theorem Ended.unparted {cs rest : List Char} (h : Ended cs rest) : Unparted cs rest := by
  rcases h with rfl | ⟨front, c, rfl, hc⟩
  · exact .nil cs
  · exact ⟨front ++ [c], by simp, fun hparted => hc (by simpa using hparted.1)⟩

theorem ended_readUrlEnd (cs : List Char) : Ended cs (readUrlEnd cs).2 := by
  fun_induction readUrlEnd cs with
  | case1 => exact .inl rfl
  | case2 rest => exact .inr ⟨[], ')', rfl, by decide⟩
  | case3 c rest _ _ ih => exact ih.cons c
  | case4 c rest _ hc =>
    refine .inr ⟨[], c, rfl, ?_⟩
    rintro rfl
    exact hc rfl

theorem ended_readSpoilt (cs : List Char) : Ended cs (readSpoilt cs).2 := by
  fun_induction readSpoilt cs with
  | case1 => exact .inl rfl
  | case2 rest => exact .inr ⟨[], ')', rfl, by decide⟩
  | case3 _ ih => exact (ih.cons _).cons _
  | case4 _ ih => exact (ih.cons _).cons _
  | case5 c _ _ _ _ ih => exact ih.cons c

theorem ended_readComment (cs : List Char) : Ended cs (readComment cs).2 := by
  fun_induction readComment cs with
  | case1 => exact .inl rfl
  | case2 rest => exact .inr ⟨['*'], '/', rfl, by decide⟩
  | case3 c _ _ ih => exact ih.cons c

theorem ne_cr_of_not_isSpace {c : Char} (h : ¬ isSpace c = true) : c ≠ '\r' := by
  rintro rfl
  exact h rfl

theorem unparted_readUrlBody (cs : List Char) : Unparted cs (readUrlBody cs).2 := by
  fun_induction readUrlBody cs with
  | case1 => exact .refl _
  | case2 rest => exact .cons (by decide) rest
  | case3 c rest => exact ((ended_readUrlEnd rest).cons c).unparted
  | case4 c rest _ h => exact .cons (ne_cr_of_not_isSpace h) rest
  | case5 rest => exact .cons (by decide) rest
  | case6 rest h _ _ _ _ _ _ ih => exact ((Unparted.cons (by decide) rest).trans (unparted_readEscape h)).trans ih
  | case7 c rest _ h _ _ _ ih => exact (Unparted.cons (ne_cr_of_not_isSpace h) rest).trans ih

theorem unparted_readUrl (cs : List Char) : Unparted cs (readUrl cs).2 := by
  have hbody := (Unparted.dropSpaces cs).trans (unparted_readUrlBody _)
  unfold readUrl
  dsimp only
  split
  · exact hbody
  · exact hbody.trans (ended_readSpoilt _).unparted

theorem unparted_readNamed (cs : List Char) : Unparted cs (readNamed cs).2 := by
  have hname := unparted_readName cs
  unfold readNamed
  dsimp only
  split
  · next rest heq =>
    rw [heq] at hname
    have hrest := hname.trans (.cons (by decide) rest)
    split
    · exact hrest.trans (unparted_readUrl rest)
    · exact hrest
  · exact hname

/-! ## Numbers -/

theorem unparted_readDigits (cs : List Char) : Unparted cs (readDigits cs).2 := .dropWhile rfl cs

theorem unparted_readSign (cs : List Char) : Unparted cs (readSign cs).2 := by
  unfold readSign
  split
  · next c rest =>
    split
    · next hsign =>
      refine .cons ?_ rest
      rintro rfl
      cases hsign
    · exact .refl _
  · exact .refl _

theorem unparted_readFraction (cs : List Char) : Unparted cs (readFraction cs).2 := by
  unfold readFraction
  split
  · next c rest =>
    split
    · exact (Unparted.cons (by decide) (c :: rest)).trans (unparted_readDigits _)
    · exact .refl _
  · exact .refl _

theorem unparted_readPower (cs : List Char) : Unparted cs (readPower cs).2 := by
  unfold readPower
  split
  · next c rest =>
    dsimp only
    split
    · next hpower =>
      have hc : c ≠ '\r' := by
        rintro rfl
        cases hpower
      exact ((Unparted.cons hc rest).trans (unparted_readSign rest)).trans (unparted_readDigits _)
    · exact .refl _
  · exact .refl _

theorem unparted_read (cs : List Char) : Unparted cs (Literal.read cs).2 :=
  (((unparted_readSign cs).trans (unparted_readDigits _)).trans (unparted_readFraction _)).trans (unparted_readPower _)

theorem unparted_readNumeric (cs : List Char) : Unparted cs (readNumeric cs).2 := by
  have hread := unparted_read cs
  unfold readNumeric
  dsimp only
  split
  · next rest heq =>
    rw [heq] at hread
    exact hread.trans (.cons (by decide) rest)
  · split
    · exact hread.trans (unparted_readName _)
    · exact hread

/-! ## Any token -/

theorem unparted_readHash (rest : List Char) : Unparted rest (readHash rest).2 := by
  unfold readHash
  split
  · exact unparted_readName rest
  · split
    · exact unparted_readName rest
    · exact .refl _

theorem unparted_readSymbol {c : Char} (hc : c ≠ '\r') (rest : List Char) :
    Unparted (c :: rest) (readSymbol c rest).2 := by
  have hfirst : Unparted (c :: rest) rest := .cons hc rest
  unfold readSymbol
  split
  · split
    · next hhead =>
      obtain ⟨tail, rfl⟩ := List.head?_eq_some_iff.1 hhead
      exact hfirst.trans (.cons (by decide) tail)
    · exact hfirst
  · exact hfirst
  · exact hfirst
  · repeat' split
    · exact hfirst
    · exact hfirst
    · exact hfirst
    · next h => exact hfirst.trans (.drop h.2 (by decide))
    · next h => exact (hfirst.trans (.drop h.2 (by decide))).trans (ended_readComment _).unparted
    · exact hfirst.trans (unparted_readHash rest)
    · exact hfirst.trans (unparted_readName rest)
    · exact hfirst

/-- No token ends between a CR and its LF. -/
theorem unparted_readToken (c : Char) (rest : List Char) : Unparted (c :: rest) (readToken c rest).2 := by
  unfold readToken
  split
  · exact .dropSpaces _
  next hspace =>
  have hfirst : Unparted (c :: rest) rest := .cons (ne_cr_of_not_isSpace hspace) rest
  split
  · next hquote =>
    refine hfirst.trans (unparted_readQuoted ?_ rest)
    rcases hquote with rfl | rfl <;> decide
  split
  · exact unparted_readNumeric _
  split
  · next h => exact hfirst.trans (.drop h.2 (by decide))
  split
  · exact unparted_readNamed _
  · exact unparted_readSymbol (ne_cr_of_not_isSpace hspace) rest

end Token

namespace Lexeme

/-- No cut between lexemes parts a CR from its LF. -/
theorem unparted_ofChars {cs : List Char} {front back : List Lexeme} (h : ofChars cs = front ++ back) :
    ¬ ((chars front).getLast? = some '\r' ∧ (chars back).head? = some '\n') := by
  fun_induction ofChars cs generalizing front with
  | case1 =>
    obtain ⟨rfl, -⟩ := List.nil_eq_append_iff.1 h
    exact fun hparted => Option.some_ne_none _ hparted.1.symm
  | case2 c rest read _ =>
    rename_i ih
    cases front with
    | nil => exact fun hparted => Option.some_ne_none _ hparted.1.symm
    | cons x front =>
      obtain ⟨rfl, hback⟩ := List.cons.inj h
      have hread : chars front ++ chars back = read.2 :=
        List.flatMap_append.symm.trans ((congrArg chars hback).symm.trans (chars_ofChars read.2))
      rw [chars, List.flatMap_cons, ← chars, List.getLast?_append]
      cases hfront : chars front with
      | cons d ds =>
        have hih := ih hback
        rw [hfront] at hih
        simpa [List.getLast?_cons] using hih
      | nil =>
        -- the cut is right after the first lexeme, or after others without text
        obtain ⟨taken, htaken, hunparted⟩ := Token.unparted_readToken c rest
        rw [hfront, List.nil_append] at hread
        have hsuffix := (Token.readToken_suffix c rest).trans (List.suffix_cons c rest)
        have heq : taken = Token.taken (c :: rest) read.2 :=
          List.append_cancel_right (htaken.trans (taken_append hsuffix).symm)
        rw [hread, ← heq]
        simpa using hunparted

end Lexeme

end StyleSelectors
