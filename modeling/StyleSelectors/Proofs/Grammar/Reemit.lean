/-
Arguments that are written again and again. `reemit` writes the tokens of a text with its blocks closed, as
the arguments of a function are written. Where a text has no number, one round gives a text that the next ones
change in one way only: a comment with a star right after it is kept apart from the star by one more comment
each time (`length_reemit_iterate`). A spoilt url that the text cuts off grows as well
(`length_lt_of_overruns`), and there is nothing else: `reemit_reemit_iff`.
-/
import StyleSelectors.Proofs.Component.Closers
import StyleSelectors.Proofs.Grammar.Arguments
import StyleSelectors.Proofs.Token.Rereads
import Mathlib.Logic.Function.Iterate

namespace StyleSelectors

open Token

/-- The text of a text's tokens, with all blocks closed. -/
def reemit (text : String) : String := render (closedTokens text)

namespace Token

/-- Tokens, and those that close what they leave open. -/
def closed (ts : List Token) : List Token := ts ++ (unclosed ts).map .closing

/-! ## Brackets -/

theorem foldl_openAfter_closing (brackets : List Bracket) : (brackets.map closing).foldl openAfter brackets = [] := by
  induction brackets with
  | nil => rfl
  | cons b bs ih => rw [List.map_cons, List.foldl_cons, openAfter_closing rfl, ih]

theorem unclosed_closed (ts : List Token) : unclosed (closed ts) = [] := by
  rw [unclosed, closed, List.foldl_append]
  exact foldl_openAfter_closing (unclosed ts)

/-- A token closes one bracket at most. -/
theorem length_le_openAfter (brackets : List Bracket) (t : Token) :
    brackets.length ≤ (openAfter brackets t).length + 1 := by
  unfold openAfter
  split
  · rw [List.length_cons]
    omega
  · split
    · rw [List.length_tail]
      omega
    · exact Nat.le_succ _
  · exact Nat.le_succ _

theorem length_le_foldl_openAfter (brackets : List Bracket) (ts : List Token) :
    brackets.length ≤ (ts.foldl openAfter brackets).length + ts.length := by
  induction ts generalizing brackets with
  | nil => exact Nat.le_refl _
  | cons t ts ih =>
    have hone := length_le_openAfter brackets t
    have hrest := ih (openAfter brackets t)
    rw [List.foldl_cons, List.length_cons]
    omega

/-- Comments in between open and close nothing. -/
theorem exists_woven_append (us ws : List Token) :
    ∃ front, woven (us ++ ws) = front ++ woven ws ∧ (∀ t ∈ front, t ∈ us ∨ t = .comment "") ∧
      ∀ brackets, front.foldl openAfter brackets = us.foldl openAfter brackets := by
  induction us with
  | nil => exact ⟨[], rfl, List.forall_mem_nil _, fun _ => rfl⟩
  | cons t us ih =>
    obtain ⟨front, hfront, hmem, hopen⟩ := ih
    refine ⟨t :: (between [t] (us ++ ws) ++ front), ?_, ?_, fun brackets => ?_⟩
    · rw [List.cons_append, woven, hfront, List.cons_append, List.append_assoc]
    · rintro u (_ | ⟨_, hu⟩)
      · exact .inl (List.mem_cons_self ..)
      · rcases List.mem_append.1 hu with hu | hu
        · exact .inr (mem_between hu)
        · exact (hmem u hu).imp_left (List.mem_cons_of_mem t)
    · rw [List.foldl_cons, List.foldl_cons, List.foldl_append, hopen]
      congr 1
      rcases between_cases t (us ++ ws) with ⟨hnone, -⟩ | ⟨hone, -⟩
      · rw [hnone]; rfl
      · rw [hone]; rfl

theorem unclosed_woven (ts : List Token) : unclosed (woven ts) = unclosed ts := by
  obtain ⟨front, hfront, -, hopen⟩ := exists_woven_append ts []
  rw [List.append_nil] at hfront
  rw [hfront, woven, List.append_nil]
  exact hopen []

theorem woven_closing (bs : List Bracket) : woven (bs.map closing) = bs.map closing := by
  induction bs with
  | nil => rfl
  | cons b bs ih => rw [List.map_cons, woven_cons (fun _ => rfl), ih]

theorem Undashed.foldl_openAfter {t : Token} {left : List Token} (h : Undashed t left) (brackets : List Bracket) :
    left.foldl openAfter brackets = openAfter brackets t := by
  cases h <;> rfl

theorem Rereads.foldl_openAfter {us vs : List Token} (h : Rereads us vs) (brackets : List Bracket) :
    vs.foldl openAfter brackets = us.foldl openAfter brackets := by
  induction h generalizing brackets with
  | nil => rfl
  | cons t _ ih => exact ih _
  | close _ ih => exact ih _
  | opened hleft _ ih =>
    refine (ih _).trans ?_
    rw [List.foldl_append, hleft.foldl_openAfter]
    rfl

/-! ## One round -/

/-- Tokens of a text without numbers, where no start of markup comes up. -/
structure Numberless (ts : List Token) : Prop where
  fits : Everywhere Fits ts
  number : ∀ t ∈ ts, t.isNumeric = false
  markup : Everywhere KeepsMarkup ts

/-- Such tokens, where every spoilt url ends at the bracket written after it. -/
structure Settled (ts : List Token) : Prop extends Numberless ts where
  url : ∀ raw, .badUrl raw ∈ ts → ofChars (badUrl raw).text = [.badUrl raw]

theorem starredComments_closed (ts : List Token) : starredComments (closed ts) = starredComments ts := by
  have hclosing (bs : List Bracket) : starredComments (bs.map closing) = 0 := by
    induction bs with
    | nil => rfl
    | cons b bs ih => exact (starredComments_cons rfl _).trans ih
  rw [closed]
  generalize unclosed ts = bs
  induction ts with
  | nil => exact hclosing bs
  | cons t rest ih =>
    have hstar : (rest ++ bs.map closing).head?.any isStar = rest.head?.any isStar := by
      cases rest with
      | nil => cases bs <;> rfl
      | cons next rest => rfl
    rw [List.cons_append, starredComments, starredComments, ih, hstar]

section Round

variable {ts : List Token}

theorem Numberless.stands (h : Numberless ts) : Everywhere Stands (woven ts) :=
  stands_woven h.fits h.number h.markup

theorem Numberless.closed (h : Numberless ts) : Numberless (closed ts) where
  fits := fits_append_closing h.fits _
  number t ht := by
    rcases List.mem_append.1 ht with ht | ht
    · exact h.number t ht
    · obtain ⟨b, -, rfl⟩ := List.mem_map.1 ht
      rfl
  markup := keepsMarkup_append_closing h.markup _

theorem Settled.closed (h : Settled ts) : Settled (closed ts) where
  toNumberless := h.toNumberless.closed
  url raw hraw := by
    refine h.url raw ((List.mem_append.1 hraw).resolve_right fun hmem => ?_)
    obtain ⟨b, -, hb⟩ := List.mem_map.1 hmem
    cases hb

theorem ofChars_of_lexemes {cs : List Char} {xs : List Lexeme} (h : Lexeme.ofChars cs = ts.map lexeme ++ xs) :
    ofChars cs = ts ++ xs.map Lexeme.token := by
  rw [ofChars, h, List.map_append, List.map_map]
  congr 1
  exact List.map_id ts

/-- What is written of settled tokens reads as they do, with the comments in between. -/
theorem Settled.reads (h : Settled ts) :
    Lexeme.ofChars (serialize ts) = (ofChars (serialize ts)).map lexeme ∧
      Rereads (woven ts) (ofChars (serialize ts)) := by
  have hstands : Everywhere Stands (woven ts ++ []) := by
    rw [List.append_nil]
    exact h.stands
  have hurl (raw : String) (hraw : .badUrl raw ∈ woven ts) : ofChars (badUrl raw).text = [.badUrl raw] :=
    h.url raw ((mem_woven hraw).resolve_right nofun)
  have hend : ∀ next ∈ ([] : List Token).head?, ∃ raw, next = .badUrl raw := nofun
  obtain ⟨vs, hread, hvs⟩ := exists_rereads hend (woven ts) hstands hurl
  have hchars : Lexeme.ofChars (serialize ts) = vs.map lexeme := by
    rw [← plain_woven, ← List.append_nil (woven ts), hread, plain, List.flatMap_nil, Lexeme.ofChars, List.append_nil]
  have htokens : ofChars (serialize ts) = vs := by
    rw [ofChars_of_lexemes (hchars.trans (List.append_nil _).symm), List.map_nil, List.append_nil]
  rw [htokens]
  exact ⟨hchars, hvs⟩

theorem Settled.plain_ofChars (h : Settled ts) : plain (ofChars (serialize ts)) = serialize ts := by
  rw [h.reads.2.plain_eq, plain_woven]

theorem Settled.ofChars_serialize (h : Settled ts) : Settled (ofChars (serialize ts)) where
  fits := fits_ofChars _
  number t ht := by
    rcases h.reads.2.mem_or ht with ht | ⟨hnumber, -⟩
    · rcases mem_woven ht with ht | rfl
      · exact h.number t ht
      · rfl
    · exact hnumber
  markup := keepsMarkup_of_reads (by rw [h.plain_ofChars]; exact h.reads.1)
  url raw hraw := by
    rcases h.reads.2.mem_or hraw with hraw | ⟨-, hnew⟩
    · exact h.url raw ((mem_woven hraw).resolve_right nofun)
    · exact absurd rfl (hnew raw)

theorem Settled.starredComments_ofChars (h : Settled ts) :
    starredComments (ofChars (serialize ts)) = starredComments ts := by
  rw [h.reads.2.starredComments_eq, starredComments_woven h.fits]

theorem Settled.unclosed_ofChars (h : Settled ts) : unclosed (ofChars (serialize ts)) = unclosed ts := by
  rw [← unclosed_woven ts]
  exact h.reads.2.foldl_openAfter []

end Round

end Token

/-! ## Rounds -/

theorem toList_reemit (x : String) : (reemit x).toList = serialize (closed (Token.ofChars x.toList)) := by
  rw [reemit, render, String.toList_ofList, closedTokens, Component.tokensOf_ofChars, closed]

/-- Whether a text has all its blocks closed and is written as its tokens are, next to each other. -/
structure Steady (y : String) : Prop where
  settled : Settled (Token.ofChars y.toList)
  closed : unclosed (Token.ofChars y.toList) = []
  apart : Everywhere Apart (Token.ofChars y.toList)
  plain : plain (Token.ofChars y.toList) = y.toList

section Rounds

variable {x y : String}

theorem steady_reemit (h : Settled (Token.ofChars x.toList)) : Steady (reemit x) := by
  have hclosed := h.closed
  constructor
  case settled =>
    rw [toList_reemit]
    exact hclosed.ofChars_serialize
  case closed => rw [toList_reemit, hclosed.unclosed_ofChars, unclosed_closed]
  case apart =>
    rw [toList_reemit]
    exact hclosed.reads.2.apart (apart_woven _)
  case plain => rw [toList_reemit, hclosed.plain_ofChars]

theorem starredComments_reemit (h : Settled (Token.ofChars x.toList)) :
    starredComments (Token.ofChars (reemit x).toList) = starredComments (Token.ofChars x.toList) := by
  rw [toList_reemit, h.closed.starredComments_ofChars, starredComments_closed]

namespace Steady

theorem toList_reemit (h : Steady y) : (reemit y).toList = serialize (Token.ofChars y.toList) := by
  rw [StyleSelectors.toList_reemit, Token.closed, h.closed]
  exact congrArg serialize (List.append_nil _)

theorem length_reemit (h : Steady y) :
    (reemit y).length = y.length + 4 * starredComments (Token.ofChars y.toList) := by
  rw [← String.length_toList, h.toList_reemit, length_serialize, h.plain, runs_of_apart h.apart, String.length_toList]

theorem reemit_eq (h : Steady y) (hnone : starredComments (Token.ofChars y.toList) = 0) : reemit y = y := by
  rw [← String.toList_inj, h.toList_reemit, serialize_of_runs (by rw [runs_of_apart h.apart, hnone]), h.plain]

end Steady

/-- All rounds leave as many comments with a star right after them. -/
theorem steady_iterate (h : Settled (Token.ofChars x.toList)) (n : ℕ) :
    Steady (reemit^[n + 1] x) ∧
      starredComments (Token.ofChars (reemit^[n + 1] x).toList) = starredComments (Token.ofChars x.toList) := by
  induction n with
  | zero => exact ⟨steady_reemit h, starredComments_reemit h⟩
  | succ n ih =>
    rw [Function.iterate_succ_apply']
    exact ⟨steady_reemit ih.1.settled, (starredComments_reemit ih.1.settled).trans ih.2⟩

/-- From the first round on, each one writes one more comment for each that has a star right after it. -/
theorem length_reemit_iterate (h : Settled (Token.ofChars x.toList)) (n : ℕ) :
    (reemit^[n + 1] x).length = (reemit x).length + 4 * n * starredComments (Token.ofChars x.toList) := by
  induction n with
  | zero => rw [Nat.mul_zero, Nat.zero_mul]; rfl
  | succ n ih =>
    obtain ⟨hsteady, hstarred⟩ := steady_iterate h n
    rw [Function.iterate_succ_apply', hsteady.length_reemit, ih, hstarred, Nat.mul_succ, Nat.add_mul, Nat.add_assoc]

end Rounds

/-! ## Urls that are cut off -/

theorem ofChars_closing (bs : List Bracket) : Token.ofChars (plain (bs.map closing)) = bs.map closing := by
  induction bs with
  | nil => exact ofChars_nil
  | cons b bs ih =>
    rw [List.map_cons, plain_cons, Token.ofChars, Lexeme.ofChars_text (readsBack_closing b)]
    exact congrArg _ ih

theorem length_plain_closing (bs : List Bracket) : (plain (bs.map closing)).length = bs.length := by
  induction bs with
  | nil => rfl
  | cons b bs ih =>
    rw [List.map_cons, plain_cons, List.length_append, ih, List.length_cons]
    exact Nat.add_comm 1 bs.length

theorem exists_closing_of_suffix {bs : List Bracket} {q : List Char} (h : q <:+ plain (bs.map closing)) :
    ∃ ds : List Bracket, q = plain (ds.map closing) := by
  induction bs with
  | nil => exact ⟨[], List.suffix_nil.1 h⟩
  | cons b bs ih =>
    rcases List.suffix_cons_iff.1 (show q <:+ b.closeChar :: plain (bs.map closing) from h) with rfl | h
    · exact ⟨b :: bs, rfl⟩
    · exact ih h

theorem length_badUrl (raw : String) : (badUrl raw).text.length = raw.toList.length + 5 := by
  simp [text]

/-- A spoilt url that goes on past its bracket is the last of a text, and the only one. -/
theorem exists_overruns {ts : List Token} {raw : String} (h : Everywhere EndsUrl ts) (hmem : .badUrl raw ∈ ts)
    (halone : Token.ofChars (badUrl raw).text ≠ [.badUrl raw]) :
    ∃ front, ts = front ++ [.badUrl raw] ∧ Overruns raw.toList ∧
      ∀ raw, .badUrl raw ∈ front → Token.ofChars (badUrl raw).text = [.badUrl raw] := by
  induction ts with
  | nil => cases hmem
  | cons t rest ih =>
    obtain ⟨hends, hrest⟩ := h
    by_cases hlast : t = .badUrl raw ∧ rest = []
    · obtain ⟨rfl, rfl⟩ := hlast
      exact ⟨[], rfl, (hends.resolve_left halone).2, fun _ => nofun⟩
    · have hmem : .badUrl raw ∈ rest := by
        rcases List.mem_cons.1 hmem with rfl | hmem
        · exact absurd ⟨rfl, (hends.resolve_left halone).1⟩ hlast
        · exact hmem
      obtain ⟨front, rfl, hraw, hfront⟩ := ih hrest hmem
      refine ⟨t :: front, rfl, hraw, fun other hother => ?_⟩
      rcases List.mem_cons.1 hother with rfl | hother
      · exact hends.resolve_right fun hnil => List.append_ne_nil_of_right_ne_nil front (List.cons_ne_nil _ _) hnil.1
      · exact hfront other hother

/-- The bracket that is written after a spoilt url that was cut off is part of the url when it is read again. -/
theorem exists_overrun {front : List Token} {raw : String} {bs : List Bracket}
    (h : Everywhere Stands (woven (front ++ .badUrl raw :: bs.map closing))) (hraw : Overruns raw.toList)
    (hurl : ∀ raw, .badUrl raw ∈ front → Token.ofChars (badUrl raw).text = [.badUrl raw]) :
    ∃ vs more, ∃ ds : List Bracket,
      Token.ofChars (serialize (front ++ .badUrl raw :: bs.map closing)) =
          vs ++ .badUrl (String.ofList (raw.toList ++ ')' :: more)) :: ds.map closing ∧
        plain vs ++ plain (.badUrl raw :: bs.map closing) = serialize (front ++ .badUrl raw :: bs.map closing) ∧
        ∀ brackets, vs.foldl openAfter brackets = front.foldl openAfter brackets := by
  obtain ⟨us, hwoven, hmem, hopen⟩ := exists_woven_append front (.badUrl raw :: bs.map closing)
  rw [woven_cons (fun _ => rfl), woven_closing] at hwoven
  rw [← plain_woven, hwoven]
  rw [hwoven] at h
  have hnext : ∀ next ∈ (badUrl raw :: bs.map closing).head?, ∃ raw, next = .badUrl raw := by
    rintro next ⟨⟩
    exact ⟨raw, rfl⟩
  obtain ⟨vs, hread, hvs⟩ := exists_rereads hnext us h fun raw hus =>
    hurl raw ((hmem _ hus).resolve_right nofun)
  obtain ⟨ds, hds⟩ := exists_closing_of_suffix (readSpoilt_suffix (plain (bs.map closing)))
  have htext : plain (.badUrl raw :: bs.map closing) =
      'u' :: 'r' :: 'l' :: '(' :: (raw.toList ++ ')' :: plain (bs.map closing)) := by
    rw [plain_cons, text]
    simp
  obtain ⟨more, hmore⟩ : ∃ more, (readSpoilt (plain (bs.map closing))).1 = more := ⟨_, rfl⟩
  have hend : Token.ofChars (plain (.badUrl raw :: bs.map closing)) =
      .badUrl (String.ofList (raw.toList ++ ')' :: more)) :: ds.map closing := by
    rw [htext, ofChars_cons, hraw, hds, hmore, ofChars_closing]
  refine ⟨vs, more, ds, ?_, by rw [plain_append, hvs.plain_eq], fun brackets => ?_⟩
  · rw [ofChars_of_lexemes hread]
    exact congrArg (vs ++ ·) hend
  · rw [hvs.foldl_openAfter, hopen]

/-- As many brackets as were open are so again, but for those that come after the url, so one more is written. -/
theorem length_lt_of_overruns {x raw : String} {front : List Token}
    (hx : Token.ofChars x.toList = front ++ [.badUrl raw]) (h : Numberless (Token.ofChars x.toList))
    (hraw : Overruns raw.toList)
    (hurl : ∀ raw, .badUrl raw ∈ front → Token.ofChars (badUrl raw).text = [.badUrl raw]) :
    (reemit x).length < (reemit (reemit x)).length := by
  obtain ⟨bs, hbs⟩ : ∃ bs, unclosed (Token.ofChars x.toList) = bs := ⟨_, rfl⟩
  have hclosed : closed (Token.ofChars x.toList) = front ++ .badUrl raw :: bs.map closing := by
    rw [closed, hbs, hx, List.append_assoc, List.singleton_append]
  have hstands : Everywhere Stands (woven (closed (Token.ofChars x.toList))) := h.closed.stands
  rw [hclosed] at hstands
  obtain ⟨vs, more, ds, hread, hplain, hopen⟩ := exists_overrun hstands hraw hurl
  rw [← hclosed, ← toList_reemit] at hread hplain
  have hunclosed : unclosed (Token.ofChars (reemit x).toList) = (ds.map closing).foldl openAfter bs := by
    rw [hread, unclosed, List.foldl_append, hopen, ← hbs, hx, unclosed, List.foldl_append]
    rfl
  have hcount := length_le_foldl_openAfter bs (ds.map closing)
  rw [← hunclosed, List.length_map] at hcount
  have hfirst : (reemit x).toList.length = (plain vs).length + (raw.toList.length + 5) + bs.length := by
    rw [← hplain, plain_cons, List.length_append, List.length_append, length_badUrl, length_plain_closing]
    exact (Nat.add_assoc ..).symm
  have hagain : (plain (Token.ofChars (reemit x).toList)).length =
      (plain vs).length + (raw.toList.length + (more.length + 1) + 5) + ds.length := by
    rw [hread, plain_append, plain_cons, List.length_append, List.length_append, length_badUrl, length_plain_closing,
      String.toList_ofList, List.length_append, List.length_cons]
    exact (Nat.add_assoc ..).symm
  calc (reemit x).length
      = (reemit x).toList.length := String.length_toList.symm
    _ < (plain (Token.ofChars (reemit x).toList)).length + (unclosed (Token.ofChars (reemit x).toList)).length := by
      omega
    _ = (plain (closed (Token.ofChars (reemit x).toList))).length := by
      rw [closed, plain_append, List.length_append, length_plain_closing]
    _ ≤ (serialize (closed (Token.ofChars (reemit x).toList))).length := by
      rw [length_serialize]
      exact Nat.le_add_right _ _
    _ = (reemit (reemit x)).length := by rw [← toList_reemit, String.length_toList]

/-! ## Texts that stay -/

/-- The second round changes nothing exactly if no comment has a star right after it and every spoilt url ends at
the bracket written after it. -/
theorem reemit_reemit_iff {x : String} (hnumber : ∀ t ∈ Token.ofChars x.toList, t.isNumeric = false)
    (hmarkup : Everywhere KeepsMarkup (Token.ofChars x.toList)) :
    reemit (reemit x) = reemit x ↔
      starredComments (Token.ofChars x.toList) = 0 ∧
        ∀ raw, .badUrl raw ∈ Token.ofChars x.toList → Token.ofChars (badUrl raw).text = [.badUrl raw] := by
  have hplain : Numberless (Token.ofChars x.toList) := ⟨fits_ofChars _, hnumber, hmarkup⟩
  by_cases hurl : ∀ raw, .badUrl raw ∈ Token.ofChars x.toList → Token.ofChars (badUrl raw).text = [.badUrl raw]
  · have hsettled : Settled (Token.ofChars x.toList) := ⟨hplain, hurl⟩
    rw [and_iff_left hurl]
    constructor
    · intro hstays
      have hlength := (steady_reemit hsettled).length_reemit
      rw [hstays, starredComments_reemit hsettled] at hlength
      omega
    · intro hnone
      exact (steady_reemit hsettled).reemit_eq (by rw [starredComments_reemit hsettled, hnone])
  · refine iff_of_false (fun hstays => ?_) fun h => hurl h.2
    obtain ⟨raw, hmem, halone⟩ : ∃ raw, .badUrl raw ∈ Token.ofChars x.toList ∧
        Token.ofChars (badUrl raw).text ≠ [.badUrl raw] := by
      simpa only [not_forall, exists_prop] using hurl
    obtain ⟨front, hx, hraw, hfront⟩ := exists_overruns (endsUrl_ofChars x.toList) hmem halone
    exact absurd (congrArg String.length hstays) (Nat.ne_of_gt (length_lt_of_overruns hx hplain hraw hfront))

/-- A spoilt url that ends in its text, in a block that does not, stays as it is from the first round on. -/
theorem reemit_reemit_spoilt :
    (∀ t ∈ Token.ofChars "[url(a b)/* c */>".toList, t.isNumeric = false) ∧
      Everywhere KeepsMarkup (Token.ofChars "[url(a b)/* c */>".toList) ∧
      reemit (reemit "[url(a b)/* c */>") = reemit "[url(a b)/* c */>" := by
  have htokens : Token.ofChars "[url(a b)/* c */>".toList =
      [.opening .square, .badUrl "a b", .comment " c ", .delim '>'] := by decide +kernel
  have hurl : Token.ofChars (badUrl "a b").text = [.badUrl "a b"] := by decide +kernel
  have hnumber : ∀ t ∈ Token.ofChars "[url(a b)/* c */>".toList, t.isNumeric = false := by
    rw [htokens]
    decide
  have hmarkup : Everywhere KeepsMarkup (Token.ofChars "[url(a b)/* c */>".toList) := by
    rw [htokens]
    exact ⟨keepsMarkup_of_ne (by decide) _, keepsMarkup_of_ne (by decide) _, keepsMarkup_of_ne (by decide) _,
      keepsMarkup_of_ne (by decide) _, trivial⟩
  refine ⟨hnumber, hmarkup, (reemit_reemit_iff hnumber hmarkup).2 ?_⟩
  rw [htokens]
  refine ⟨by decide, fun raw hraw => ?_⟩
  obtain rfl : raw = "a b" := by simpa using hraw
  exact hurl

/-! ## A comment before a star -/

/-- A function whose arguments are a comment and a star right after it. -/
def starredComment : Group := ⟨.simple (.function "f" "/**/*"), [], some ⟨0, 1, 1, none⟩⟩

/-- The nodes of `:f(/**/*)`, each with its places. -/
def starredNodes : List (Node Text.Position) :=
  [.leaf .colon ⟨0, 0, 1⟩ ⟨1, 0, 2⟩,
    .block (.function "f") ⟨1, 0, 2⟩ ⟨3, 0, 4⟩ [.leaf (.delim '*') ⟨7, 0, 8⟩ ⟨8, 0, 9⟩] ⟨8, 0, 9⟩ ⟨9, 0, 10⟩
      [.leaf ⟨.comment "", ['/', '*', '*', '/']⟩, .leaf ⟨.delim '*', ['*']⟩]]

theorem parse_starredComment : (Group.parse ":f(/**/*)").result = .ok starredComment := by
  have hlexemes : Lexeme.ofChars ":f(/**/*)".toList =
      [⟨.colon, [':']⟩, ⟨.function "f", ['f', '(']⟩, ⟨.comment "", ['/', '*', '*', '/']⟩, ⟨.delim '*', ['*']⟩,
        ⟨.closing .round, [')']⟩] := by
    decide +kernel
  have hnodes : Cursor.ofChars ":f(/**/*)".toList = ⟨.start, starredNodes, ⟨9, 0, 10⟩⟩ :=
    Cursor.ofChars_of_lexemes hlexemes (show _ = [.leaf _, .block _ [.leaf _, .leaf _] _] from rfl)
      (by simp only [Node.ofComponents]; rfl)
  have hfunction : Grammar.Parts .any starredNodes [.function "f" "/**/*"] :=
    .part (.of_function rfl (show starredNodes[1].token = .function "f" from rfl) (by decide) (by decide) rfl) .nil
  exact Group.parse_of_nodes hnodes rfl (.cons (Grammar.denotes_of_parts hfunction) .nil)

theorem reemit_of_ofChars {x : String} {ts : List Token} (h : Token.ofChars x.toList = ts) :
    reemit x = String.ofList (serialize (closed ts)) := by
  rw [← String.toList_inj, toList_reemit, h, String.toList_ofList]

/-- In the arguments of `:f(/**/*)` one more comment is written each time. -/
theorem not_reemit_reemit_starred :
    (Group.parse ":f(/**/*)").result = .ok starredComment ∧ starredComment.functions = [("f", "/**/*")] ∧
      (∀ t ∈ Token.ofChars "/**/*".toList, t.isNumeric = false) ∧
      reemit "/**/*" = "/**//**/*" ∧ reemit (reemit "/**/*") = "/**//**//**/*" ∧
      reemit (reemit "/**/*") ≠ reemit "/**/*" := by
  have htokens : Token.ofChars "/**/*".toList = [.comment "", .delim '*'] := by decide +kernel
  have hagain : Token.ofChars "/**//**/*".toList = [.comment "", .comment "", .delim '*'] := by decide +kernel
  have hfirst : reemit "/**/*" = "/**//**/*" := by
    rw [reemit_of_ofChars htokens]
    rfl
  have hsecond : reemit "/**//**/*" = "/**//**//**/*" := by
    rw [reemit_of_ofChars hagain]
    rfl
  refine ⟨parse_starredComment, rfl, ?_, hfirst, by rw [hfirst, hsecond], ?_⟩
  · rw [htokens]
    decide
  · rw [hfirst, hsecond]
    decide

end StyleSelectors
