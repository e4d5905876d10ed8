/-
Texts without the blanks at their ends. `Text.trim` cuts a text by its characters, where `stripped`
drops tokens: cutting off blanks in front of a text drops its first whitespace and no more, but a
last token that is still open, or a backslash at its end, had taken in the blanks after it. So a text
keeps its tokens when it is cut exactly if its last lexeme is the same without the blanks
(`Token.ofChars_trim_iff`).
-/
import Mathlib.Data.List.DropRight
import StyleSelectors.Text.Blank
import StyleSelectors.Proofs.Token.Apart
import StyleSelectors.Proofs.Token.Gap

namespace StyleSelectors

namespace Text

/-! ## What is cut off -/

/-- The blanks that are cut off the end of a text. -/
def blanksAfter (cs : List Char) : List Char := (cs.dropWhile isBlank).rtakeWhile isBlank

/-- Whether nothing is cut off a text but the blanks of style sheets. -/
def CutsSpaces (cs : List Char) : Prop := ∀ c ∈ cs.takeWhile isBlank ++ blanksAfter cs, isSpace c = true

instance (cs : List Char) : Decidable (CutsSpaces cs) := List.decidableBAll _ _

theorem not_isSpace {c : Char} (h : isBlank c = false) : isSpace c = false := by
  refine Bool.eq_false_iff.2 fun hspace => ?_
  rw [isBlank_of_isSpace hspace] at h
  cases h

theorem trim_append_blanksAfter (cs : List Char) : trim cs ++ blanksAfter cs = cs.dropWhile isBlank :=
  List.rdropWhile_append_rtakeWhile

theorem dropWhile_of_trim {cs : List Char} (h : trim cs = []) : cs.dropWhile isBlank = [] := by
  have hall : ∀ c ∈ cs.dropWhile isBlank, isBlank c = true := List.rdropWhile_eq_nil_iff.1 h
  have hhead := List.head?_dropWhile_not isBlank cs
  cases hdrop : cs.dropWhile isBlank with
  | nil => rfl
  | cons c rest =>
    rw [hdrop] at hall hhead
    have hc : isBlank c = false := hhead
    rw [hall c (List.mem_cons_self ..)] at hc
    cases hc

theorem isBlank_last_trim {cs : List Char} {c : Char} (h : (trim cs).getLast? = some c) : isBlank c = false := by
  have hne : trim cs ≠ [] := by
    intro hnil
    rw [hnil] at h
    cases h
  have hlast := List.rdropWhile_last_not isBlank (cs.dropWhile isBlank) hne
  rw [List.getLast?_eq_some_getLast hne] at h
  rw [← Option.some.inj h]
  exact Bool.eq_false_iff.2 hlast

/-- Whether `kept` is a text without the blanks at its two ends, however many these are. -/
def Trimmed (cs kept : List Char) : Prop :=
  ∃ before after, cs = before ++ kept ++ after ∧ (∀ c ∈ before ++ after, isBlank c = true) ∧
    (∀ c ∈ kept.head?, isBlank c = false) ∧ ∀ c ∈ kept.getLast?, isBlank c = false

theorem dropWhile_isBlank_append {before cs : List Char} (hbefore : ∀ c ∈ before, isBlank c = true)
    (hcs : ∀ c ∈ cs.head?, isBlank c = false) : (before ++ cs).dropWhile isBlank = cs := by
  rw [List.dropWhile_append_of_pos hbefore]
  cases cs with
  | nil => rfl
  | cons c cs => rw [List.dropWhile_cons_of_neg (by simp [hcs c rfl])]

theorem trimmed_trim (cs : List Char) : Trimmed cs (trim cs) := by
  refine ⟨cs.takeWhile isBlank, blanksAfter cs, ?_, ?_, ?_, fun c hc => isBlank_last_trim hc⟩
  · rw [List.append_assoc, trim_append_blanksAfter, List.takeWhile_append_dropWhile]
  · rw [List.forall_mem_append]
    exact ⟨List.all_eq_true.1 List.all_takeWhile, fun c hc => List.mem_rtakeWhile_imp hc⟩
  · intro c hc
    have hhead := List.head?_dropWhile_not isBlank cs
    rw [← trim_append_blanksAfter, List.head?_append, Option.mem_def.1 hc] at hhead
    exact hhead

theorem trimmed_iff {cs kept : List Char} : Trimmed cs kept ↔ kept = trim cs := by
  constructor
  · rintro ⟨before, after, rfl, hblank, hhead, hlast⟩
    obtain ⟨hbefore, hafter⟩ := List.forall_mem_append.1 hblank
    cases kept with
    | nil =>
      have hall : (before ++ after).dropWhile isBlank = [] := List.dropWhile_eq_nil_iff.2 hblank
      rw [List.append_nil, trim, hall]
      rfl
    | cons c rest =>
      have hhead : ∀ d ∈ (c :: rest ++ after).head?, isBlank d = false := hhead
      have hlast : ∀ d ∈ (c :: rest).reverse.head?, isBlank d = false := by rwa [List.head?_reverse]
      rw [List.append_assoc, trim, dropWhile_isBlank_append hbefore hhead, List.reverse_append,
        dropWhile_isBlank_append (fun d hd => hafter d (List.mem_reverse.1 hd)) hlast, List.reverse_reverse]
  · rintro rfl
    exact trimmed_trim cs

end Text

open Text

/-! ## Whitespace at the ends -/

namespace Token

/-- The tokens of a text. -/
def ofChars (cs : List Char) : List Token := (Lexeme.ofChars cs).map Lexeme.token

/-- Tokens without the whitespace at their two ends. -/
def stripped (ts : List Token) : List Token := (ts.dropWhile isWhitespace).rdropWhile isWhitespace

theorem dropWhile_of_head {ts : List Token} (h : ∀ t ∈ ts.head?, t.isWhitespace = false) :
    ts.dropWhile isWhitespace = ts := by
  cases ts with
  | nil => rfl
  | cons t ts => rw [List.dropWhile_cons_of_neg (by simp [h t rfl])]

/-- What is not all whitespace is stripped by itself at the end. -/
theorem rdropWhile_append {xs ys : List Token} {t : Token} (ht : t ∈ ys) (h : t.isWhitespace = false) :
    (xs ++ ys).rdropWhile isWhitespace = xs ++ ys.rdropWhile isWhitespace := by
  have hne : ys.reverse.dropWhile isWhitespace ≠ [] := by
    rw [ne_eq, List.dropWhile_eq_nil_iff]
    intro hall
    rw [hall t (List.mem_reverse.2 ht)] at h
    cases h
  rw [List.rdropWhile, List.reverse_append, List.dropWhile_append, if_neg (by simpa [List.isEmpty_iff] using hne),
    List.reverse_append, List.reverse_reverse, List.rdropWhile]

theorem head_ofChars {cs : List Char} (h : ∀ c ∈ cs.head?, isSpace c = false) :
    ∀ t ∈ (ofChars cs).head?, t.isWhitespace = false := by
  cases cs with
  | nil =>
    intro t ht
    rw [ofChars, Lexeme.ofChars] at ht
    cases ht
  | cons c cs =>
    intro t ht
    rw [ofChars, Lexeme.ofChars] at ht
    obtain rfl : (readToken c cs).1 = t := Option.some.inj ht
    rw [isWhitespace_readToken, h c rfl]

/-- Blanks before a text that starts with none are one token of it. -/
theorem dropWhile_ofChars {u v : List Char} (hu : ∀ c ∈ u, isSpace c = true) (hv : ∀ c ∈ v.head?, isSpace c = false) :
    (ofChars (u ++ v)).dropWhile isWhitespace = ofChars v := by
  have hself : (ofChars v).dropWhile isWhitespace = ofChars v := dropWhile_of_head (head_ofChars hv)
  cases u with
  | nil => exact hself
  | cons c u =>
    have hread : readToken c (u ++ v) = (.whitespace (String.ofList (c :: u)), v) := by
      rw [readToken, if_pos (hu c (List.mem_cons_self ..)), ← List.cons_append, readSpace, takeWhile_append_head hv,
        dropWhile_append_head hv, List.takeWhile_eq_self_iff.2 hu, List.dropWhile_eq_nil_iff.2 hu]
      rfl
    rw [ofChars, Lexeme.ofChars_of_readToken hread, List.map_cons, List.dropWhile_cons_of_pos (by rfl)]
    exact hself

end Token

/-! ## The last lexeme -/

/-- Whether a lexeme is the same token, and the only one but whitespace, with blanks after it. -/
def Lexeme.StaysBefore (blanks : List Char) (y : Lexeme) : Prop :=
  Token.stripped (Token.ofChars (y.text ++ blanks)) = [y.token]

instance (blanks : List Char) (y : Lexeme) : Decidable (y.StaysBefore blanks) :=
  inferInstanceAs (Decidable (_ = _))

/-- The last lexeme of a text that does not end with a blank does not start with one. -/
theorem Lexeme.last_text {cs : List Char} {xs : List Lexeme} {y : Lexeme} (h : ofChars cs = xs ++ [y])
    (hlast : ∀ c ∈ cs.getLast?, isSpace c = false) : ∃ c u, y.text = c :: u ∧ isSpace c = false := by
  obtain ⟨c, u, htext, -, hread, -⟩ := ofChars_eq_cons (ofChars_suffix h)
  refine ⟨c, u, htext, ?_⟩
  cases hspace : isSpace c with
  | false => rfl
  | true =>
    -- a run of blanks that the text ends with
    have hall : (c :: u).dropWhile isSpace = [] := by
      rw [show chars [] = [] from rfl, List.append_nil, Token.readToken, if_pos hspace] at hread
      exact congrArg Prod.snd hread
    have hcs : cs = chars xs ++ (c :: u) := by
      rw [← chars_ofChars cs, h, chars, List.flatMap_append, ← htext]
      simp [chars]
    obtain ⟨d, hd⟩ : ∃ d, (c :: u).getLast? = some d := ⟨_, List.getLast?_eq_some_getLast (List.cons_ne_nil c u)⟩
    have hspace : isSpace d = false := by
      apply hlast
      rw [hcs, List.getLast?_append, hd]
      rfl
    rw [List.dropWhile_eq_nil_iff.1 hall d (List.mem_of_getLast? hd)] at hspace
    cases hspace

/-- A text keeps its tokens but for whitespace at its ends when the blanks there are cut off, exactly if
its last lexeme stays the same before these blanks. -/
theorem Token.ofChars_trim_iff {cs : List Char} (h : CutsSpaces cs) :
    ofChars (trim cs) = stripped (ofChars cs) ↔
      ∀ y ∈ (Lexeme.ofChars (trim cs)).getLast?, y.StaysBefore (blanksAfter cs) := by
  obtain ⟨hfront, hback⟩ := List.forall_mem_append.1 h
  have hlast : ∀ c ∈ (trim cs).getLast?, isSpace c = false := fun c hc => not_isSpace (isBlank_last_trim hc)
  have hhead : ∀ c ∈ (cs.dropWhile isBlank).head?, isSpace c = false := by
    intro c hc
    have := List.head?_dropWhile_not isBlank cs
    rw [hc] at this
    exact not_isSpace (by simpa using this)
  -- the blanks in front are one token, and are dropped as they are cut off
  have hts : stripped (ofChars cs) = (ofChars (trim cs ++ blanksAfter cs)).rdropWhile isWhitespace := by
    have hcs : cs = cs.takeWhile isBlank ++ cs.dropWhile isBlank := List.takeWhile_append_dropWhile.symm
    rw [trim_append_blanksAfter, stripped]
    nth_rewrite 1 [hcs]
    rw [dropWhile_ofChars hfront hhead]
  rcases List.eq_nil_or_concat' (Lexeme.ofChars (trim cs)) with hnil | ⟨xs, y, hxs⟩
  · have htrim : trim cs = [] := by
      rw [← Lexeme.chars_ofChars (trim cs), hnil]
      rfl
    rw [hts, trim_append_blanksAfter, dropWhile_of_trim htrim, htrim, ofChars, Lexeme.ofChars]
    exact iff_of_true rfl fun _ hy => by cases hy
  · have hgap : AtGap (blanksAfter cs) := fun c hc => hback c (List.mem_of_mem_head? hc)
    have hmore : ofChars (trim cs ++ blanksAfter cs) = xs.map Lexeme.token ++ ofChars (y.text ++ blanksAfter cs) := by
      rw [ofChars, Lexeme.ofChars_gap hxs hgap, List.map_append]
      rfl
    -- the last lexeme starts with no blank, and so gives a token that is not dropped
    obtain ⟨c, u, htext, hc⟩ := Lexeme.last_text hxs hlast
    have hy : ∀ c ∈ (y.text ++ blanksAfter cs).head?, isSpace c = false := by
      intro d hd
      rw [htext] at hd
      obtain rfl : c = d := Option.some.inj hd
      exact hc
    obtain ⟨t, ht, hwhite⟩ : ∃ t ∈ ofChars (y.text ++ blanksAfter cs), t.isWhitespace = false := by
      refine ⟨(readToken c (u ++ blanksAfter cs)).1, ?_, by rw [isWhitespace_readToken, hc]⟩
      rw [htext, List.cons_append, ofChars, Lexeme.ofChars]
      exact List.mem_cons_self ..
    have hstripped : stripped (ofChars (y.text ++ blanksAfter cs)) =
        (ofChars (y.text ++ blanksAfter cs)).rdropWhile isWhitespace := by
      rw [stripped, dropWhile_of_head (head_ofChars hy)]
    rw [hts, hmore, rdropWhile_append ht hwhite, ← hstripped, ofChars, hxs, List.map_append,
      List.append_cancel_left_eq, List.getLast?_concat]
    constructor
    · rintro hstays y' hy'
      cases hy'
      exact hstays.symm
    · intro hstays
      exact (hstays y rfl).symm

end StyleSelectors
