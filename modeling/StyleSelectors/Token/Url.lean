/-
Urls without quotes. Blanks may stand around the value only; a quote, an opening bracket, a
control character, an escaped line end or anything after the second blank spoils the url, which
then runs to the next closing bracket that no backslash stands before and keeps its text as it
was written.
-/
import StyleSelectors.Token.Name

namespace StyleSelectors.Token

open Text

/-! ## Reading -/

/-- The end of a url after a blank: whether only blanks come before its bracket. -/
def readUrlEnd : List Char → Bool × List Char
  | [] => (true, [])
  | c :: rest =>
    if c = ')' then (true, rest) else if isSpace c then readUrlEnd rest else (false, rest)

/-- The characters that spoil a url. -/
def spoilsUrl (c : Char) : Bool := c == '"' || c == '\'' || c == '(' || isControl c

/-- The value of a url, or nothing where it is spoilt, right after the place that spoils it. -/
def readUrlBody : List Char → Option (List Char) × List Char
  | [] => (some [], [])
  | c :: rest =>
    if c = ')' then (some [], rest)
    else if isSpace c then
      let stop := readUrlEnd rest
      (if stop.1 then some [] else none, stop.2)
    else if spoilsUrl c then (none, rest)
    else if c = '\\' then
      if atNewline rest then (none, rest)
      else
        let escape := readEscape rest
        have := readEscape_length_le rest
        let body := readUrlBody escape.2
        (body.1.map (escape.1 :: ·), body.2)
    else
      let body := readUrlBody rest
      (body.1.map (shown c :: ·), body.2)
termination_by cs => cs.length
decreasing_by all_goals grind

/-- The text up to the bracket that ends a spoilt url. -/
def readSpoilt : List Char → List Char × List Char
  | [] => ([], [])
  | ')' :: rest => ([], rest)
  | '\\' :: ')' :: rest => ('\\' :: ')' :: (readSpoilt rest).1, (readSpoilt rest).2)
  | '\\' :: '\\' :: rest => ('\\' :: '\\' :: (readSpoilt rest).1, (readSpoilt rest).2)
  | c :: rest => (c :: (readSpoilt rest).1, (readSpoilt rest).2)

theorem readUrlEnd_suffix (cs : List Char) : (readUrlEnd cs).2 <:+ cs := by
  fun_induction readUrlEnd cs with
  | case1 => exact List.suffix_refl _
  | case2 => exact List.suffix_cons _ _
  | case3 _ _ _ _ ih => exact ih.trans (List.suffix_cons _ _)
  | case4 => exact List.suffix_cons _ _

theorem readUrlBody_suffix (cs : List Char) : (readUrlBody cs).2 <:+ cs := by
  fun_induction readUrlBody cs with
  | case1 => exact List.suffix_refl _
  | case2 => exact List.suffix_cons _ _
  | case3 c rest _ _ _ => exact (readUrlEnd_suffix rest).trans (List.suffix_cons _ _)
  | case4 => exact List.suffix_cons _ _
  | case5 => exact List.suffix_cons _ _
  | case6 rest _ _ _ _ _ _ _ ih => exact (ih.trans (readEscape_suffix rest)).trans (List.suffix_cons _ _)
  | case7 _ _ _ _ _ _ _ ih => exact ih.trans (List.suffix_cons _ _)

theorem readSpoilt_suffix (cs : List Char) : (readSpoilt cs).2 <:+ cs := by
  fun_induction readSpoilt cs with
  | case1 => exact List.suffix_refl _
  | case2 => exact List.suffix_cons _ _
  | case3 _ ih => exact (ih.trans (List.suffix_cons _ _)).trans (List.suffix_cons _ _)
  | case4 _ ih => exact (ih.trans (List.suffix_cons _ _)).trans (List.suffix_cons _ _)
  | case5 _ _ _ _ _ ih => exact ih.trans (List.suffix_cons _ _)

/-! ## Writing -/

/-- A character inside a url. -/
def writeUrlChar (c : Char) : List Char :=
  if c.toNat ≤ 0x20 ∨ c.toNat = 0x7F then hexEscape c
  else if c = '(' ∨ c = ')' ∨ c = '"' ∨ c = '\'' ∨ c = '\\' then ['\\', c]
  else [c]

def writeUrl (cs : List Char) : List Char := cs.flatMap writeUrlChar

end StyleSelectors.Token
