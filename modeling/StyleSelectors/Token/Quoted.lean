/-
Strings between quotes. A line end cuts a string off unless a backslash takes it out; the end of
the text closes a string as its quote does.
-/
import StyleSelectors.Token.Name

namespace StyleSelectors.Token

open Text

/-! ## Reading -/

/-- The characters of a string up to its closing quote, and whether it was closed. -/
def readQuoted (quote : Char) : List Char → (List Char × Bool) × List Char
  | [] => (([], true), [])
  | c :: rest =>
    if c = quote then (([], true), rest)
    else if isNewline c then (([], false), c :: rest)
    else if c = '\\' then
      if rest.isEmpty then (([], true), [])
      else if atNewline rest then
        have := (dropSpace_suffix rest).length_le
        readQuoted quote (dropSpace rest)
      else
        let escape := readEscape rest
        have := readEscape_length_le rest
        let string := readQuoted quote escape.2
        ((escape.1 :: string.1.1, string.1.2), string.2)
    else
      let string := readQuoted quote rest
      ((shown c :: string.1.1, string.1.2), string.2)
termination_by cs => cs.length
decreasing_by all_goals grind

theorem readQuoted_suffix (quote : Char) (cs : List Char) : (readQuoted quote cs).2 <:+ cs := by
  fun_induction readQuoted quote cs with
  | case1 => exact List.suffix_refl _
  | case2 => exact List.suffix_cons _ _
  | case3 => exact List.suffix_refl _
  | case4 => exact List.nil_suffix
  | case5 rest _ _ _ _ _ ih => exact (ih.trans (dropSpace_suffix rest)).trans (List.suffix_cons _ _)
  | case6 rest _ _ _ _ _ _ _ ih => exact (ih.trans (readEscape_suffix rest)).trans (List.suffix_cons _ _)
  | case7 _ _ _ _ _ _ ih => exact ih.trans (List.suffix_cons _ _)

/-! ## Writing -/

/-- A character inside double quotes. -/
def writeQuotedChar (c : Char) : List Char :=
  if c = '"' ∨ c = '\\' then ['\\', c]
  else if c = nul then [replacement]
  else if isControl c then hexEscape c
  else [c]

def writeQuoted (cs : List Char) : List Char := cs.flatMap writeQuotedChar

end StyleSelectors.Token
