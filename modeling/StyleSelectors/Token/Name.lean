/-
Names and their escapes. A backslash takes the place of any character but a line end: up to six
hexadecimal digits give its number, with one blank after them for their end, and any other
character stands for itself. A reader leaves a text that is an end part of what it was given
(`readEscape_suffix`, `readName_suffix`), and takes something whenever a name starts there.
-/
import StyleSelectors.Text.Ascii

namespace StyleSelectors.Token

open Text

/-! ## Escapes -/

/-- The character of a number, if there is one that a text may hold. -/
def scalar (n : Nat) : Char :=
  if n = 0 then replacement else if n.isValidChar then Char.ofNat n else replacement

/-- The text after one blank; a CR with its LF is one. -/
def dropSpace : List Char → List Char
  | '\r' :: '\n' :: rest => rest
  | c :: rest => if isSpace c then rest else c :: rest
  | [] => []

/-- The character that the text after a backslash stands for. -/
def readEscape : List Char → Char × List Char
  | [] => (replacement, [])
  | c :: rest =>
    if isHexDigit c then
      let digits := (rest.take 5).takeWhile isHexDigit
      (scalar ((c :: digits).foldl (fun n d => n * 16 + hexValue d) 0), dropSpace (rest.drop digits.length))
    else (shown c, rest)

theorem dropSpace_suffix (cs : List Char) : dropSpace cs <:+ cs := by
  unfold dropSpace
  split
  · exact ⟨['\r', '\n'], rfl⟩
  · split
    · exact List.suffix_cons _ _
    · exact List.suffix_refl _
  · exact List.suffix_refl _

theorem readEscape_suffix (cs : List Char) : (readEscape cs).2 <:+ cs := by
  cases cs with
  | nil => exact List.suffix_refl _
  | cons c rest =>
    simp only [readEscape]
    split
    · exact ((dropSpace_suffix _).trans (List.drop_suffix _ _)).trans (List.suffix_cons _ _)
    · exact List.suffix_cons _ _

theorem readEscape_length_le (cs : List Char) : (readEscape cs).2.length ≤ cs.length :=
  (readEscape_suffix cs).length_le

/-! ## Reading names -/

/-- Whether a line ends right here. -/
def atNewline (cs : List Char) : Bool := cs.head?.any isNewline

/-- Whether a name starts here. After a dash any backslash starts one. -/
def startsName : List Char → Bool
  | [] => false
  | '-' :: rest => rest.head?.any fun c => isNameStart c || c == '-' || c == '\\'
  | '\\' :: rest => !atNewline rest
  | c :: _ => isNameStart c

/-- The characters of a name, up to the first that cannot go on with it. -/
def readName : List Char → List Char × List Char
  | [] => ([], [])
  | c :: rest =>
    if c = '\\' then
      if atNewline rest then ([], c :: rest)
      else
        let escape := readEscape rest
        have := readEscape_length_le rest
        let name := readName escape.2
        (escape.1 :: name.1, name.2)
    else if isNameChar c then
      let name := readName rest
      (shown c :: name.1, name.2)
    else ([], c :: rest)
termination_by cs => cs.length
decreasing_by all_goals grind

theorem readName_suffix (cs : List Char) : (readName cs).2 <:+ cs := by
  fun_induction readName cs with
  | case1 => exact List.suffix_refl _
  | case2 => exact List.suffix_refl _
  | case3 rest _ _ _ _ ih => exact (ih.trans (readEscape_suffix rest)).trans (List.suffix_cons _ _)
  | case4 _ _ _ _ _ ih => exact ih.trans (List.suffix_cons _ _)
  | case5 => exact List.suffix_refl _

/-! ## Writing names -/

/-- A character by its number. -/
def hexEscape (c : Char) : List Char := '\\' :: Nat.toDigits 16 c.toNat ++ [' ']

/-- A character inside a name. -/
def writeNameChar (c : Char) : List Char :=
  if c = nul then [replacement]
  else if isNameChar c then [c]
  else if isControl c then hexEscape c
  else ['\\', c]

def writeName (cs : List Char) : List Char := cs.flatMap writeNameChar

/-- A name whose first character must not be a digit. -/
def writeUndigited : List Char → List Char
  | c :: rest => if c.isDigit then hexEscape c ++ writeName rest else writeName (c :: rest)
  | [] => []

/-- A name that has to read back as an identifier. -/
def writeIdentifier : List Char → List Char
  | ['-'] => ['\\', '-']
  | '-' :: '-' :: rest => '-' :: '-' :: writeName rest
  | '-' :: rest => '-' :: writeUndigited rest
  | cs => writeUndigited cs

end StyleSelectors.Token
