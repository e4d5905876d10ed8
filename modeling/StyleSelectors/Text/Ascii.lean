/-
The character classes of style sheet text, and the ASCII case map. Every line break is one of
`isNewline`, every blank one of `isSpace`; a name starts with `isNameStart` and goes on with
`isNameChar`, which takes every character beyond ASCII. Case matters for the 26 ASCII letters only.
-/
namespace StyleSelectors.Text

/-! ## Classes -/

/-- The character that no text shows: a reader puts `replacement` in its place. -/
def nul : Char := '\x00'

/-- What stands for a character that a text must not hold. -/
def replacement : Char := '\uFFFD'

def isNewline (c : Char) : Bool := c == '\n' || c == '\r' || c == '\x0c'

def isSpace (c : Char) : Bool := c == ' ' || c == '\t' || isNewline c

def isHexDigit (c : Char) : Bool :=
  c.isDigit || ('a' ≤ c && c ≤ 'f') || ('A' ≤ c && c ≤ 'F')

/-- The number a hexadecimal digit stands for. -/
def hexValue (c : Char) : Nat :=
  if c.isDigit then c.toNat - '0'.toNat
  else if 'a' ≤ c then c.toNat - 'a'.toNat + 10
  else c.toNat - 'A'.toNat + 10

def isAscii (c : Char) : Bool := c.toNat < 0x80

def isNameStart (c : Char) : Bool := c.isAlpha || c == '_' || c == nul || !isAscii c

def isNameChar (c : Char) : Bool := isNameStart c || c.isDigit || c == '-'

/-- The control characters that have no place outside a blank. -/
def isControl (c : Char) : Bool := (c.toNat < 0x20 || c.toNat == 0x7F) && c != nul

/-- A character as a reader keeps it. -/
def shown (c : Char) : Char := if c = nul then replacement else c

/-! ## Case -/

/-- The text with `A` to `Z` in lower case and all else as it is. -/
def lower (s : String) : String := String.ofList (s.toList.map Char.toLower)

/-- Equality that does not tell `A` to `Z` from `a` to `z`. -/
def sameIgnoringCase (s t : String) : Bool := lower s == lower t

theorem isSpace_of_isNewline {c : Char} (h : isNewline c = true) : isSpace c = true := by
  simp [isSpace, h]

theorem shown_ne_nul (c : Char) : shown c ≠ nul := by
  unfold shown
  split
  · decide
  · assumption

end StyleSelectors.Text
