/-
A text between double quotes, for messages. What would break the quotes or cannot be seen is
written with a backslash: a few characters by a letter, the others by their number.
-/
import StyleSelectors.Text.Ascii
import StyleSelectors.Text.Printable

namespace StyleSelectors.Text

/-- A character by its number. -/
def numbered (c : Char) : List Char :=
  ['\\', 'u', '\x7b'] ++ Nat.toDigits 16 c.toNat ++ ['\x7d']

/-- A character of a quoted text. -/
def quotedChar (c : Char) : List Char :=
  if c = nul then ['\\', '0']
  else if c = '\t' then ['\\', 't']
  else if c = '\r' then ['\\', 'r']
  else if c = '\n' then ['\\', 'n']
  else if c = '"' ∨ c = '\\' then ['\\', c]
  else if isPrintable c then [c]
  else numbered c

def quoted (s : String) : String := String.ofList ('"' :: s.toList.flatMap quotedChar ++ ['"'])

end StyleSelectors.Text
