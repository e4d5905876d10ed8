/-
The tokens of style sheets. A token holds what its text means: names and strings are unescaped, a
number is a `Numeral`. Brackets open and close blocks, and a function's name opens one too, so
`opens?` and `closes?` are all that nesting depends on. A lexeme is a token with the text it was
read from.
-/
import StyleSelectors.Numeric.Literal
import StyleSelectors.Selector.Basic

namespace StyleSelectors

inductive Bracket where
  | round
  | square
  | curly
deriving DecidableEq, Repr

inductive Token where
  | ident (name : String)
  | atKeyword (name : String)
  /-- `#` and a name that is no identifier. -/
  | hash (name : String)
  /-- `#` and an identifier. -/
  | idHash (name : String)
  | string (value : String)
  /-- A string cut off by the end of its line. -/
  | badString (value : String)
  | url (value : String)
  /-- A url with characters it must not hold, as it was written. -/
  | badUrl (raw : String)
  | delim (c : Char)
  | number (n : Numeric.Numeral)
  | percentage (n : Numeric.Numeral)
  | dimension (n : Numeric.Numeral) (unit : String)
  | whitespace (text : String)
  | comment (text : String)
  | colon
  | semicolon
  | comma
  | matching (op : MatchOperator)
  /-- `<!--` -/
  | markupOpen
  /-- `-->` -/
  | markupClose
  /-- A name and the round bracket after it. -/
  | function (name : String)
  | opening (b : Bracket)
  | closing (b : Bracket)
deriving DecidableEq, Repr

namespace Bracket

def openChar : Bracket → Char
  | round => '('
  | square => '['
  | curly => '\x7b'

def closeChar : Bracket → Char
  | round => ')'
  | square => ']'
  | curly => '\x7d'

def all : List Bracket := [round, square, curly]

def ofOpen? (c : Char) : Option Bracket := all.find? fun b => b.openChar == c

def ofClose? (c : Char) : Option Bracket := all.find? fun b => b.closeChar == c

end Bracket

namespace MatchOperator

/-- The sign before `=`. -/
def sign : MatchOperator → Char
  | word => '~'
  | dash => '|'
  | start => '^'
  | finish => '$'
  | part => '*'

def all : List MatchOperator := [word, dash, start, finish, part]

def ofSign? (c : Char) : Option MatchOperator := all.find? fun op => op.sign == c

theorem ofSign?_sign (op : MatchOperator) : ofSign? op.sign = some op := by cases op <;> decide

end MatchOperator

namespace Token

/-- The bracket of the block that a token opens. -/
def opens? : Token → Option Bracket
  | .opening b => some b
  | .function _ => some .round
  | _ => none

/-- The bracket of the block that a token may close. -/
def closes? : Token → Option Bracket
  | .closing b => some b
  | _ => none

def isWhitespace : Token → Bool
  | .whitespace _ => true
  | _ => false

def isComment : Token → Bool
  | .comment _ => true
  | _ => false

end Token

structure Lexeme where
  token : Token
  /-- The text it was read from. -/
  text : List Char
deriving DecidableEq, Repr

theorem Bracket.ofOpen?_openChar (b : Bracket) : ofOpen? b.openChar = some b := by cases b <;> decide

theorem Bracket.ofClose?_closeChar (b : Bracket) : ofClose? b.closeChar = some b := by cases b <;> decide

end StyleSelectors
