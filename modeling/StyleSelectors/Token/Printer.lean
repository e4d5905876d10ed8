/-
The text of tokens. `Token.text` writes one token so that it reads back as itself, where nothing
comes after it that would go on with it; `Token.serialize` writes many, with an empty comment
wherever two neighbours would otherwise read as something else.
-/
import StyleSelectors.Token.Basic
import StyleSelectors.Token.Quoted
import StyleSelectors.Token.Url

namespace StyleSelectors

open Text

/-! ## One token -/

namespace Token

/-- A unit, so that its start does not read as a power of ten. -/
def writeUnit : List Char → List Char
  | c :: rest =>
    if (c == 'e' || c == 'E') && (rest.isEmpty || rest.head? == some '-') then
      '\\' :: '6' :: '5' :: ' ' :: writeName rest
    else writeIdentifier (c :: rest)
  | [] => []

def text : Token → List Char
  | .ident name => writeIdentifier name.toList
  | .atKeyword name => '@' :: writeIdentifier name.toList
  | .hash name => '#' :: writeName name.toList
  | .idHash name => '#' :: writeIdentifier name.toList
  | .string value => '"' :: writeQuoted value.toList ++ ['"']
  | .badString value => '"' :: writeQuoted value.toList
  | .url value => 'u' :: 'r' :: 'l' :: '(' :: writeUrl value.toList ++ [')']
  | .badUrl raw => 'u' :: 'r' :: 'l' :: '(' :: raw.toList ++ [')']
  | .delim c => [c]
  | .number n => n.write
  | .percentage n => n.writeHundredths ++ ['%']
  | .dimension n unit => n.write ++ writeUnit unit.toList
  | .whitespace space => space.toList
  | .comment inside => '/' :: '*' :: inside.toList ++ ['*', '/']
  | .colon => [':']
  | .semicolon => [';']
  | .comma => [',']
  | .matching op => [op.sign, '=']
  | .markupOpen => ['<', '!', '-', '-']
  | .markupClose => ['-', '-', '>']
  | .function name => writeIdentifier name.toList ++ ['(']
  | .opening b => [b.openChar]
  | .closing b => [b.closeChar]

/-! ## Neighbours -/

/-- Tokens whose text a name before it would take in. -/
def extendsName : Token → Bool
  | .ident _ | .function _ | .url _ | .badUrl _ => true
  | .delim c => c == '-'
  | _ => false

def isNumeric : Token → Bool
  | .number _ | .percentage _ | .dimension _ _ => true
  | _ => false

/-- Whether a single character runs into the token after it. -/
def delimRunsInto (c : Char) (next : Token) : Bool :=
  if c = '#' ∨ c = '-' then next.extendsName || next.isNumeric
  else if c = '@' then next.extendsName
  else if c = '.' ∨ c = '+' then next.isNumeric
  else if c = '$' ∨ c = '^' ∨ c = '~' ∨ c = '*' then next == .delim '='
  else if c = '|' then next == .delim '=' || next == .delim '|' || next == .matching .dash
  else if c = '/' then next == .delim '*' || next == .matching .part
  else false

/-- Whether a token and the one after it would read as something else. -/
def runsInto : Token → Token → Bool
  | .ident _, next => next.extendsName || next.isNumeric || next == .markupClose || next == .opening .round
  | .atKeyword _, next | .hash _, next | .idHash _, next | .dimension _ _, next =>
    next.extendsName || next.isNumeric || next == .markupClose
  | .number _, next => next.extendsName || next.isNumeric || next == .delim '%'
  | .comment _, next => delimRunsInto '/' next
  | .delim c, next => delimRunsInto c next
  | _, _ => false

/-! ## Many tokens -/

/-- What keeps two tokens apart. -/
def separator (t next : Token) : List Char := if t.runsInto next then ['/', '*', '*', '/'] else []

def serialize : List Token → List Char
  | [] => []
  | [t] => t.text
  | t :: next :: rest => t.text ++ t.separator next ++ serialize (next :: rest)

/-- The text of one token as an error message shows it. -/
def shown (t : Token) : String := String.ofList t.text

theorem serialize_append_cons (xs : List Token) (t : Token) (ys : List Token) :
    serialize (xs ++ t :: ys) =
      serialize xs ++ (xs.getLast?.map (·.separator t)).getD [] ++ serialize (t :: ys) := by
  induction xs with
  | nil => simp [serialize]
  | cons x xs ih =>
    cases xs with
    | nil => simp [serialize]
    | cons y xs =>
      simp only [List.cons_append] at ih
      simp [serialize, ih]

end Token

end StyleSelectors
