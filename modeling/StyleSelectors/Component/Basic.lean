/-
The blocks of a text. A component is a lexeme that opens nothing, or a block: what opens it, the
components inside, and what closes it unless the text ends first. `Component.lexemes` forgets the
nesting and gives back all that was read; `Component.tokens` is the same as tokens, with every
block closed.
-/
import StyleSelectors.Token.Lexer

namespace StyleSelectors

inductive Component where
  | leaf (x : Lexeme)
  | block (head : Lexeme) (inside : List Component) (close : Option Lexeme)

namespace Component

mutual

/-- The lexemes of a component, in order. -/
def lexemes : Component → List Lexeme
  | .leaf x => [x]
  | .block head inside close => head :: lexemesOf inside ++ close.toList

def lexemesOf : List Component → List Lexeme
  | [] => []
  | c :: rest => lexemes c ++ lexemesOf rest

end

/-- The token that closes what `head` opens. -/
def closer (head : Token) : Token := .closing (head.opens?.getD .round)

mutual

/-- The tokens of a component, in order, with the closing token of every block. -/
def tokens : Component → List Token
  | .leaf x => [x.token]
  | .block head inside _ => head.token :: tokensOf inside ++ [closer head.token]

def tokensOf : List Component → List Token
  | [] => []
  | c :: rest => tokens c ++ tokensOf rest

end

/-- The text that components were read from. -/
def chars (cs : List Component) : List Char := Lexeme.chars (lexemesOf cs)

theorem lexemesOf_append (cs ds : List Component) : lexemesOf (cs ++ ds) = lexemesOf cs ++ lexemesOf ds := by
  induction cs with
  | nil => rfl
  | cons c cs ih => simp [lexemesOf, ih]

theorem tokensOf_append (cs ds : List Component) : tokensOf (cs ++ ds) = tokensOf cs ++ tokensOf ds := by
  induction cs with
  | nil => rfl
  | cons c cs ih => simp [tokensOf, ih]

end Component

end StyleSelectors
