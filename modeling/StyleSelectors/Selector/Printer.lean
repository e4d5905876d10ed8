/-
Selectors as tokens and as text. What no element matches is written `:not(*)`, which reads back as
something that no element matches and weighs nothing. A namespace that goes without saying is left
out: any for a type, none for an attribute. Arguments of a function are written token by token,
every block in them closed.
-/
import StyleSelectors.Component.Nesting
import StyleSelectors.Token.Printer

namespace StyleSelectors

/-! ## Tokens -/

/-- A namespace before a name, unless it is the one that goes without saying. -/
def Namespace.tokens (ns implicit : Namespace) : List Token :=
  if ns = implicit then []
  else
    match ns with
    | .any => [.delim '*', .delim '|']
    | .absent => [.delim '|']
    | .named label => [.ident label, .delim '|']

def TypeName.tokens (t : TypeName) : List Token := t.ns.tokens .any ++ [.ident t.name]

def ValueTest.tokens : ValueTest → List Token
  | .present => []
  | .equals operand => [.delim '=', .string operand]
  | .matching op operand => [.matching op, .string operand]

def AttributeSelector.tokens (a : AttributeSelector) : List Token :=
  .opening .square :: a.ns.tokens .absent ++ .ident a.name :: a.test.tokens ++ [.closing .square]

/-- The tokens of a text, and those that close the blocks it leaves open. -/
def closedTokens (text : String) : List Token := Component.tokensOf (Component.ofChars text.toList)

def Simple.tokens : Simple → List Token
  | .universal => [.delim '*']
  | .type t => t.tokens
  | .id name => [.idHash name]
  | .className name => [.delim '.', .ident name]
  | .pseudoClass name => [.colon, .ident name]
  | .function name arguments => .colon :: .function name :: closedTokens arguments ++ [.closing .round]
  | .negation inner => .colon :: .function "not" :: inner.tokens ++ [.closing .round]
  | .attr a => a.tokens
  | .nothing => [.colon, .function "not", .delim '*', .closing .round]

def Combinator.token : Combinator → Token
  | .descendant => .whitespace " "
  | .child => .delim '>'
  | .adjacentSibling => .delim '+'
  | .generalSibling => .delim '~'

def Selector.tokens : Selector → List Token
  | .simple s => s.tokens
  | .both first second _ => first.tokens ++ second.tokens
  | .related link first second _ => first.tokens ++ link.token :: second.tokens

/-- The tokens of each member, with a comma and a space between them. -/
def Group.tokens (g : Group) : List Token :=
  g.first.tokens ++ g.others.flatMap fun s => .comma :: .whitespace " " :: s.tokens

/-! ## Text -/

/-- Tokens as text. -/
def Token.render (ts : List Token) : String := String.ofList (serialize ts)

def Simple.css (s : Simple) : String := Token.render s.tokens
def Selector.css (s : Selector) : String := Token.render s.tokens
def Group.css (g : Group) : String := Token.render g.tokens

end StyleSelectors
