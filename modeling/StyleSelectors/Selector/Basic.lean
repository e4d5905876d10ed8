/-
Selectors as trees. A selector is a simple one, two on the same element, or two on elements that a
combinator relates; the second operand is the subject's side and may be of any form, so
`ul > li.item` is `related child ul (both li .item)`. A group is a list of selectors that is never
empty. Locators tell where a part was written and mean nothing else.
-/
namespace StyleSelectors

/-! ## Locators -/

/-- A place in a source, for people to read. -/
structure Locator where
  /-- Bytes from the start of the text. -/
  offset : Nat
  /-- The line, from 1. -/
  line : Nat
  /-- The column, from 1. -/
  column : Nat
  /-- What the text belongs to, if that is known. -/
  source : Option String
deriving DecidableEq, Repr

/-- `source:line:column`, or `line:column` without a source. -/
def Locator.display (l : Locator) : String :=
  (l.source.map (· ++ ":")).getD "" ++ toString l.line ++ ":" ++ toString l.column

/-! ## Simple selectors -/

/-- What a selector asks of the namespace of an element or attribute. -/
inductive Namespace where
  /-- Nothing. -/
  | any
  /-- To be without one. -/
  | absent
  /-- To be the one that the label stands for. -/
  | named (label : String)
deriving DecidableEq, Repr

structure TypeName where
  ns : Namespace
  name : String
deriving DecidableEq, Repr

inductive MatchOperator where
  /-- `~=`: one of the words. -/
  | word
  /-- `|=`: all of it, or all before a dash. -/
  | dash
  /-- `^=`: the start. -/
  | start
  /-- `$=`: the end. -/
  | finish
  /-- `*=`: any part. -/
  | part
deriving DecidableEq, Repr

/-- What is asked of the value of an attribute. -/
inductive ValueTest where
  | present
  | equals (operand : String)
  | matching (op : MatchOperator) (operand : String)
deriving DecidableEq, Repr

structure AttributeSelector where
  ns : Namespace
  name : String
  test : ValueTest
deriving DecidableEq, Repr

inductive Simple where
  /-- `*` -/
  | universal
  /-- `ns|name` -/
  | type (t : TypeName)
  /-- `#name` -/
  | id (name : String)
  /-- `.name` -/
  | className (name : String)
  /-- `:name` -/
  | pseudoClass (name : String)
  /-- `:name(arguments)`, with the arguments as they were written. -/
  | function (name arguments : String)
  /-- `:not(inner)` -/
  | negation (inner : Simple)
  /-- `[ns|name op operand]` -/
  | attr (a : AttributeSelector)
  /-- What no element matches. -/
  | nothing
deriving DecidableEq, Repr

/-! ## Selectors -/

inductive Combinator where
  | descendant
  | child
  | adjacentSibling
  | generalSibling
deriving DecidableEq, Repr

inductive Selector where
  | simple (s : Simple)
  /-- Both operands match the same element. -/
  | both (first : Simple) (second : Selector) (locator : Option Locator)
  /-- The first operand matches an element that stands in a relation to one of the second. -/
  | related (link : Combinator) (first : Simple) (second : Selector) (locator : Option Locator)
deriving DecidableEq, Repr

namespace Selector

/-- Where the outermost operand pair was written. -/
def locator? : Selector → Option Locator
  | .simple _ => none
  | .both _ _ locator => locator
  | .related _ _ _ locator => locator

/-- The simple selectors, from the outermost to the subject. -/
def parts : Selector → List Simple
  | .simple s => [s]
  | .both first second _ => first :: second.parts
  | .related _ first second _ => first :: second.parts

/-- The selector without its locators. -/
def erase : Selector → Selector
  | .simple s => .simple s
  | .both first second _ => .both first second.erase none
  | .related link first second _ => .related link first second.erase none

end Selector

/-- Selectors of which any one may match. -/
structure Group where
  first : Selector
  others : List Selector
  locator : Option Locator
deriving DecidableEq, Repr

namespace Group

def members (g : Group) : List Selector := g.first :: g.others

/-- A group of the given selectors, if there are any. -/
def ofList? : List Selector → Option Group
  | [] => none
  | s :: rest => some ⟨s, rest, none⟩

/-- A group of one selector. -/
def single (s : Selector) : Group := ⟨s, [], none⟩

end Group

end StyleSelectors
