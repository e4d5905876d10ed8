/-
What matching asks of a document. A model answers for each element which type, id, classes and
pseudo-classes it has, what its attributes are, and what its parent and previous sibling are. Going
from parent to parent ends, and so does going from sibling to sibling; `ancestors` and
`precedingSiblings` are the elements on the way, the nearest first.
-/
import StyleSelectors.Selector.Basic
import StyleSelectors.Text.Ascii

namespace StyleSelectors

open Text

/-! ## Tests on attribute values -/

/-- What stands between the blanks of a text, also where that is nothing. -/
def words : List Char → List (List Char)
  | [] => [[]]
  | c :: rest =>
    if isSpace c then [] :: words rest
    else
      match words rest with
      | [] => [[c]]
      | w :: more => (c :: w) :: more

/-- Whether a text occurs in another. -/
def occursIn (w : List Char) : List Char → Bool
  | [] => w.isEmpty
  | c :: rest => w.isPrefixOf (c :: rest) || occursIn w rest

/-- Whether a value passes the test of an operator. Only `|=` holds with an empty operand, and a
word has no blanks in it. -/
def MatchOperator.holds (op : MatchOperator) (operand value : List Char) : Bool :=
  match op with
  | .word => !operand.isEmpty && !operand.any isSpace && (words value).contains operand
  | .dash => operand.isPrefixOf value &&
      ((value.drop operand.length).isEmpty || (value.drop operand.length).head? == some '-')
  | .start => !operand.isEmpty && operand.isPrefixOf value
  | .finish => !operand.isEmpty && operand.isSuffixOf value
  | .part => !operand.isEmpty && occursIn operand value

/-! ## Models -/

/-- How attributes are looked up: the value, if the attribute is there. -/
abbrev Lookup (E : Type) := E → Namespace → String → Option String

namespace Lookup

variable {E : Type}

/-- Whether an attribute is there. -/
def has (look : Lookup E) (e : E) (ns : Namespace) (name : String) : Bool := (look e ns name).isSome

/-- Whether the value of an attribute is the operand. -/
def equals (look : Lookup E) (e : E) (ns : Namespace) (name operand : String) : Bool :=
  (look e ns name).any (· == operand)

/-- Whether the value of an attribute passes the test of an operator. -/
def passes (look : Lookup E) (op : MatchOperator) (e : E) (ns : Namespace) (name operand : String) : Bool :=
  (look e ns name).any fun value => op.holds operand.toList value.toList

end Lookup

/-- The tests on attributes may be other than those of the lookup. -/
structure Model (E : Type) where
  hasType : E → Namespace → String → Bool
  hasId : E → String → Bool
  hasClass : E → String → Bool
  hasPseudoClass : E → String → Bool
  attribute? : Lookup E
  parent? : E → Option E
  previousSibling? : E → Option E
  hasAttribute : E → Namespace → String → Bool := attribute?.has
  attributeEquals : E → Namespace → String → String → Bool := attribute?.equals
  attributePasses : MatchOperator → E → Namespace → String → String → Bool := attribute?.passes
  parent_wf : WellFounded fun a b => parent? b = some a
  previousSibling_wf : WellFounded fun a b => previousSibling? b = some a

/-- The elements that a step leads to, the nearest first. -/
def chain {E : Type} (step : E → Option E) (wf : WellFounded fun a b => step b = some a) (e : E) : List E :=
  match _ : step e with
  | none => []
  | some a => a :: chain step wf a
termination_by wf.wrap e
decreasing_by assumption

namespace Model

variable {E : Type} (m : Model E)

/-- The elements above an element, the nearest first. -/
def ancestors (e : E) : List E := chain m.parent? m.parent_wf e

/-- The elements before an element, the nearest first. -/
def precedingSiblings (e : E) : List E := chain m.previousSibling? m.previousSibling_wf e

/-- The elements that a combinator relates to an element, the nearest first. -/
def related (m : Model E) : Combinator → E → List E
  | .descendant, e => m.ancestors e
  | .child, e => (m.parent? e).toList
  | .adjacentSibling, e => (m.previousSibling? e).toList
  | .generalSibling, e => m.precedingSiblings e

end Model

end StyleSelectors
