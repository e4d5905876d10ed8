/-
A model that is easier on attribute values: case does not count where a whole value is compared,
an empty attribute is as good as none, and the other operators get their operand in lower case.
-/
import StyleSelectors.Matching.Model

namespace StyleSelectors

open Text

/-- The model `m` with the lenient tests on attributes. -/
def Model.lenient {E : Type} (m : Model E) : Model E where
  hasType := m.hasType
  hasId := m.hasId
  hasClass := m.hasClass
  hasPseudoClass := m.hasPseudoClass
  attribute? := m.attribute?
  parent? := m.parent?
  previousSibling? := m.previousSibling?
  hasAttribute e ns name := (m.attribute? e ns name).any (· != "")
  attributeEquals e ns name operand := (m.attribute? e ns name).any (sameIgnoringCase · operand)
  attributePasses op e ns name operand := m.attribute?.passes op e ns name (lower operand)
  parent_wf := m.parent_wf
  previousSibling_wf := m.previousSibling_wf

end StyleSelectors
