/-
The one element type that a selector is bound to, where there is one: it matches no element of any
other. A group is bound to a type when every member is bound to that same one.
-/
import StyleSelectors.Selector.Basic

namespace StyleSelectors

def Simple.requiredType? : Simple → Option TypeName
  | .type t => some t
  | _ => none

/-- The subject's type; of two operands on the same element, the first that has one. -/
def Selector.requiredType? : Selector → Option TypeName
  | .simple s => s.requiredType?
  | .both first second _ => first.requiredType?.or second.requiredType?
  | .related _ _ second _ => second.requiredType?

def Group.requiredType? (g : Group) : Option TypeName :=
  g.first.requiredType?.filter fun t => g.others.all fun s => s.requiredType? == some t

end StyleSelectors
