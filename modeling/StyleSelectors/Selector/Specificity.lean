/-
How much a selector weighs in the cascade. A specificity counts ids, classes with attributes, and
types with pseudo-classes, each up to the greatest word; its value is `100a + 10b + c`. A selector's
weight adds up the values of its parts instead, so it goes on where the counts stop.
-/
import StyleSelectors.Selector.Basic

namespace StyleSelectors

/-! ## Counts -/

structure Specificity where
  ids : UInt16
  classes : UInt16
  types : UInt16
deriving DecidableEq, Repr

/-- A sum that stops at the greatest word. -/
def saturatingAdd (a b : UInt16) : UInt16 := if a.toNat + b.toNat < 0x10000 then a + b else 0xFFFF

namespace Specificity

def zero : Specificity := ⟨0, 0, 0⟩
def oneId : Specificity := ⟨1, 0, 0⟩
def oneClass : Specificity := ⟨0, 1, 0⟩
def oneType : Specificity := ⟨0, 0, 1⟩

def add (s t : Specificity) : Specificity :=
  ⟨saturatingAdd s.ids t.ids, saturatingAdd s.classes t.classes, saturatingAdd s.types t.types⟩

instance : Add Specificity := ⟨add⟩

/-- The three counts as one number. -/
def value (s : Specificity) : UInt32 :=
  100 * s.ids.toUInt32 + 10 * s.classes.toUInt32 + s.types.toUInt32

/-- Ids count first, then classes, then types. -/
instance : Ord Specificity where
  compare s t := ((compare s.ids t.ids).then (compare s.classes t.classes)).then (compare s.types t.types)

end Specificity

/-! ## Selectors -/

def Simple.specificity : Simple → Specificity
  | .universal => .zero
  | .type _ => .oneType
  | .id _ => .oneId
  | .className _ => .oneClass
  | .pseudoClass _ => .oneType
  | .function _ _ => .oneType
  | .negation inner => inner.specificity
  | .attr _ => .oneClass
  | .nothing => .zero

def Simple.weight (s : Simple) : UInt32 := s.specificity.value

namespace Selector

def specificity : Selector → Specificity
  | .simple s => s.specificity
  | .both first second _ => first.specificity + second.specificity
  | .related _ first second _ => first.specificity + second.specificity

def weight : Selector → UInt32
  | .simple s => s.weight
  | .both first second _ => first.weight + second.weight
  | .related _ first second _ => first.weight + second.weight

end Selector

/-- The weight of all members together. -/
def Group.weight (g : Group) : UInt32 := (g.members.map Selector.weight).foldr (· + ·) 0

end StyleSelectors
