/-
What a selector must be like for its text to say it: names that identifiers can have, strings
without the character that no text shows, pseudo-classes as they are told apart, and arguments that
stay inside their brackets. All that is read is so, but for namespaces that options give and
arguments that break out, and what is built by hand may be.
-/
import StyleSelectors.Grammar.Item
import StyleSelectors.Selector.Printer

namespace StyleSelectors

open Text

/-- A name that an identifier can have. -/
def IsName (name : String) : Prop := name ≠ "" ∧ nul ∉ name.toList

instance (name : String) : Decidable (IsName name) := inferInstanceAs (Decidable (_ ∧ _))

/-- A string that a text can show. -/
def IsShown (value : String) : Prop := nul ∉ value.toList

instance (value : String) : Decidable (IsShown value) := inferInstanceAs (Decidable (¬ _))

def Namespace.Legible : Namespace → Prop
  | .any | .absent => True
  | .named label => IsName label

instance : DecidablePred Namespace.Legible
  | .any | .absent => .isTrue trivial
  | .named label => inferInstanceAs (Decidable (IsName label))

def ValueTest.Legible : ValueTest → Prop
  | .present => True
  | .equals operand | .matching _ operand => IsShown operand

instance : DecidablePred ValueTest.Legible
  | .present => .isTrue trivial
  | .equals operand | .matching _ operand => inferInstanceAs (Decidable (IsShown operand))

structure AttributeSelector.Legible (a : AttributeSelector) : Prop where
  ns : a.ns.Legible
  name : IsName a.name
  test : a.test.Legible

instance (a : AttributeSelector) : Decidable a.Legible :=
  decidable_of_iff (a.ns.Legible ∧ IsName a.name ∧ a.test.Legible)
    ⟨fun ⟨ns, name, test⟩ => ⟨ns, name, test⟩, fun ⟨ns, name, test⟩ => ⟨ns, name, test⟩⟩

namespace Simple

/-- The text of a function with its arguments, as it is written. -/
def functionText (name arguments : String) : List Char :=
  Token.serialize (.function name :: closedTokens arguments ++ [.closing .round])

/-- Whether the text of a function reads as that function, up to its last bracket. -/
def staysClosed (name arguments : String) : Bool :=
  match Component.ofChars (functionText name arguments) with
  | [.block head _ (some _)] => head.token == .function name
  | _ => false

/-- A pseudo-class that is told by its name alone. -/
structure IsPseudoClass (name : String) : Prop where
  isName : IsName name
  lower : lower name = name
  modern : name ∉ Cursor.legacyPseudoElements

/-- A pseudo-class with arguments. -/
structure IsFunction (name arguments : String) : Prop where
  isName : IsName name
  lower : lower name = name
  ne_not : name ≠ "not"
  closed : staysClosed name arguments = true

/-- Whether a simple selector can be told from its text. -/
def Legible : Simple → Prop
  | .universal | .nothing => True
  | .type t => t.ns.Legible ∧ IsName t.name
  | .id name | .className name => IsName name
  | .pseudoClass name => IsPseudoClass name
  | .function name arguments => IsFunction name arguments
  | .negation inner => inner.Legible
  | .attr a => a.Legible

/-- Whether the arguments in a simple selector stay inside their brackets. -/
def isClosed : Simple → Bool
  | .function name arguments => staysClosed name arguments
  | .negation inner => inner.isClosed
  | _ => true

/-- Whether the text of a simple selector ends in two dashes that are a name. -/
def dashed : Simple → Bool
  | .type t => t.name == "--"
  | .className name | .pseudoClass name => name == "--"
  | _ => false

end Simple

namespace Selector

/-- Whether every part can be told from its text. -/
def Legible (s : Selector) : Prop := ∀ p ∈ s.parts, p.Legible

/-- Whether two dashes come before `>` somewhere: they read as the end of markup. -/
def closesMarkup : Selector → Bool
  | .simple _ => false
  | .both _ second _ => second.closesMarkup
  | .related link first second _ => link == .child && first.dashed || second.closesMarkup

end Selector

end StyleSelectors
