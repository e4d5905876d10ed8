/-
Matching a selector against an element. A search calls back with the elements that the outermost
first operand may match, the nearest first, until one is taken; what calls it back may keep a state.
A combinator searches its second operand, and what it calls back with is a start: it keeps the nearest
element on the way from there that is taken itself, and says whether there is one. The anchor that a
match results in is what the outermost combinator has kept, or the element itself if nothing relates
it to another.
-/
import StyleSelectors.Matching.Model

namespace StyleSelectors

variable {E : Type}

/-! ## Simple selectors -/

def AttributeSelector.holds (m : Model E) (e : E) (a : AttributeSelector) : Bool :=
  match a.test with
  | .present => m.hasAttribute e a.ns a.name
  | .equals operand => m.attributeEquals e a.ns a.name operand
  | .matching op operand => m.attributePasses op e a.ns a.name operand

/-- Whether a simple selector matches an element. -/
def Simple.holds (m : Model E) (e : E) : Simple → Bool
  | .universal => true
  | .type t => m.hasType e t.ns t.name
  | .id name => m.hasId e name
  | .className name => m.hasClass e name
  | .pseudoClass name => m.hasPseudoClass e name
  | .function name _ => m.hasPseudoClass e name
  | .negation inner => !inner.holds m e
  | .attr a => a.holds m e
  | .nothing => false

/-! ## Selectors -/

namespace Selector

/-- The element itself, if it is taken. -/
def itself {σ : Type} (accept : E → StateM σ Bool) (e : E) : StateM σ (Option E) := do
  return if ← accept e then some e else none

/-- Whether anything related to `start` is taken. The first that is, or that none is, is kept in place
of what was kept for the start before. -/
def visit (m : Model E) (link : Combinator) (first : Simple) {σ : Type} (accept : E → StateM σ Bool) (start : E) :
    StateM (Option E × σ) Bool := do
  let (_, s) ← get
  let (kept, s) := Id.run <| ((m.related link start).findM? fun a =>
    if first.holds m a then accept a else return false).run s
  set (kept, s)
  return kept.isSome

/-- Takes whatever comes first. -/
def always (_ : E) : StateM Unit Bool := return true

/-- The first anchor of a selector from `e` that `accept` takes. Whether the second operand of a compound
matches does not hang on `accept`, which is asked only once both operands match. -/
def search (m : Model E) : Selector → {σ : Type} → (E → StateM σ Bool) → E → StateM σ (Option E)
  | .simple s, _, accept, e => if s.holds m e then itself accept e else return none
  | .both first second _, _, accept, e =>
    if first.holds m e && (Id.run <| (second.search m always e).run ()).1.isSome then itself accept e
    else return none
  | .related link first second _, _, accept, e => do
    let (reached, kept, s) := Id.run <| (second.search m (visit m link first accept) e).run (none, ← get)
    set s
    return reached.bind fun _ => kept

/-- The first anchor of a selector from `e` that passes a test. -/
def findAnchor? (m : Model E) (s : Selector) (e : E) (accept : E → Bool) : Option E :=
  (Id.run <| (s.search m (fun a => (return accept a : StateM Unit Bool)) e).run ()).1

/-- The anchor of a match, if the selector matches `e`. -/
def match? (m : Model E) (s : Selector) (e : E) : Option E := s.findAnchor? m e fun _ => true

/-- Whether a selector matches an element. -/
def holds (m : Model E) (s : Selector) (e : E) : Bool := (s.match? m e).isSome

end Selector

/-! ## Groups -/

namespace Group

/-- The anchor of the first member that matches. -/
def match? (m : Model E) (g : Group) (e : E) : Option E := g.members.findSome? fun s => s.match? m e

/-- Whether any member matches. -/
def holds (m : Model E) (g : Group) (e : E) : Bool := (g.match? m e).isSome

/-- A group matches what one of its members does. -/
theorem holds_iff_exists {m : Model E} {g : Group} {e : E} :
    g.holds m e = true ↔ ∃ s ∈ g.members, s.holds m e = true := List.findSome?_isSome_iff

theorem holds_eq_false_iff {m : Model E} {g : Group} {e : E} :
    g.holds m e = false ↔ ∀ s ∈ g.members, s.holds m e = false := by
  rw [← Bool.not_eq_true, holds_iff_exists]
  simp

end Group

end StyleSelectors
