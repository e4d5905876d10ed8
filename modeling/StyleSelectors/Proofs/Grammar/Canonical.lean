/-
Trees that their own text tells, part by part: no arguments that the text would have to repeat, no
two parts that would come back as one, no dashes that would close markup. The text of such a group
reads as that group, with what nothing matches spelt out as the negation of everything.
-/
import StyleSelectors.Proofs.Grammar.GroupReadBack
import StyleSelectors.Selector.Equality

namespace StyleSelectors

open Text

/-! ## Canonical trees -/

namespace Simple

/-- Names that identifiers can have, strings without NUL, and pseudo-classes that are no function,
in lower case, and no pseudo-element with a single colon. -/
def Canonical : Simple → Prop
  | .universal | .nothing => True
  | .type t => t.ns.Legible ∧ IsName t.name
  | .id name | .className name => IsName name
  | .pseudoClass name =>
    IsName name ∧ name.toList.any Char.isUpper = false ∧ name ∉ ["before", "after", "first-line", "first-letter"]
  | .function _ _ => False
  | .negation inner => inner.Canonical
  | .attr a => a.Legible

instance decidableCanonical : DecidablePred Canonical
  | .universal | .nothing => .isTrue trivial
  | .type t => inferInstanceAs (Decidable (t.ns.Legible ∧ IsName t.name))
  | .id name | .className name => inferInstanceAs (Decidable (IsName name))
  | .pseudoClass name => inferInstanceAs (Decidable (IsName name ∧ name.toList.any Char.isUpper = false ∧ name ∉ _))
  | .function _ _ => .isFalse nofun
  | .negation inner => decidableCanonical inner
  | .attr a => inferInstanceAs (Decidable a.Legible)

/-- A simple selector with what nothing matches spelt out. -/
def spellOut : Simple → Simple
  | .nothing => .negation .universal
  | .negation inner => .negation inner.spellOut
  | s => s

end Simple

/-- A selector of canonical parts, layered, in which no two parts join and no dashes close markup. -/
structure Selector.Canonical (s : Selector) : Prop where
  parts : ∀ p ∈ s.parts, p.Canonical
  isLayered : s.isLayered = true
  isApart : s.isApart = true
  isOpen : s.closesMarkup = false

instance (s : Selector) : Decidable s.Canonical :=
  decidable_of_iff
    ((∀ p ∈ s.parts, p.Canonical) ∧ s.isLayered = true ∧ s.isApart = true ∧ s.closesMarkup = false)
    ⟨fun ⟨parts, layered, apart, isOpen⟩ => ⟨parts, layered, apart, isOpen⟩,
      fun ⟨parts, layered, apart, isOpen⟩ => ⟨parts, layered, apart, isOpen⟩⟩

def Selector.spellOut (s : Selector) : Selector := s.map Simple.spellOut

namespace Group

def Canonical (g : Group) : Prop := ∀ s ∈ g.members, s.Canonical

instance (g : Group) : Decidable g.Canonical := inferInstanceAs (Decidable (∀ s ∈ g.members, s.Canonical))

def spellOut (g : Group) : Group := ⟨g.first.spellOut, g.others.map Selector.spellOut, g.locator⟩

end Group

/-! ## Reading them back -/

namespace Simple

variable {s : Simple}

theorem Canonical.legible (h : s.Canonical) : s.Legible := by
  induction s with
  | pseudoClass name =>
    obtain ⟨hname, hlower, hmodern⟩ := h
    exact ⟨hname, lower_of_no_upper (by simpa using hlower), hmodern⟩
  | function name arguments => exact h.elim
  | negation inner ih => exact ih h
  | universal | nothing => trivial
  | type _ | id _ | className _ | attr _ => exact h

theorem Canonical.reread (h : s.Canonical) : s.reread = s.spellOut := by
  induction s with
  | function name arguments => exact h.elim
  | negation inner ih => exact congrArg Simple.negation (ih h)
  | _ => rfl

end Simple

theorem Selector.Canonical.legible {s : Selector} (h : s.Canonical) : s.Legible := fun p hp =>
  (h.parts p hp).legible

theorem Selector.Canonical.reread {s : Selector} (h : s.Canonical) : s.reread = s.spellOut.erase := by
  rw [reread_of_isApart h.isLayered h.isApart, spellOut, map_congr fun p hp => (h.parts p hp).reread]

namespace Group

variable {g : Group}

theorem members_spellOut (g : Group) : g.spellOut.members = g.members.map Selector.spellOut := rfl

theorem Canonical.readable (h : g.Canonical) : g.Readable where
  legible s hs := by
    rw [(h s hs).legible.printed]
    exact (h s hs).legible
  isLayered s hs := (h s hs).isLayered

/-- The text of a canonical group reads as that group, with what nothing matches spelt out. -/
theorem parse_css_of_canonical (h : g.Canonical) :
    ∃ r, (Group.parse g.css).result = .ok r ∧ (r == g.spellOut) = true := by
  obtain ⟨r, hr, hmembers⟩ := parse_css h.readable fun s hs => (h s hs).isOpen
  refine ⟨r, hr, (beq_iff_erase r g.spellOut).2 ?_⟩
  rw [hmembers, members_spellOut, List.map_map]
  apply List.map_congr_left
  intro s hs
  rw [(h s hs).legible.printed]
  exact (h s hs).reread

/-- A name that starts with a digit, a quote in a string, and nothing inside a negation. -/
def quotedItem : Group :=
  ⟨.related .child (.type ⟨.named "svg", "1st"⟩)
    (.both .universal
      (.both (.attr ⟨.absent, "title", .matching .start "\"\n"⟩) (.simple (.negation .nothing)) none) none)
    none,
    [.both (.id "--") (.both (.pseudoClass "link") (.simple .nothing) none) none], none⟩

theorem parse_css_quotedItem :
    quotedItem.Canonical ∧ ∃ r, (Group.parse quotedItem.css).result = .ok r ∧ (r == quotedItem.spellOut) = true := by
  have hcanonical : quotedItem.Canonical := by decide
  exact ⟨hcanonical, parse_css_of_canonical hcanonical⟩

end Group

end StyleSelectors
