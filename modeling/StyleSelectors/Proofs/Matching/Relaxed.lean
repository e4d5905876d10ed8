/-
Relaxing a selector: children may become descendants, and adjacent siblings general ones, wherever
they stand. The relaxed selector matches whatever the strict one does (`Selector.holds_of_relaxes`). A
search for it goes through other candidates, and nearer ones first, so the two searches need not meet
anywhere on the way; what carries over from one to the other is what is reached
(`Selector.Relaxes.reaches`), not how it is found.
-/
import StyleSelectors.Document
import StyleSelectors.Proofs.Matching.Reach

namespace StyleSelectors

variable {E : Type} {m : Model E}

/-! ## Combinators -/

/-- Whether a combinator is the same as another or asks for one step where the other asks for any number. -/
inductive Combinator.Relaxes : Combinator → Combinator → Prop
  | refl (link : Combinator) : Relaxes link link
  | child : Relaxes .child .descendant
  | adjacentSibling : Relaxes .adjacentSibling .generalSibling

theorem Combinator.Relaxes.relates {link link' : Combinator} {b a : E} (h : link.Relaxes link')
    (hab : m.Relates link b a) : m.Relates link' b a := by
  cases h with
  | refl => exact hab
  | child => exact Relation.TransGen.single hab
  | adjacentSibling => exact Relation.TransGen.single hab

/-! ## Selectors -/

namespace Selector

/-- Whether a selector comes of another by relaxing any of its combinators. Where they were written does
not count. -/
inductive Relaxes : Selector → Selector → Prop
  | simple (s : Simple) : Relaxes (.simple s) (.simple s)
  | both (first : Simple) {second second' : Selector} {locator locator' : Option Locator}
    (h : Relaxes second second') : Relaxes (.both first second locator) (.both first second' locator')
  | related {link link' : Combinator} (first : Simple) {second second' : Selector} {locator locator' : Option Locator}
    (hlink : link.Relaxes link') (h : Relaxes second second') :
    Relaxes (.related link first second locator) (.related link' first second' locator')

theorem Relaxes.refl (s : Selector) : s.Relaxes s := by
  induction s with
  | simple s => exact .simple s
  | both first _ _ ih => exact .both first ih
  | related link first _ _ ih => exact .related first (.refl link) ih

/-- What is reached through a selector is reached through the relaxed one, from the same element. -/
theorem Relaxes.reaches {s s' : Selector} (h : s.Relaxes s') {e a : E} (ha : s.Reaches m e a) : s'.Reaches m e a := by
  induction h generalizing a with
  | simple s => exact ha
  | both first _ ih =>
    obtain ⟨rfl, hfirst, b, hb⟩ := ha
    exact ⟨rfl, hfirst, b, ih hb⟩
  | related first hlink _ ih =>
    obtain ⟨b, hb, hba, hfirst⟩ := ha
    exact ⟨b, ih hb, hlink.relates hba, hfirst⟩

/-- Relaxing a selector loses no match. -/
theorem holds_of_relaxes {s s' : Selector} (h : s.Relaxes s') (m : Model E) (e : E) (hs : s.holds m e = true) :
    s'.holds m e = true := by
  obtain ⟨a, ha⟩ := holds_iff_mem_anchors.1 hs
  have hreached : s'.Reaches m e a := h.reaches ((s.mem_anchors m e a).1 ha)
  exact holds_iff_mem_anchors.2 ⟨a, (s'.mem_anchors m e a).2 hreached⟩

end Selector

/-- Puts an element in under the one that was put in last. -/
def Document.deepen (d : Document) (tag : String) : Document :=
  d.append (if h : 0 < d.size then some ⟨d.size - 1, Nat.sub_one_lt_of_lt h⟩ else none) { tag }

/-- Two paragraphs, one inside of the other, of which only the outer one is right inside of a section that
is right inside of `main`. -/
def nestedParagraphs : Document :=
  ["main", "section", "p", "section", "b", "p", "span"].foldl Document.deepen .empty

def Simple.tag (name : String) : Simple := .type ⟨.any, name⟩

/-- `main > section`, related to `p span`. -/
def sectionPath (link : Combinator) : Selector :=
  .related .child (.tag "main") (.related link (.tag "section")
    (.related .descendant (.tag "p") (.simple (.tag "span")) none) none) none

theorem Selector.holds_of_relaxes_sectionPath :
    (sectionPath .child).Relaxes (sectionPath .descendant) ∧
      (sectionPath .child).holds nestedParagraphs.model 6 = true ∧
      (sectionPath .descendant).holds nestedParagraphs.model 6 = true := by
  have hrelaxes : (sectionPath .child).Relaxes (sectionPath .descendant) :=
    .related _ (.refl _) (.related _ .child (.refl _))
  have hup (i : Nat) (hi : i + 1 < 7) : nestedParagraphs.model.parent? (i + 1) = some i := by
    match i, hi with
    | 0, _ | 1, _ | 2, _ | 3, _ | 4, _ | 5, _ => rfl
  have hparagraph : nestedParagraphs.model.Relates .descendant 6 2 :=
    .head (hup 5 (by decide)) <| .head (hup 4 (by decide)) <| .head (hup 3 (by decide)) <| .single (hup 2 (by decide))
  have hreached : (sectionPath .child).Reaches nestedParagraphs.model 6 0 :=
    ⟨1, ⟨2, ⟨6, ⟨rfl, rfl⟩, hparagraph, rfl⟩, hup 1 (by decide), rfl⟩, hup 0 (by decide), rfl⟩
  have hholds := holds_iff_mem_anchors.2 ⟨0, (mem_anchors _ _ _ _).2 hreached⟩
  exact ⟨hrelaxes, hholds, holds_of_relaxes hrelaxes _ _ hholds⟩

end StyleSelectors
