/-
What a selector means, told as a relation between elements and without any search: an element
reaches another through a selector if the selector's operands can be laid along the document from
one to the other. A selector matches an element exactly if the element reaches some other through
it (`holds_iff_reaches`): matching finds nothing that is not there, and misses nothing.
-/
import StyleSelectors.Proofs.Matching.Anchors

namespace StyleSelectors

variable {E : Type}

/-! ## Relations -/

/-- Whether a combinator relates `a` to `b`: one step for a child and an adjacent sibling, one or
more for a descendant and a general sibling. -/
def Model.Relates (m : Model E) : Combinator → E → E → Prop
  | .descendant, b, a => Relation.TransGen (fun x y => m.parent? x = some y) b a
  | .child, b, a => m.parent? b = some a
  | .adjacentSibling, b, a => m.previousSibling? b = some a
  | .generalSibling, b, a => Relation.TransGen (fun x y => m.previousSibling? x = some y) b a

/-- Whether `e` reaches `a` through a selector. -/
def Selector.Reaches (m : Model E) : Selector → E → E → Prop
  | .simple s, e, a => a = e ∧ s.holds m e = true
  | .both first second _, e, a => a = e ∧ first.holds m e = true ∧ ∃ b, second.Reaches m e b
  | .related link first second _, e, a =>
    ∃ b, second.Reaches m e b ∧ m.Relates link b a ∧ first.holds m a = true

theorem Model.mem_walk (m : Model E) (link : Combinator) (b a : E) : a ∈ m.walk link b ↔ m.Relates link b a := by
  cases link with
  | descendant => exact mem_stepwise m.parent_wf b a
  | child | adjacentSibling => exact Option.mem_toList
  | generalSibling => exact mem_stepwise m.previousSibling_wf b a

/-! ## Anchors are what is reached -/

theorem Selector.mem_anchors (m : Model E) (s : Selector) (e a : E) :
    a ∈ s.anchors m e ↔ s.Reaches m e a := by
  induction s generalizing a with
  | simple s => cases h : s.holds m e <;> simp [anchors, Reaches, h]
  | both first second _ ih =>
    have hne : (!(second.anchors m e).isEmpty) = true ↔ ∃ b, second.Reaches m e b := by
      rw [Bool.not_eq_true', List.isEmpty_eq_false_iff_exists_mem]
      exact exists_congr ih
    rw [anchors, Reaches, ← hne, ← Bool.and_eq_true]
    split <;> next h => simp [h]
  | related link first second _ ih =>
    simp only [anchors, Reaches, List.mem_flatMap, List.mem_filter, m.mem_walk, ih]

/-- A selector matches exactly the elements that reach something through it. -/
theorem Selector.holds_iff_reaches (m : Model E) (s : Selector) (e : E) :
    s.holds m e = true ↔ ∃ a, s.Reaches m e a :=
  holds_iff_mem_anchors.trans (exists_congr (s.mem_anchors m e))

end StyleSelectors
