/-
Selectors that nothing tells apart: they match the same elements of every model and weigh the same.
Locators make no difference, and neither does reading a selector back part by part; but a name
without a namespace is another one once it has joined what comes before it.
-/
import StyleSelectors.Proofs.Matching.Anchors
import StyleSelectors.Proofs.Selector.Reread
import StyleSelectors.Selector.Specificity

namespace StyleSelectors

variable {E : Type}

/-! ## Parts -/

namespace Simple

theorem holds_reread (m : Model E) (e : E) (s : Simple) : s.reread.holds m e = s.holds m e := by
  induction s with
  | negation inner ih => exact congrArg (!·) ih
  | _ => rfl

theorem specificity_reread (s : Simple) : s.reread.specificity = s.specificity := by
  induction s with
  | negation inner ih => exact ih
  | _ => rfl

end Simple

/-! ## Selectors -/

namespace Selector

/-- Two selectors that match the same elements and weigh the same. -/
structure Alike (s t : Selector) : Prop where
  specificity : s.specificity = t.specificity
  weight : s.weight = t.weight
  holds : ∀ {E : Type} (m : Model E) (e : E), s.holds m e = t.holds m e

namespace Alike

variable {r s t : Selector}

theorem symm (h : s.Alike t) : t.Alike s := ⟨h.specificity.symm, h.weight.symm, fun m e => (h.holds m e).symm⟩

theorem trans (h : r.Alike s) (h' : s.Alike t) : r.Alike t :=
  ⟨h.specificity.trans h'.specificity, h.weight.trans h'.weight, fun m e => (h.holds m e).trans (h'.holds m e)⟩

end Alike

theorem anchors_erase (m : Model E) (s : Selector) (e : E) : s.erase.anchors m e = s.anchors m e := by
  induction s with
  | simple s => rfl
  | both first second _ ih | related link first second _ ih => rw [erase, anchors, anchors, ih]

/-- Locators make no difference. -/
theorem alike_erase (s : Selector) : s.erase.Alike s := by
  refine ⟨?_, ?_, fun m e => congrArg Option.isSome (match?_congr_anchors (s.anchors_erase m e))⟩
  · induction s with
    | simple s => rfl
    | both first second _ ih | related link first second _ ih => exact congrArg (first.specificity + ·) ih
  · induction s with
    | simple s => rfl
    | both first second _ ih | related link first second _ ih => exact congrArg (first.weight + ·) ih

theorem anchors_map {m : Model E} {f : Simple → Simple} (hf : ∀ e p, (f p).holds m e = p.holds m e) (s : Selector)
    (e : E) : (s.map f).anchors m e = s.anchors m e := by
  have hpart (p : Simple) : (fun e => (f p).holds m e) = fun e => p.holds m e := funext fun e => hf e p
  induction s with
  | simple s => rw [map, anchors, anchors, hf]
  | both first second _ ih => rw [map, anchors, anchors, hf, ih]
  | related link first second _ ih => rw [map, anchors, anchors, ih, hpart]

/-- A selector read back part by part is like it was. -/
theorem alike_map_reread (s : Selector) : (s.map Simple.reread).Alike s := by
  have hweight (p : Simple) : p.reread.weight = p.weight := congrArg Specificity.value p.specificity_reread
  refine ⟨?_, ?_, fun m e => congrArg Option.isSome (match?_congr_anchors ?_)⟩
  · induction s with
    | simple s => exact s.specificity_reread
    | both first second _ ih | related link first second _ ih =>
      rw [map, specificity, specificity, first.specificity_reread, ih]
  · induction s with
    | simple s => exact hweight s
    | both first second _ ih | related link first second _ ih => rw [map, weight, weight, hweight, ih]
  · exact anchors_map (fun e p => p.holds_reread m e) s e

/-- Where no two parts join, a selector that is read back is like it was. -/
theorem alike_reread_of_isApart {s : Selector} (h : s.isLayered = true) (hapart : s.isApart = true) :
    s.reread.Alike s := by
  rw [reread_of_isApart h hapart]
  exact (alike_erase _).trans s.alike_map_reread

/-! ## Parts that join -/

/-- A document of one element, whose names are all in some namespace. -/
def namespaced : Model Unit where
  hasType _ ns _ := ns != .absent
  hasId _ _ := false
  hasClass _ _ := false
  hasPseudoClass _ _ := false
  attribute? _ _ _ := none
  parent? _ := none
  previousSibling? _ := none
  parent_wf := ⟨fun a => ⟨a, nofun⟩⟩
  previousSibling_wf := ⟨fun a => ⟨a, nofun⟩⟩

/-- Two parts that join ask for no namespace before they are read back, and for one afterwards. -/
theorem not_alike_of_joined {s t u : Simple} (h : s.joined? t = some u) (locator : Option Locator) :
    ¬ (both s (.simple t) locator).reread.Alike (both s (.simple t) locator) := by
  intro halike
  have hholds := halike.holds namespaced ()
  rw [reread, parts, Simple.rereadAll, h] at hholds
  unfold Simple.joined? at h
  split at h
  · cases h
    cases hholds
  · cases h
    cases hholds
  · cases h

end Selector

end StyleSelectors
