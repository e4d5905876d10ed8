/-
What a selector turns into when its text is read back. What nothing matches comes back as the
negation of what everything does, and arguments as they are written; but where a part may take a
namespace sign and a name without a namespace comes next, the two come back as one name.
-/
import StyleSelectors.Grammar.Complex
import StyleSelectors.Proofs.Grammar.Spelt

namespace StyleSelectors

/-! ## Parts -/

namespace Simple

/-- A simple selector read back by itself. -/
def reread : Simple → Simple
  | .nothing => .negation .universal
  | .negation inner => .negation inner.reread
  | .function name arguments => .function name (rereadArguments arguments)
  | s => s

/-- The name that two simple selectors, one right after the other, read back as. -/
def joined? : Simple → Simple → Option Simple
  | .universal, .type ⟨.absent, name⟩ => some (.type ⟨.any, name⟩)
  | .type ⟨.any, label⟩, .type ⟨.absent, name⟩ => some (.type ⟨.named label, name⟩)
  | _, _ => none

/-- Simple selectors on the same element, read back. -/
def rereadAll : List Simple → List Simple
  | s :: t :: rest =>
    match joined? s t with
    | some u => u :: rereadAll rest
    | none => s.reread :: rereadAll (t :: rest)
  | [s] => [s.reread]
  | [] => []

/-- Whether a namespace sign right after a simple selector would be taken to belong to it. -/
def takesBar : Simple → Bool
  | .universal => true
  | .type t => t.ns == .any
  | _ => false

/-- Whether a simple selector starts with a namespace sign. -/
def startsBar : Simple → Bool
  | .type t => t.ns == .absent
  | _ => false

theorem joined?_eq_none_iff {s t : Simple} : joined? s t = none ↔ (s.takesBar && t.startsBar) = false := by
  unfold joined?
  split
  · simp [takesBar, startsBar]
  · simp [takesBar, startsBar]
  · next huniversal htype =>
    simp only [true_iff, Bool.and_eq_false_iff]
    rcases t with _ | ⟨_ | _ | _, name⟩ | _ | _ | _ | _ | _ | _ | _
    case type.absent =>
      left
      rcases s with _ | ⟨_ | _ | _, label⟩ | _ | _ | _ | _ | _ | _ | _
      case universal => exact absurd rfl (huniversal name rfl)
      case type.any => exact absurd rfl (htype label name rfl)
      all_goals rfl
    all_goals exact .inr rfl

theorem rereadAll_cons_ne_nil (s : Simple) (ss : List Simple) : rereadAll (s :: ss) ≠ [] := by
  cases ss with
  | nil => exact List.cons_ne_nil _ _
  | cons t rest =>
    rw [rereadAll]
    split
    · exact List.cons_ne_nil _ _
    · exact List.cons_ne_nil _ _

theorem reread_ne_nothing (s : Simple) : s.reread ≠ .nothing := by
  cases s <;> exact nofun

end Simple

/-! ## Whole selectors -/

namespace Selector

/-- Whether a selector is of simple selectors on the same element. -/
def isCompound : Selector → Bool
  | .simple _ => true
  | .both _ second _ => second.isCompound
  | .related _ _ _ _ => false

/-- Whether no combinator stands inside operands on the same element. -/
def isLayered : Selector → Bool
  | .simple _ => true
  | .both _ second _ => second.isCompound
  | .related _ _ second _ => second.isLayered

/-- Simple selectors on the same element, if there are any. -/
def ofParts : List Simple → Selector
  | [] => .simple .nothing
  | s :: ss => .conjunction none s ss

/-- A selector read back. -/
def reread : Selector → Selector
  | .simple s => .simple s.reread
  | .both first second _ => ofParts (Simple.rereadAll (first :: second.parts))
  | .related link first second _ => .related link first.reread second.reread none

theorem reread_of_isCompound {s : Selector} (h : s.isCompound = true) :
    s.reread = ofParts (Simple.rereadAll s.parts) := by
  cases s with
  | simple s => rfl
  | both first second _ => rfl
  | related link first second _ => cases h

theorem erase_conjunction (locator : Option Locator) (s : Simple) (ss : List Simple) :
    (conjunction locator s ss).erase = conjunction none s ss := by
  induction ss generalizing s with
  | nil => rfl
  | cons t ss ih => rw [conjunction, erase, ih, conjunction]

theorem isCompound_map (f : Simple → Simple) (s : Selector) : (s.map f).isCompound = s.isCompound := by
  induction s with
  | simple s => rfl
  | both first second _ ih => exact ih
  | related link first second _ _ => rfl

theorem isLayered_map (f : Simple → Simple) (s : Selector) : (s.map f).isLayered = s.isLayered := by
  induction s with
  | simple s => rfl
  | both first second _ _ => exact isCompound_map f second
  | related link first second _ ih => exact ih

theorem ofParts_parts {s : Selector} (h : s.isCompound = true) : ofParts s.parts = s.erase := by
  induction s with
  | simple s => rfl
  | both first second _ ih =>
    rw [erase, ← ih h, parts, parts_eq_head_cons]
    rfl
  | related link first second _ _ => cases h

/-- Whether no name without a namespace comes right after what would take its sign. -/
def isApart : Selector → Bool
  | .simple _ => true
  | .both first second _ => !(first.takesBar && second.head.startsBar) && second.isApart
  | .related _ _ second _ => second.isApart

theorem rereadAll_parts {s : Selector} (h : s.isCompound = true) (hapart : s.isApart = true) :
    Simple.rereadAll s.parts = s.parts.map Simple.reread := by
  induction s with
  | simple s => rfl
  | both first second _ ih =>
    rw [isApart, Bool.and_eq_true, Bool.not_eq_true'] at hapart
    obtain ⟨hfirst, hsecond⟩ := hapart
    have ih := ih h hsecond
    rw [parts, parts_eq_head_cons, Simple.rereadAll, Simple.joined?_eq_none_iff.2 hfirst, ← parts_eq_head_cons]
    exact congrArg (first.reread :: ·) ih
  | related link first second _ _ => cases h

/-- Where no two parts join, a selector is read back part by part. -/
theorem reread_of_isApart {s : Selector} (h : s.isLayered = true) (hapart : s.isApart = true) :
    s.reread = (s.map Simple.reread).erase := by
  induction s with
  | simple s => rfl
  | both first second locator _ =>
    have hcompound : (both first second locator).isCompound = true := h
    rw [reread_of_isCompound hcompound, rereadAll_parts hcompound hapart, ← parts_map, ofParts_parts]
    rw [isCompound_map]
    exact hcompound
  | related link first second _ ih =>
    rw [reread, ih h hapart]
    rfl

end Selector

end StyleSelectors
