/-
The type that a selector is bound to is one that every element it matches has
(`hasType_of_holds`). So a selector bound to a type may be left aside for an element of any other.
It is the first type among the parts that are asked of the element itself, wherever in the tree they
stand, and that of a group is the one that all members share: `requiredType?_sound`.
-/
import StyleSelectors.Document
import StyleSelectors.Proofs.Matching.Reach
import StyleSelectors.Selector.RequiredType

namespace StyleSelectors

variable {E : Type}

/-! ## Selectors -/

theorem Simple.hasType_of_holds {m : Model E} {e : E} {s : Simple} {t : TypeName}
    (ht : s.requiredType? = some t) (h : s.holds m e = true) : m.hasType e t.ns t.name = true := by
  cases s <;> cases ht
  exact h

/-- What reaches anything through a selector has the type that the selector is bound to. -/
theorem Selector.hasType_of_reaches {m : Model E} {e : E} {s : Selector} {t : TypeName}
    (ht : s.requiredType? = some t) : ∀ {a : E}, s.Reaches m e a → m.hasType e t.ns t.name = true := by
  induction s with
  | simple s =>
    rintro a ⟨rfl, h⟩
    exact Simple.hasType_of_holds ht h
  | both first second _ ih =>
    rintro a ⟨rfl, hfirst, b, hb⟩
    rcases Option.or_eq_some_iff.1 ht with h | ⟨-, h⟩
    · exact Simple.hasType_of_holds h hfirst
    · exact ih h hb
  | related _ first second _ ih =>
    rintro a ⟨b, hb, -, -⟩
    exact ih ht hb

theorem Selector.hasType_of_holds {m : Model E} {e : E} {s : Selector} {t : TypeName}
    (ht : s.requiredType? = some t) (h : s.holds m e = true) : m.hasType e t.ns t.name = true := by
  obtain ⟨a, ha⟩ := (s.holds_iff_reaches m e).1 h
  exact hasType_of_reaches ht ha

/-- The parts that are asked of the element itself, and not of one that it is related to. -/
def Selector.ownParts : Selector → List Simple
  | .simple s => [s]
  | .both first second _ => first :: second.ownParts
  | .related _ _ second _ => second.ownParts

/-- A selector is bound to the first type that is asked of the element itself. -/
theorem Selector.requiredType?_eq_findSome? (s : Selector) :
    s.requiredType? = s.ownParts.findSome? Simple.requiredType? := by
  induction s with
  | simple s => rw [requiredType?, ownParts, List.findSome?_singleton]
  | both first second _ ih =>
    rw [requiredType?, ownParts, List.findSome?_cons, ih]
    cases first.requiredType? <;> rfl
  | related _ _ second _ ih => exact ih

/-! ## Groups -/

namespace Group

/-- A group is bound to a type exactly if all its members are bound to it. -/
theorem requiredType?_eq_some_iff {g : Group} {t : TypeName} :
    g.requiredType? = some t ↔ ∀ s ∈ g.members, s.requiredType? = some t := by
  rw [requiredType?, Option.filter_eq_some_iff, members, List.forall_mem_cons, List.all_eq_true]
  simp only [beq_iff_eq]

/-- The order of the members has no bearing on the type. -/
theorem requiredType?_of_perm {g h : Group} (hperm : g.members.Perm h.members) :
    g.requiredType? = h.requiredType? := by
  refine Option.ext fun t => ?_
  rw [requiredType?_eq_some_iff, requiredType?_eq_some_iff]
  exact forall_congr' fun s => imp_congr_left hperm.mem_iff

theorem hasType_of_holds {m : Model E} {e : E} {g : Group} {t : TypeName} (ht : g.requiredType? = some t)
    (h : g.holds m e = true) : m.hasType e t.ns t.name = true := by
  obtain ⟨s, hs, hholds⟩ := holds_iff_exists.1 h
  exact Selector.hasType_of_holds (requiredType?_eq_some_iff.1 ht s hs) hholds

end Group

/-- Whatever a selector or a group matches has the type that it is bound to. A selector is bound to the
first type that is asked of the element itself, and a group, in whatever order its members are, to the
type that each of them is bound to. -/
theorem Group.requiredType?_sound (m : Model E) :
    (∀ (s : Selector) (t : TypeName) (e : E),
        s.requiredType? = some t → s.holds m e = true → m.hasType e t.ns t.name = true) ∧
      (∀ s : Selector, s.requiredType? = s.ownParts.findSome? Simple.requiredType?) ∧
      (∀ (g : Group) (t : TypeName), g.requiredType? = some t ↔ ∀ s ∈ g.members, s.requiredType? = some t) ∧
      (∀ (g : Group) (t : TypeName) (e : E),
        g.requiredType? = some t → g.holds m e = true → m.hasType e t.ns t.name = true) ∧
      ∀ g h : Group, g.members.Perm h.members → g.requiredType? = h.requiredType? :=
  ⟨fun _ _ _ => Selector.hasType_of_holds, Selector.requiredType?_eq_findSome?,
    fun _ _ => requiredType?_eq_some_iff, fun _ _ _ => hasType_of_holds, fun _ _ => requiredType?_of_perm⟩

/-- A list with one item. -/
def listWithItem : Document :=
  (Document.empty.append none { tag := "ul" }).append (some ⟨0, Nat.one_pos⟩) { tag := "li", classes := ["item"] }

/-- `ul > .item` and `li` at once, with the type on the side of the subject. -/
def itemOfList : Selector :=
  .related .child (.type ⟨.any, "ul"⟩) (.both (.className "item") (.simple (.type ⟨.any, "li"⟩)) none) none

theorem Group.requiredType?_sound_listWithItem :
    itemOfList.requiredType? = some ⟨.any, "li"⟩ ∧ itemOfList.holds listWithItem.model 1 = true ∧
      listWithItem.model.hasType 1 .any "li" = true ∧
      (Group.mk itemOfList [.simple (.type ⟨.any, "li"⟩)] none).requiredType? = some ⟨.any, "li"⟩ ∧
      (Group.mk (.simple (.type ⟨.any, "li"⟩)) [itemOfList] none).requiredType? = some ⟨.any, "li"⟩ :=
  have hsound := Group.requiredType?_sound listWithItem.model
  ⟨rfl, rfl, hsound.1 itemOfList ⟨.any, "li"⟩ 1 rfl rfl, rfl,
    hsound.2.2.2.2 ⟨.simple (.type ⟨.any, "li"⟩), [itemOfList], none⟩ ⟨itemOfList, [.simple (.type ⟨.any, "li"⟩)], none⟩
      (.swap _ _ _)⟩

end StyleSelectors
