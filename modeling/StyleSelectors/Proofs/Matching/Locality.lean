/-
What matching looks at: the element itself, what is above it and what is before it. Two models that
agree on a set of elements have the same anchors from each of them, so long as no parent and no previous
sibling leads out of the set (`Selector.anchors_congr`); what the models say of other elements, and of
what comes after, makes no difference. So nothing that is put into a document later changes what is
matched in it (`Document.Grows.agreeOn`). Both are told in `Model.matching_local`.
-/
import StyleSelectors.Document
import StyleSelectors.Matching.Winner
import StyleSelectors.Proofs.Matching.Anchors

namespace StyleSelectors

variable {E : Type} {m m' : Model E} {S : Set E} {e : E}

/-! ## Models that agree -/

namespace Model

/-- Whether neither parents nor previous siblings lead out of a set. -/
structure Closed (m : Model E) (S : Set E) : Prop where
  parent : ∀ e ∈ S, ∀ a, m.parent? e = some a → a ∈ S
  previousSibling : ∀ e ∈ S, ∀ a, m.previousSibling? e = some a → a ∈ S

/-- Whether two models give the same answers for the elements of a set. The lookup of attributes is left
out: matching asks for the tests alone. -/
structure AgreeOn (m m' : Model E) (S : Set E) : Prop where
  hasType : ∀ e ∈ S, m.hasType e = m'.hasType e
  hasId : ∀ e ∈ S, m.hasId e = m'.hasId e
  hasClass : ∀ e ∈ S, m.hasClass e = m'.hasClass e
  hasPseudoClass : ∀ e ∈ S, m.hasPseudoClass e = m'.hasPseudoClass e
  hasAttribute : ∀ e ∈ S, m.hasAttribute e = m'.hasAttribute e
  attributeEquals : ∀ e ∈ S, m.attributeEquals e = m'.attributeEquals e
  attributePasses : ∀ e ∈ S, ∀ op, m.attributePasses op e = m'.attributePasses op e
  parent? : ∀ e ∈ S, m.parent? e = m'.parent? e
  previousSibling? : ∀ e ∈ S, m.previousSibling? e = m'.previousSibling? e

namespace AgreeOn

variable {T : Set E} {m'' : Model E}

theorem refl (m : Model E) (S : Set E) : m.AgreeOn m S := by
  constructor <;> intros <;> rfl

theorem symm (h : m.AgreeOn m' S) : m'.AgreeOn m S where
  hasType e he := (h.hasType e he).symm
  hasId e he := (h.hasId e he).symm
  hasClass e he := (h.hasClass e he).symm
  hasPseudoClass e he := (h.hasPseudoClass e he).symm
  hasAttribute e he := (h.hasAttribute e he).symm
  attributeEquals e he := (h.attributeEquals e he).symm
  attributePasses e he op := (h.attributePasses e he op).symm
  parent? e he := (h.parent? e he).symm
  previousSibling? e he := (h.previousSibling? e he).symm

/-- What agrees with a second model on all of a set, and this one with a third on more than the set. -/
theorem trans (h : m.AgreeOn m' S) (h' : m'.AgreeOn m'' T) (hsub : S ⊆ T) : m.AgreeOn m'' S where
  hasType e he := (h.hasType e he).trans (h'.hasType e (hsub he))
  hasId e he := (h.hasId e he).trans (h'.hasId e (hsub he))
  hasClass e he := (h.hasClass e he).trans (h'.hasClass e (hsub he))
  hasPseudoClass e he := (h.hasPseudoClass e he).trans (h'.hasPseudoClass e (hsub he))
  hasAttribute e he := (h.hasAttribute e he).trans (h'.hasAttribute e (hsub he))
  attributeEquals e he := (h.attributeEquals e he).trans (h'.attributeEquals e (hsub he))
  attributePasses e he op := (h.attributePasses e he op).trans (h'.attributePasses e (hsub he) op)
  parent? e he := (h.parent? e he).trans (h'.parent? e (hsub he))
  previousSibling? e he := (h.previousSibling? e he).trans (h'.previousSibling? e (hsub he))

end AgreeOn

end Model

/-! ## Walks -/

section Walk

variable {step step' : E → Option E} {wf : WellFounded fun a b => step b = some a}
  {wf' : WellFounded fun a b => step' b = some a}

/-- Step by step, a set that no step leads out of is never left. -/
theorem stepwise_subset (hS : ∀ e ∈ S, ∀ a, step e = some a → a ∈ S) (he : e ∈ S) : ∀ a ∈ stepwise wf e, a ∈ S := by
  induction e using wf.induction with
  | _ e ih =>
    rw [stepwise_eq]
    cases hstep : step e with
    | none => exact List.forall_mem_nil _
    | some b =>
      have hb := hS e he b hstep
      exact List.forall_mem_cons.2 ⟨hb, ih b hstep hb⟩

/-- Steps that are the same in such a set lead to the same. -/
theorem stepwise_congr (hS : ∀ e ∈ S, ∀ a, step e = some a → a ∈ S) (hstep : ∀ e ∈ S, step e = step' e) (he : e ∈ S) :
    stepwise wf e = stepwise wf' e := by
  induction e using wf.induction with
  | _ e ih =>
    rw [stepwise_eq, stepwise_eq wf', ← hstep e he]
    cases hnext : step e with
    | none => rfl
    | some b => exact congrArg (b :: ·) (ih b hnext (hS e he b hnext))

end Walk

namespace Model

theorem walk_subset (hS : m.Closed S) (link : Combinator) (he : e ∈ S) : ∀ a ∈ m.walk link e, a ∈ S := by
  cases link with
  | descendant => exact stepwise_subset hS.parent he
  | child => exact fun a ha => hS.parent e he a (Option.mem_toList.1 ha)
  | adjacentSibling => exact fun a ha => hS.previousSibling e he a (Option.mem_toList.1 ha)
  | generalSibling => exact stepwise_subset hS.previousSibling he

theorem walk_congr (hS : m.Closed S) (h : m.AgreeOn m' S) (link : Combinator) (he : e ∈ S) :
    m.walk link e = m'.walk link e := by
  cases link with
  | descendant => exact stepwise_congr hS.parent h.parent? he
  | child => exact congrArg Option.toList (h.parent? e he)
  | adjacentSibling => exact congrArg Option.toList (h.previousSibling? e he)
  | generalSibling => exact stepwise_congr hS.previousSibling h.previousSibling? he

end Model

/-! ## Selectors -/

theorem AttributeSelector.holds_congr (h : m.AgreeOn m' S) (he : e ∈ S) (a : AttributeSelector) :
    a.holds m e = a.holds m' e := by
  unfold holds
  rw [h.hasAttribute e he, h.attributeEquals e he]
  simp only [h.attributePasses e he]

theorem Simple.holds_congr (h : m.AgreeOn m' S) (he : e ∈ S) (s : Simple) : s.holds m e = s.holds m' e := by
  induction s with
  | universal | nothing => rfl
  | type t => exact congrFun₂ (h.hasType e he) t.ns t.name
  | id name => exact congrFun (h.hasId e he) name
  | className name => exact congrFun (h.hasClass e he) name
  | pseudoClass name | function name _ => exact congrFun (h.hasPseudoClass e he) name
  | negation inner ih => exact congrArg (!·) ih
  | attr a => exact a.holds_congr h he

namespace Selector

/-- Anchors never leave the set that the search starts in. -/
theorem anchors_subset (hS : m.Closed S) (he : e ∈ S) (s : Selector) : ∀ a ∈ s.anchors m e, a ∈ S := by
  induction s with
  | simple s | both first second _ =>
    intro a ha
    rw [anchors] at ha
    split at ha
    · rwa [List.mem_singleton.1 ha]
    · cases ha
  | related link first second _ ih =>
    intro a ha
    obtain ⟨b, hb, ha⟩ := List.mem_flatMap.1 ha
    exact m.walk_subset hS link (ih b hb) a (List.mem_filter.1 ha).1

/-- Models that agree on a closed set have the same anchors from its elements. -/
theorem anchors_congr (hS : m.Closed S) (h : m.AgreeOn m' S) (he : e ∈ S) (s : Selector) :
    s.anchors m e = s.anchors m' e := by
  induction s with
  | simple s => rw [anchors, anchors, s.holds_congr h he]
  | both first second _ ih => rw [anchors, anchors, first.holds_congr h he, ih]
  | related link first second _ ih =>
    rw [anchors, anchors, ← ih, List.flatMap_def, List.flatMap_def]
    refine congrArg List.flatten (List.map_congr_left fun b hb => ?_)
    -- each walk starts at an anchor of the second operand, which is still in the set
    have hb := anchors_subset hS he second b hb
    rw [← m.walk_congr hS h link hb]
    exact List.filter_congr fun a ha => first.holds_congr h (m.walk_subset hS link hb a ha)

theorem match?_congr (hS : m.Closed S) (h : m.AgreeOn m' S) (he : e ∈ S) (s : Selector) :
    s.match? m e = s.match? m' e := by
  rw [match?_eq_head?, match?_eq_head?, anchors_congr hS h he]

end Selector

/-! ## Groups -/

namespace Group

theorem winnerFrom_congr {members : List Selector} (h : ∀ s ∈ members, s.holds m e = s.holds m' e)
    (best : Option Winner) (index : Nat) : winnerFrom m e best index members = winnerFrom m' e best index members := by
  induction members generalizing best index with
  | nil => rfl
  | cons s rest ih =>
    obtain ⟨hs, hrest⟩ := List.forall_mem_cons.1 h
    rw [winnerFrom, winnerFrom, ih hrest, better, better, hs]

/-- Which member is selected depends only on which members match. -/
theorem select_congr {g : Group} (h : ∀ s ∈ g.members, s.holds m e = s.holds m' e) : g.select m e = g.select m' e := by
  rw [select, select, winner?, winner?, winnerFrom_congr h]

end Group

namespace Model

/-- Whether all selectors and groups come to the same in two models when they are matched against `e`. -/
structure SameAt (m m' : Model E) (e : E) : Prop where
  match? : ∀ s : Selector, s.match? m e = s.match? m' e
  matchGroup? : ∀ g : Group, g.match? m e = g.match? m' e
  select : ∀ g : Group, g.select m e = g.select m' e

theorem AgreeOn.sameAt (h : m.AgreeOn m' S) (hS : m.Closed S) (he : e ∈ S) : m.SameAt m' e where
  match? := Selector.match?_congr hS h he
  matchGroup? g := by
    unfold Group.match?
    simp only [Selector.match?_congr hS h he]
  select _ := Group.select_congr fun s _ => congrArg Option.isSome (s.match?_congr hS h he)

end Model

/-! ## Documents that grow -/

namespace Document

/-- Whether a document comes of another by putting elements in. -/
inductive Grows (d : Document) : Document → Prop
  | refl : Grows d d
  | append {d' : Document} (h : Grows d d') (parent : Option (Fin d'.size)) (data : ElementData) :
    Grows d (d'.append parent data)

/-- What is in a document leads to what was put in before it. -/
theorem closed_model (d : Document) (n : Nat) : d.model.Closed {i | i < n} where
  parent _ hi _ ha := Nat.lt_trans (parent?_lt ha) hi
  previousSibling _ hi _ ha := Nat.lt_trans (previousSibling?_lt ha) hi

theorem agreeOn_append (d : Document) (parent : Option (Fin d.size)) (data : ElementData) :
    d.model.AgreeOn (d.append parent data).model {i | i < d.size} := by
  have hdata (i : Nat) (hi : i < d.size) : (d.append parent data).data? i = d.data? i :=
    (answers_append hi parent data).1
  have hattribute (i : Nat) (hi : i < d.size) : (d.append parent data).attribute? i = d.attribute? i := by
    funext ns name
    rw [attribute?, hdata i hi, attribute?]
  constructor
  case hasType | hasId | hasClass | hasPseudoClass =>
    intro i hi
    simp only [model, hdata i hi]
  case hasAttribute | attributeEquals =>
    intro i hi
    funext
    simp only [model, Lookup.has, Lookup.equals, hattribute i hi]
  case attributePasses =>
    intro i hi op
    funext
    simp only [model, Lookup.passes, hattribute i hi]
  case parent? => exact fun i hi => (answers_append hi parent data).2.1.symm
  case previousSibling? => exact fun i hi => (answers_append hi parent data).2.2.symm

namespace Grows

variable {d d' : Document}

theorem size_le (h : d.Grows d') : d.size ≤ d'.size := by
  induction h with
  | refl => exact Nat.le_refl _
  | append _ _ _ ih =>
    rw [size_append]
    exact Nat.le_succ_of_le ih

/-- However a document grows, its model answers as before for what was there. -/
theorem agreeOn (h : d.Grows d') : d.model.AgreeOn d'.model {i | i < d.size} := by
  induction h with
  | refl => exact .refl _ _
  | @append d' hd parent data ih =>
    exact ih.trans (agreeOn_append d' parent data) fun _ hi => Nat.lt_of_lt_of_le hi hd.size_le

end Grows

end Document

/-- Models that agree on a set out of which neither parents nor previous siblings lead come to the same
for each element of the set, whatever is matched against it. So does a document for each of its
elements, however it grows. -/
theorem Model.matching_local :
    (∀ {E : Type} (m m' : Model E) (S : Set E), m.Closed S → m.AgreeOn m' S → ∀ e ∈ S, m.SameAt m' e) ∧
      ∀ d d' : Document, d.Grows d' → ∀ i < d.size, d.model.SameAt d'.model i :=
  ⟨fun _ _ _ hS h _ he => h.sameAt hS he, fun d _ h _ hi => h.agreeOn.sameAt (d.closed_model d.size) hi⟩

/-- A list of one item. -/
def itemAlone : Document :=
  (Document.empty.append none { tag := "ul" }).append (some ⟨0, Nat.one_pos⟩) { tag := "li" }

/-- The list with a second item. -/
def itemFollowed : Document := itemAlone.append (some ⟨0, Nat.two_pos⟩) { tag := "li", classes := ["a"] }

/-- The list with a paragraph after it, which is no item. -/
def itemAside : Document := itemAlone.append none { tag := "p" }

/-- `:not(.a)` inside of `ul`. -/
def itemUnmarked : Selector := .related .child (.type ⟨.any, "ul"⟩) (.simple (.negation (.className "a"))) none

theorem Model.matching_local_itemFollowed :
    itemFollowed.model.Closed {i | i < 2} ∧ itemFollowed.model.AgreeOn itemAside.model {i | i < 2} ∧
      itemUnmarked.match? itemFollowed.model 1 = some 0 ∧
      itemUnmarked.match? itemFollowed.model 1 = itemUnmarked.match? itemAside.model 1 ∧
      itemAlone.Grows itemFollowed ∧
      itemUnmarked.match? itemAlone.model 1 = itemUnmarked.match? itemFollowed.model 1 :=
  have hclosed := itemFollowed.closed_model 2
  have hagree := (Document.agreeOn_append itemAlone _ _).symm.trans (Document.agreeOn_append itemAlone _ _)
    fun _ hi => hi
  have hgrows : itemAlone.Grows itemFollowed := .append .refl _ _
  ⟨hclosed, hagree, rfl, (matching_local.1 _ _ _ hclosed hagree 1 Nat.one_lt_two).match? itemUnmarked, hgrows,
    (matching_local.2 _ _ hgrows 1 Nat.one_lt_two).match? itemUnmarked⟩

end StyleSelectors
