/-
The anchors of a selector as a list: all elements that the outermost operand may match on the way
from an element, the nearest first. A search hands the anchors to what calls it back one after the
other and stops at the first that is taken (`search_eq_findM?`), whatever is asked of them, whatever
state the asking leaves behind and however the combinators nest. So what a combinator has kept when
the search for its second operand stops belongs to the call that was taken.
-/
import StyleSelectors.Matching.Search
import Mathlib.Logic.Relation

namespace StyleSelectors

variable {E : Type}

/-! ## Walks -/

/-- What one step after the other leads to, to the end. -/
def stepwise {step : E → Option E} (wf : WellFounded fun a b => step b = some a) : E → List E :=
  wf.fix fun b next => (step b).pelim [] fun a h => a :: next a h

theorem stepwise_eq {step : E → Option E} (wf : WellFounded fun a b => step b = some a) (e : E) :
    stepwise wf e = (step e).elim [] fun a => a :: stepwise wf a := by
  rw [stepwise, WellFounded.fix_eq, Option.pelim_eq_elim]

/-- What is on the walk from an element along a combinator, the nearest first: one parent or previous
sibling, or one after the other to the end. -/
def Model.walk (m : Model E) : Combinator → E → List E
  | .descendant => stepwise m.parent_wf
  | .child => fun b => (m.parent? b).toList
  | .adjacentSibling => fun b => (m.previousSibling? b).toList
  | .generalSibling => stepwise m.previousSibling_wf

theorem chain_eq_stepwise (step : E → Option E) (wf : WellFounded fun a b => step b = some a) (e : E) :
    chain step wf e = stepwise wf e := by
  induction e using wf.induction with
  | _ e ih =>
    rw [chain, stepwise_eq]
    split
    · next h => rw [h, Option.elim_none]
    · next a h => rw [h, Option.elim_some, ih a h]

/-- What a combinator relates to an element is what is on the walk. -/
theorem Model.related_eq_walk (m : Model E) (link : Combinator) (b : E) : m.related link b = m.walk link b := by
  cases link with
  | descendant => exact chain_eq_stepwise m.parent? m.parent_wf b
  | child | adjacentSibling => rfl
  | generalSibling => exact chain_eq_stepwise m.previousSibling? m.previousSibling_wf b

/-- A walk holds what one or more steps lead to. -/
theorem mem_stepwise {step : E → Option E} (wf : WellFounded fun a b => step b = some a) (e a : E) :
    a ∈ stepwise wf e ↔ Relation.TransGen (fun b c => step b = some c) e a := by
  induction e using wf.induction with
  | _ e ih =>
    rw [stepwise_eq, Relation.TransGen.head'_iff]
    cases hs : step e with
    | none => simp
    | some b =>
      simp only [Option.elim_some, List.mem_cons, Option.some.injEq, exists_eq_left']
      rw [ih b hs, Relation.reflTransGen_iff_eq_or_transGen]

/-! ## Calling back along a list -/

section Calls

variable {α σ : Type} (accept : α → StateM σ Bool)

theorem run_findM?_cons (a : α) (xs : List α) (s : σ) :
    ((a :: xs).findM? accept).run s =
      if ((accept a).run s).1 then (some a, ((accept a).run s).2)
      else (xs.findM? accept).run ((accept a).run s).2 := by
  rw [List.findM?, StateT.run_bind]
  cases h : (accept a).run s with
  | mk taken s' => cases taken <;> rfl

/-- A search along two lists goes on with the second, and what is left behind, if nothing in the first is taken. -/
theorem run_findM?_append (xs ys : List α) (s : σ) :
    ((xs ++ ys).findM? accept).run s =
      match (xs.findM? accept).run s with
      | (some a, s) => (some a, s)
      | (none, s) => (ys.findM? accept).run s := by
  induction xs generalizing s with
  | nil => rfl
  | cons x xs ih =>
    rw [List.cons_append, run_findM?_cons, run_findM?_cons]
    split
    · rfl
    · exact ih _

/-- What does not pass a test need not be asked. -/
theorem run_findM?_filter (p : α → Bool) (xs : List α) (s : σ) :
    ((xs.filter p).findM? accept).run s = (xs.findM? fun a => if p a then accept a else return false).run s := by
  induction xs generalizing s with
  | nil => rfl
  | cons x xs ih =>
    rw [run_findM?_cons, List.filter_cons]
    cases p x with
    | false => exact ih s
    | true =>
      rw [if_pos rfl, if_pos rfl, run_findM?_cons, ih]

/-- What takes whatever passes a test leaves nothing behind. -/
theorem run_findM?_pure (p : α → Bool) (xs : List α) :
    (Id.run <| (xs.findM? fun a => (return p a : StateM Unit Bool)).run ()).1 = xs.find? p := by
  rw [List.findM?_pure]
  rfl

end Calls

/-! ## Anchors -/

namespace Selector

/-- The elements that the outermost first operand matches on the way from `e`, the nearest first. -/
def anchors (m : Model E) : Selector → E → List E
  | .simple s, e => if s.holds m e then [e] else []
  | .both first second _, e => if first.holds m e && !(second.anchors m e).isEmpty then [e] else []
  | .related link first second _, e =>
    (second.anchors m e).flatMap fun b => (m.walk link b).filter (first.holds m)

variable {σ : Type}

theorem itself_eq (accept : E → StateM σ Bool) (e : E) : itself accept e = [e].findM? accept := by
  funext s
  change (itself accept e).run s = ([e].findM? accept).run s
  rw [itself, run_findM?_cons, StateT.run_bind]
  cases (accept e).run s with
  | mk taken s' => cases taken <;> rfl

theorem run_visit (m : Model E) (link : Combinator) (first : Simple) (accept : E → StateM σ Bool) (b : E)
    (kept : Option E) (s : σ) :
    (visit m link first accept b).run (kept, s) =
      match (((m.walk link b).filter (first.holds m)).findM? accept).run s with
      | (found, s) => (found.isSome, found, s) := by
  rw [run_findM?_filter, ← m.related_eq_walk]
  rfl

/-- What is kept when the starts have been gone through is the first on the walks from them that is taken.
It is the last call's, since a call that keeps something is the last; what was kept before it is lost. -/
theorem run_findM?_visit (m : Model E) (link : Combinator) (first : Simple) (accept : E → StateM σ Bool) (bs : List E)
    (kept : Option E) (s : σ) :
    (match (bs.findM? (visit m link first accept)).run (kept, s) with
      | (reached, kept, s) => (reached.bind fun _ => kept, s)) =
      ((bs.flatMap fun b => (m.walk link b).filter (first.holds m)).findM? accept).run s := by
  induction bs generalizing kept s with
  | nil => rfl
  | cons b bs ih =>
    rw [List.flatMap_cons, run_findM?_append, run_findM?_cons, run_visit]
    cases h : (((m.walk link b).filter (first.holds m)).findM? accept).run s with
    | mk found s' =>
      cases found with
      | some a => rfl
      | none => exact ih none s'

/-- A search goes through the anchors, whatever is asked of them and whatever this leaves behind. -/
theorem search_eq_findM? (m : Model E) (s : Selector) (accept : E → StateM σ Bool) (e : E) :
    s.search m accept e = (s.anchors m e).findM? accept := by
  induction s generalizing σ with
  | simple s =>
    rw [search, anchors]
    split
    · exact itself_eq accept e
    · rfl
  | both first second _ ih =>
    -- the second operand is searched for any anchor at all
    have hany : (Id.run ((second.search m always e).run ())).1.isSome = !(second.anchors m e).isEmpty := by
      rw [ih]
      refine (congrArg Option.isSome (run_findM?_pure (fun _ => true) (second.anchors m e))).trans ?_
      cases second.anchors m e <;> rfl
    rw [search, anchors, hany]
    split
    · exact itself_eq accept e
    · rfl
  | related link first second _ ih =>
    funext state
    rw [search, ih]
    exact run_findM?_visit m link first accept (second.anchors m e) none state

/-! ## The first anchor -/

theorem findAnchor?_eq_find? (m : Model E) (s : Selector) (e : E) (accept : E → Bool) :
    s.findAnchor? m e accept = (s.anchors m e).find? accept := by
  rw [findAnchor?, search_eq_findM?]
  exact run_findM?_pure accept (s.anchors m e)

theorem match?_eq_head? (m : Model E) (s : Selector) (e : E) : s.match? m e = (s.anchors m e).head? := by
  rw [match?, findAnchor?_eq_find?]
  cases s.anchors m e <;> rfl

/-- Selectors with the same anchors have the same matches. -/
theorem match?_congr_anchors {m : Model E} {s t : Selector} {e : E} (h : s.anchors m e = t.anchors m e) :
    s.match? m e = t.match? m e := by
  rw [match?_eq_head?, match?_eq_head?, h]

/-- A selector matches where it has an anchor. -/
theorem holds_iff_mem_anchors {m : Model E} {s : Selector} {e : E} : s.holds m e = true ↔ ∃ a, a ∈ s.anchors m e := by
  rw [holds, match?_eq_head?, List.isSome_head?]
  constructor
  · exact List.exists_mem_of_ne_nil _
  · rintro ⟨a, ha⟩
    exact List.ne_nil_of_mem ha

end Selector

theorem Group.match?_eq_bind (m : Model E) (g : Group) (e : E) :
    g.match? m e = (g.members.find? fun s => s.holds m e).bind fun s => s.match? m e := by
  rw [match?]
  induction g.members with
  | nil => rfl
  | cons s ss ih =>
    rw [List.findSome?_cons, List.find?_cons, Selector.holds]
    cases h : s.match? m e with
    | none => exact ih
    | some a => exact h.symm

/-- A search that calls back, and whose calls may keep a state of any kind, goes through the anchors up to the
first that is taken, and no further. So it results in the first anchor that passes a test, a match in the
nearest anchor, and a group in the nearest anchor of its first member that matches. The walks of the anchors
are one parent or previous sibling, or step by step to the end. -/
theorem Selector.first_anchor (m : Model E) :
    (∀ (s : Selector) {σ : Type} (accept : E → StateM σ Bool) (e : E),
        s.search m accept e = (s.anchors m e).findM? accept) ∧
      (∀ (s : Selector) (e : E) (accept : E → Bool), s.findAnchor? m e accept = (s.anchors m e).find? accept) ∧
      (∀ (s : Selector) (e : E), s.match? m e = (s.anchors m e).head?) ∧
      (∀ (g : Group) (e : E),
        g.match? m e = (g.members.find? fun s => s.holds m e).bind fun s => (s.anchors m e).head?) ∧
      (∀ e : E, m.walk .child e = (m.parent? e).toList) ∧
      (∀ e : E, m.walk .adjacentSibling e = (m.previousSibling? e).toList) ∧
      (∀ e : E, m.walk .descendant e = (m.parent? e).elim [] fun a => a :: m.walk .descendant a) ∧
      ∀ e : E, m.walk .generalSibling e = (m.previousSibling? e).elim [] fun a => a :: m.walk .generalSibling a := by
  refine ⟨fun s _ => s.search_eq_findM? m, fun s e => s.findAnchor?_eq_find? m e, fun s e => s.match?_eq_head? m e, ?_,
    fun _ => rfl, fun _ => rfl, ?_, ?_⟩
  · intro g e
    simp only [g.match?_eq_bind, match?_eq_head?]
  · exact fun e => stepwise_eq m.parent_wf e
  · exact fun e => stepwise_eq m.previousSibling_wf e

end StyleSelectors
