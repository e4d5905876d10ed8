/-
Rules filed by the element type that their selector is bound to, so that an element meets only the
rules of its own type and those bound to none. What matches comes in the order of the cascade: by
the value of the specificity, and then by insertion. Filing a rule adds it at one place and leaves
all else as it was (`bound_insert`, `unbound_insert`).
-/
import StyleSelectors.Matching.Search
import StyleSelectors.Selector.RequiredType
import StyleSelectors.Selector.Specificity
import Std.Data.HashMap

namespace StyleSelectors

variable {E R : Type}

/-- A rule and its selector as they are filed. -/
structure Filed (R : Type) where
  selector : Selector
  rule : R
  specificity : Specificity
  /-- How many rules were filed before it. -/
  order : Nat

/-- The order of the cascade. -/
def Filed.before (a b : Filed R) : Bool :=
  a.specificity.value < b.specificity.value || (a.specificity.value == b.specificity.value && a.order ≤ b.order)

/-- Rules by the local name of the type their selector is bound to. -/
structure RuleIndex (R : Type) where
  byName : Std.HashMap String (Array (Filed R))
  /-- The rules whose selector is bound to no type. -/
  unbound : Array (Filed R)
  size : Nat

namespace RuleIndex

def empty : RuleIndex R := ⟨∅, #[], 0⟩

def isEmpty (x : RuleIndex R) : Bool := x.size == 0

/-- Files a rule under its selector. -/
def insert (x : RuleIndex R) (s : Selector) (rule : R) : RuleIndex R :=
  let filed : Filed R := ⟨s, rule, s.specificity, x.size⟩
  match s.requiredType? with
  | some t => { x with byName := x.byName.alter t.name fun b => some ((b.getD #[]).push filed), size := x.size + 1 }
  | none => { x with unbound := x.unbound.push filed, size := x.size + 1 }

/-- The rules bound to a type of that local name, in the order they were filed. -/
def bound (x : RuleIndex R) (name : String) : List (Filed R) := (x.byName.getD name #[]).toList

/-- What may match an element of a type: what is bound to it, and then what is bound to none. -/
def candidates (x : RuleIndex R) (name : String) : List (Filed R) := x.bound name ++ x.unbound.toList

/-- The rules whose selector matches an element of a type, in the order of the cascade. -/
def matching (x : RuleIndex R) (m : Model E) (e : E) (name : String) : List (Filed R) :=
  ((x.candidates name).filter fun f => f.selector.holds m e).mergeSort Filed.before

/-! ## What filing a rule changes -/

@[simp] theorem size_insert (x : RuleIndex R) (s : Selector) (rule : R) : (x.insert s rule).size = x.size + 1 := by
  unfold insert
  split <;> rfl

@[simp] theorem bound_empty (name : String) : (empty : RuleIndex R).bound name = [] := by simp [bound, empty]

/-- A rule joins those of its type, as the last of them. -/
theorem bound_insert (x : RuleIndex R) (s : Selector) (rule : R) (name : String) :
    (x.insert s rule).bound name =
      x.bound name ++
        if s.requiredType?.map TypeName.name = some name then [⟨s, rule, s.specificity, x.size⟩] else [] := by
  unfold insert bound
  split
  · next t ht =>
    by_cases hn : t.name = name
    · subst hn
      simp [ht, ← Std.HashMap.getD_eq_getD_getElem?]
    · simp [ht, hn, Std.HashMap.getD_alter]
  · next ht => simp [ht]

/-- A rule bound to no type joins the others bound to none, as the last of them. -/
theorem unbound_insert (x : RuleIndex R) (s : Selector) (rule : R) :
    (x.insert s rule).unbound.toList =
      x.unbound.toList ++ if s.requiredType? = none then [⟨s, rule, s.specificity, x.size⟩] else [] := by
  unfold insert
  split <;> next h => simp [h]

end RuleIndex

end StyleSelectors
