/-
What the specificity and the weight of a selector count. A simple selector adds to one digit or to
none, and each digit of a specificity is the number of parts that add to it, up to the greatest word
(`digit_specificity`); the weight goes on counting beyond that (`toNat_weight`). So the two are one
number as long as no digit has reached its end (`weight_eq_value`), and beyond it the weight is greater,
until it comes to its own end: `specificity_counts`.
-/
import Mathlib.Algebra.Ring.Nat
import StyleSelectors.Selector.Specificity

namespace StyleSelectors

/-! ## Digits -/

/-- The three things that are counted. -/
inductive Digit where
  | ids
  | classes
  | types
deriving DecidableEq, Repr

namespace Specificity

def digit (t : Specificity) : Digit → UInt16
  | .ids => t.ids
  | .classes => t.classes
  | .types => t.types

theorem toNat_saturatingAdd (a b : UInt16) : (saturatingAdd a b).toNat = min 65535 (a.toNat + b.toNat) := by
  unfold saturatingAdd
  split
  · next h => rw [UInt16.toNat_add, Nat.mod_eq_of_lt h]; omega
  · next h =>
    have : (0xFFFF : UInt16).toNat = 65535 := rfl
    omega

theorem digit_add (s t : Specificity) (d : Digit) :
    ((s + t).digit d).toNat = min 65535 ((s.digit d).toNat + (t.digit d).toNat) := by
  cases d <;> exact toNat_saturatingAdd _ _

theorem toNat_value (t : Specificity) :
    t.value.toNat = 100 * (t.digit .ids).toNat + 10 * (t.digit .classes).toNat + (t.digit .types).toNat := by
  have hids := t.ids.toNat_lt
  have hclasses := t.classes.toNat_lt
  have htypes := t.types.toNat_lt
  simp only [value, digit, UInt32.toNat_add, UInt32.toNat_mul, UInt16.toNat_toUInt32, UInt32.reduceToNat]
  omega

/-- A sum that has stopped stays where it is, so that only the whole matters. -/
theorem digit_foldl_add (t : Specificity) (ts : List Specificity) (d : Digit) :
    ((ts.foldl (· + ·) t).digit d).toNat = min 65535 ((t.digit d).toNat + (ts.map fun u => (u.digit d).toNat).sum) := by
  induction ts generalizing t with
  | nil =>
    have hlt := (t.digit d).toNat_lt
    rw [List.foldl_nil, List.map_nil, List.sum_nil]
    omega
  | cons u ts ih =>
    rw [List.foldl_cons, ih, digit_add, List.map_cons, List.sum_cons]
    omega

/-- Specificities add up to the same in any order. -/
theorem digit_sum_of_perm {ts us : List Specificity} (hperm : us.Perm ts) (d : Digit) :
    ((us.foldl (· + ·) zero).digit d).toNat = min 65535 (ts.map fun t => (t.digit d).toNat).sum := by
  have hzero : (zero.digit d).toNat = 0 := by cases d <;> rfl
  rw [digit_foldl_add, hzero, Nat.zero_add, (hperm.map _).sum_nat]

end Specificity

/-! ## Simple selectors -/

namespace Simple

/-- What a simple selector counts as; a negation counts as what is negated. -/
def digit? : Simple → Option Digit
  | .universal => none
  | .type _ => some .types
  | .id _ => some .ids
  | .className _ => some .classes
  | .pseudoClass _ => some .types
  | .function _ _ => some .types
  | .negation inner => inner.digit?
  | .attr _ => some .classes
  | .nothing => none

theorem digit_specificity (s : Simple) (d : Digit) :
    (s.specificity.digit d).toNat = if s.digit? = some d then 1 else 0 := by
  induction s with
  | negation inner ih => exact ih
  | _ => cases d <;> rfl

end Simple

/-! ## Selectors -/

namespace Selector

/-- How many parts of a selector count as one thing. -/
def count (s : Selector) (d : Digit) : Nat := s.parts.countP fun p => p.digit? = some d

/-- The three counts as one number, without an end. -/
def total (s : Selector) : Nat := 100 * s.count .ids + 10 * s.count .classes + s.count .types

@[simp] theorem count_simple (p : Simple) (d : Digit) :
    (simple p).count d = if p.digit? = some d then 1 else 0 := by
  simp [count, parts, List.countP_singleton]

@[simp] theorem count_both (p : Simple) (s : Selector) (l : Option Locator) (d : Digit) :
    (both p s l).count d = s.count d + if p.digit? = some d then 1 else 0 := by
  simp [count, parts, List.countP_cons]

@[simp] theorem count_related (link : Combinator) (p : Simple) (s : Selector) (l : Option Locator) (d : Digit) :
    (related link p s l).count d = s.count d + if p.digit? = some d then 1 else 0 := by
  simp [count, parts, List.countP_cons]

theorem total_both (p : Simple) (s : Selector) (l : Option Locator) :
    (both p s l).total = (simple p).total + s.total := by
  simp only [total, count_both, count_simple]
  omega

theorem total_related (link : Combinator) (p : Simple) (s : Selector) (l : Option Locator) :
    (related link p s l).total = (simple p).total + s.total := by
  simp only [total, count_related, count_simple]
  omega

/-- A sum that has stopped goes on from there as the whole sum does. -/
theorem digit_add_of_digit {p : Simple} {s : Selector} {d : Digit}
    (ih : (s.specificity.digit d).toNat = min 65535 (s.count d)) :
    ((p.specificity + s.specificity).digit d).toNat =
      min 65535 (s.count d + if p.digit? = some d then 1 else 0) := by
  rw [Specificity.digit_add, ih, p.digit_specificity]
  omega

theorem digit_specificity (s : Selector) (d : Digit) :
    (s.specificity.digit d).toNat = min 65535 (s.count d) := by
  induction s with
  | simple p =>
    rw [specificity, p.digit_specificity, count_simple]
    split <;> rfl
  | both p s l ih => exact (digit_add_of_digit ih).trans (by rw [count_both])
  | related link p s l ih => exact (digit_add_of_digit ih).trans (by rw [count_related])

theorem toNat_value_specificity (s : Selector) :
    s.specificity.value.toNat =
      100 * min 65535 (s.count .ids) + 10 * min 65535 (s.count .classes) + min 65535 (s.count .types) := by
  simp only [Specificity.toNat_value, digit_specificity]

theorem toNat_weight_simple (p : Simple) : p.weight.toNat = (simple p).total := by
  simp only [Simple.weight, Specificity.toNat_value, Simple.digit_specificity, total, count_simple]

/-- One more part adds its own weight. -/
theorem toNat_weight_add {p : Simple} {s : Selector} (ih : s.weight.toNat = s.total % UInt32.size) :
    (p.weight + s.weight).toNat = ((simple p).total + s.total) % UInt32.size := by
  rw [UInt32.toNat_add, toNat_weight_simple, ih]
  exact Nat.add_mod_mod ..

theorem toNat_weight (s : Selector) : s.weight.toNat = s.total % UInt32.size := by
  induction s with
  | simple p =>
    have := p.weight.toNat_lt
    rw [weight, toNat_weight_simple] at *
    exact (Nat.mod_eq_of_lt this).symm
  | both p s l ih => exact (toNat_weight_add ih).trans (by rw [total_both])
  | related link p s l ih => exact (toNat_weight_add ih).trans (by rw [total_related])

/-- Until a count reaches its end, the weight is the value of the specificity. -/
theorem weight_eq_value {s : Selector} (h : ∀ d, s.count d ≤ 65535) : s.weight = s.specificity.value := by
  have hids := h .ids
  have hclasses := h .classes
  have htypes := h .types
  apply UInt32.toNat_inj.1
  rw [toNat_weight, toNat_value_specificity, total, UInt32.size]
  omega

/-- Where a count has reached its end, the weight is greater, if it has not reached its own. -/
theorem value_lt_weight_iff {s : Selector} (h : s.total < UInt32.size) :
    s.specificity.value < s.weight ↔ ∃ d, 65535 < s.count d := by
  rw [UInt32.lt_iff_toNat_lt, toNat_weight, Nat.mod_eq_of_lt h, toNat_value_specificity, total]
  constructor
  · intro hlt
    have hone : 65535 < s.count .ids ∨ 65535 < s.count .classes ∨ 65535 < s.count .types := by omega
    rcases hone with hd | hd | hd
    · exact ⟨.ids, hd⟩
    · exact ⟨.classes, hd⟩
    · exact ⟨.types, hd⟩
  · rintro ⟨d, hd⟩
    cases d <;> omega

theorem weight_eq_value_iff {s : Selector} (h : s.total < UInt32.size) :
    s.weight = s.specificity.value ↔ ∀ d, s.count d ≤ 65535 := by
  refine ⟨fun heq d => Nat.le_of_not_lt fun hd => ?_, weight_eq_value⟩
  have hlt := (value_lt_weight_iff h).2 ⟨d, hd⟩
  rw [heq] at hlt
  exact UInt32.lt_irrefl _ hlt

/-- A specificity is the three counts, each up to the greatest word. As long as the counts make up no
more than a double word, the weight is what they make up: it is the value of the specificity exactly if
no count is beyond the greatest word, and greater otherwise. Specificities that are added up, in any
order, make up the whole sums up to the greatest word. -/
theorem specificity_counts :
    (∀ s : Selector,
        (∀ d, (s.specificity.digit d).toNat = min 65535 (s.count d)) ∧
          (100 * s.count .ids + 10 * s.count .classes + s.count .types < UInt32.size →
            s.weight.toNat = 100 * s.count .ids + 10 * s.count .classes + s.count .types ∧
              (s.weight = s.specificity.value ↔ ∀ d, s.count d ≤ 65535) ∧
              (s.specificity.value < s.weight ↔ ∃ d, 65535 < s.count d))) ∧
      ∀ ts us : List Specificity, us.Perm ts → ∀ d,
        ((us.foldl (· + ·) Specificity.zero).digit d).toNat = min 65535 (ts.map fun t => (t.digit d).toNat).sum := by
  refine ⟨fun s => ⟨s.digit_specificity, fun h => ?_⟩, fun _ _ => Specificity.digit_sum_of_perm⟩
  exact ⟨(toNat_weight s).trans (Nat.mod_eq_of_lt h), weight_eq_value_iff h, value_lt_weight_iff h⟩

/-- One of each that counts, the id inside two negations. -/
def oneOfEach : Selector :=
  .related .child (.type ⟨.any, "a"⟩)
    (.both (.negation (.negation (.id "x"))) (.both .universal (.simple (.className "b")) none) none) none

theorem specificity_counts_oneOfEach :
    oneOfEach.weight.toNat = 111 ∧ (oneOfEach.weight = oneOfEach.specificity.value ↔ ∀ d, oneOfEach.count d ≤ 65535) ∧
      (([Specificity.oneId, .oneClass].foldl (· + ·) Specificity.zero).digit .ids).toNat = 1 :=
  have hcounts := specificity_counts
  have hone := (hcounts.1 oneOfEach).2 (by decide)
  ⟨hone.1, hone.2.1, hcounts.2 [.oneClass, .oneId] [.oneId, .oneClass] (.swap _ _ _) .ids⟩

end Selector

end StyleSelectors
