/-
Compound selectors: parts with nothing between them. The argument of a negation is a compound too,
and stands for something only if it is a single simple selector; so no negation ever holds what
nothing matches. A compound takes at least one node (`size_compound`).
-/
import StyleSelectors.Grammar.Item

namespace StyleSelectors

/-- Simple selectors on the same element, and where they start. -/
structure Compound (P : Type) where
  place : P
  first : Simple
  others : List Simple

namespace Cursor

variable {P : Type}

/-- The compound that starts at `c`, whose parts have been read. -/
def compoundOf (c : Cursor P) : List Simple × Cursor P → Report P (Compound P × Cursor P)
  | ([], d) => .fail (if d.rest.isEmpty then ⟨.emptySelector, d.here⟩ else d.unexpectedPast)
  | (s :: rest, d) => .ok (⟨c.here, s, rest⟩, d)

/-- What a negation stands for when its argument is the given compound, after which `d` comes. -/
def negationOf : Compound P × Cursor P → Report P Simple
  | (k, d) =>
    match d.skipSpace.expectEnd with
    | .error e => .fail e
    | .ok () =>
      if !k.others.isEmpty then .remark (.compoundNegation k.place) (.ok .nothing)
      else if k.first = .nothing then .remark (.unsupportedNegation k.place) (.ok .nothing)
      else .ok (.negation k.first)

/-- The simple selectors that the parts from here on stand for, and what is after them. -/
def simples (ns : Namespace) (c : Cursor P) : Report P (List Simple × Cursor P) :=
  match h : c.item? ns with
  | .error e => .fail e
  | .ok none => .ok ([], c)
  | .ok (some (.simple s, d)) =>
    have := (size_of_item? h).1
    (simples ns d).map fun (rest, e) => (s :: rest, e)
  | .ok (some (.unsupported why, d)) =>
    have := (size_of_item? h).1
    .remark why ((simples ns d).map fun (rest, e) => (.nothing :: rest, e))
  | .ok (some (.negation inside, d)) =>
    have := size_of_item? h
    have := this.2 inside rfl
    (((simples ns inside).bind inside.compoundOf).bind negationOf).bind fun s =>
      (simples ns d).map fun (rest, e) => (s :: rest, e)
termination_by c.size
decreasing_by all_goals grind

/-- A compound selector, and what is after it. -/
def compound (ns : Namespace) (c : Cursor P) : Report P (Compound P × Cursor P) :=
  (c.simples ns).bind c.compoundOf

/-! ## Size -/

theorem simples_result_cons {r : Report P (List Simple × Cursor P)} {s : Simple} {ss : List Simple}
    {d : Cursor P} (h : (r.map fun (rest, e) => (s :: rest, e)).result = .ok (ss, d)) :
    ∃ rest, r.result = .ok (rest, d) ∧ ss = s :: rest := by
  obtain ⟨⟨rest, e⟩, hr, he⟩ := Report.map_eq_ok h
  cases he
  exact ⟨rest, hr, rfl⟩

theorem size_simples {ns : Namespace} {c d : Cursor P} {ss : List Simple}
    (h : (c.simples ns).result = .ok (ss, d)) :
    d.size ≤ c.size ∧ (ss ≠ [] → d.size < c.size) := by
  fun_induction simples ns c generalizing ss d with
  | case1 => cases h
  | case2 c => cases h; exact ⟨Nat.le_refl _, fun hne => absurd rfl hne⟩
  | case3 c s e hi hlt ih =>
    obtain ⟨rest, hr, -⟩ := simples_result_cons h
    have := (ih hr).1
    exact ⟨by omega, fun _ => by omega⟩
  | case4 c why e hi hlt ih =>
    obtain ⟨rest, hr, -⟩ := simples_result_cons h
    have := (ih hr).1
    exact ⟨by omega, fun _ => by omega⟩
  | case5 c inside e hi hlt _ _ ih =>
    obtain ⟨s, -, hs⟩ := Report.bind_eq_ok h
    obtain ⟨rest, hr, -⟩ := simples_result_cons hs
    have := (ih hr).1
    exact ⟨by omega, fun _ => by omega⟩

theorem size_compound {ns : Namespace} {c d : Cursor P} {k : Compound P}
    (h : (c.compound ns).result = .ok (k, d)) : d.size < c.size := by
  obtain ⟨⟨ss, e⟩, hs, hk⟩ := Report.bind_eq_ok h
  cases ss with
  | nil => cases hk
  | cons s rest =>
    cases hk
    exact (size_simples hs).2 (by simp)

end Cursor

end StyleSelectors
