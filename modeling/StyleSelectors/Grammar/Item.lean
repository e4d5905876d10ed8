/-
One part of a compound selector. `Cursor.item?` reads the part right ahead, if one starts there:
a simple selector, something unsupported, or a negation, whose argument is still to be read. A part
takes at least one node (`size_of_item?`), and an argument is smaller than what it stands in.
-/
import StyleSelectors.Grammar.Attribute
import StyleSelectors.Text.Blank

namespace StyleSelectors

inductive Item (P : Type) where
  | simple (s : Simple)
  | unsupported (why : Unsupported P)
  | negation (inside : Cursor P)

namespace Cursor

open Text

variable {P : Type}

/-! ## Types -/

/-- The name after a written namespace. -/
def qualified (ns : Namespace) (c : Cursor P) : Except (Failure P) (Item P × Cursor P) :=
  match c.token? with
  | some (.ident name) => .ok (.simple (.type ⟨ns, name⟩), c.next)
  | some (.delim '*') =>
    .ok (if ns = .any then .simple .universal else .unsupported (.universalIn ns), c.next)
  | _ => .error c.unexpected

/-- A type, a universal selector or a namespace, whose first token `written` was just read. -/
def typeAfter (ns : Namespace) (written : Simple) (c : Cursor P) :
    Except (Failure P) (Item P × Cursor P) :=
  if c.atBar then c.next.qualified ns else .ok (.simple written, c)

/-! ## Pseudo-classes -/

/-- The pseudo-elements that may be written with one colon. -/
def legacyPseudoElements : List String := ["before", "after", "first-line", "first-letter"]

/-- A pseudo-element, after its second colon. -/
def pseudoElement (c : Cursor P) : Except (Failure P) (Item P × Cursor P) :=
  match c.token? with
  | some (.ident name) => .ok (.unsupported (.pseudoElement name), c.next)
  | some (.function name) => .ok (.unsupported (.pseudoElementFunction name), c.next)
  | _ => .error c.unexpected

/-- The text inside a function, without blanks at its ends. -/
def arguments : Node P → String
  | .leaf .. => ""
  | .block _ _ _ _ _ _ written => String.ofList (trim (Component.chars written))

/-- What comes after a colon. -/
def pseudo (c : Cursor P) : Except (Failure P) (Item P × Cursor P) :=
  match c.rest with
  | [] => .error c.unexpected
  | n :: _ =>
    match n.token with
    | .ident name =>
      if legacyPseudoElements.contains (lower name) then
        .ok (.unsupported (.legacyPseudoElement (lower name)), c.next)
      else .ok (.simple (.pseudoClass (lower name)), c.next)
    | .function name =>
      if sameIgnoringCase name "not" then .ok (.negation (inside n).skipSpace, c.next)
      else .ok (.simple (.function (lower name) (arguments n)), c.next)
    | .colon => c.next.pseudoElement
    | _ => .error c.unexpected

/-! ## Any part -/

/-- The part right ahead, and what is after it; nothing if no part starts there. Types without a
namespace of their own are in `ns`. -/
def item? (ns : Namespace) (c : Cursor P) : Except (Failure P) (Option (Item P × Cursor P)) :=
  match c.rest with
  | [] => .ok none
  | n :: _ =>
    match n.token with
    | .ident name => (c.next.typeAfter (.named name) (.type ⟨ns, name⟩)).map some
    | .delim '*' => (c.next.typeAfter .any .universal).map some
    | .delim '|' => (c.next.qualified .absent).map some
    | .idHash name => .ok (some (.simple (.id name), c.next))
    | .delim '.' => c.next.localName.map fun (name, d) => some (.simple (.className name), d)
    | .opening .square =>
      (inside n).attributeSelector.map fun (a, flagged) =>
        some (if flagged then .unsupported (.attributeFlags a.name) else .simple (.attr a), c.next)
    | .colon => c.next.pseudo.map some
    | _ => .ok none

/-! ## Size -/

theorem size_inside_lt {c : Cursor P} {n : Node P} {rest : List (Node P)} (h : c.rest = n :: rest) :
    (inside n).size < c.size := by
  have hn : (inside n).size < n.size := by
    cases n with
    | leaf => exact Nat.one_pos
    | block => simp only [inside, size, Node.size]; omega
  simp only [size, h, Node.sizeAll] at *
  omega

theorem size_localName {c d : Cursor P} {name : String} (h : c.localName = .ok (name, d)) :
    d.size ≤ c.size := by
  unfold localName at h
  split at h
  · cases h; exact c.size_next_le
  · cases h

theorem size_qualified {c d : Cursor P} {ns : Namespace} {i : Item P} (h : c.qualified ns = .ok (i, d)) :
    d.size ≤ c.size := by
  unfold qualified at h
  split at h
  · cases h; exact c.size_next_le
  · cases h; exact c.size_next_le
  · cases h

theorem qualified_ne_negation {c d e : Cursor P} {ns : Namespace} :
    c.qualified ns ≠ .ok (.negation d, e) := by
  unfold qualified
  split
  · simp
  · by_cases hns : ns = .any <;> simp [hns]
  · simp

theorem size_typeAfter {c d : Cursor P} {ns : Namespace} {s : Simple} {i : Item P}
    (h : c.typeAfter ns s = .ok (i, d)) : d.size ≤ c.size := by
  unfold typeAfter at h
  split at h
  · exact Nat.le_trans (size_qualified h) c.size_next_le
  · cases h; exact Nat.le_refl _

theorem typeAfter_ne_negation {c d e : Cursor P} {ns : Namespace} {s : Simple} :
    c.typeAfter ns s ≠ .ok (.negation d, e) := by
  unfold typeAfter
  split
  · exact qualified_ne_negation
  · simp

theorem size_pseudoElement {c d : Cursor P} {i : Item P} (h : c.pseudoElement = .ok (i, d)) :
    d.size ≤ c.size := by
  unfold pseudoElement at h
  split at h
  · cases h; exact c.size_next_le
  · cases h; exact c.size_next_le
  · cases h

theorem pseudoElement_ne_negation {c d e : Cursor P} : c.pseudoElement ≠ .ok (.negation d, e) := by
  unfold pseudoElement
  split <;> simp

theorem size_pseudo {c d : Cursor P} {i : Item P} (h : c.pseudo = .ok (i, d)) : d.size ≤ c.size := by
  unfold pseudo at h
  split at h
  · cases h
  · split at h
    · split at h <;> (cases h; exact c.size_next_le)
    · split at h <;> (cases h; exact c.size_next_le)
    · exact Nat.le_trans (size_pseudoElement h) c.size_next_le
    · cases h

theorem size_pseudo_negation {c d e : Cursor P} (h : c.pseudo = .ok (.negation d, e)) :
    d.size < c.size := by
  unfold pseudo at h
  split at h
  · cases h
  · next n rest hrest =>
    split at h
    · split at h <;> cases h
    · split at h
      · cases h
        exact Nat.lt_of_le_of_lt (size_skipSpace_le _) (size_inside_lt hrest)
      · cases h
    · exact absurd h pseudoElement_ne_negation
    · cases h

theorem map_eq_ok {E α β : Type} {x : Except E α} {f : α → β} {b : β} (h : x.map f = .ok b) :
    ∃ a, x = .ok a ∧ f a = b := by
  cases x with
  | error e => cases h
  | ok a => exact ⟨a, rfl, Except.ok.inj h⟩

/-- A part takes at least one node, and the argument of a negation is smaller than what it stands in. -/
theorem size_of_item? {c d : Cursor P} {ns : Namespace} {i : Item P}
    (h : c.item? ns = .ok (some (i, d))) : d.size < c.size ∧ ∀ e, i = .negation e → e.size < c.size := by
  unfold item? at h
  split at h
  · cases h
  · next n rest hrest =>
    have hnext : c.next.size < c.size := size_next_lt (by simp [hrest])
    split at h
    · obtain ⟨a, ha, hs⟩ := map_eq_ok h
      cases hs
      exact ⟨Nat.lt_of_le_of_lt (size_typeAfter ha) hnext, fun e he => absurd (he ▸ ha) typeAfter_ne_negation⟩
    · obtain ⟨a, ha, hs⟩ := map_eq_ok h
      cases hs
      exact ⟨Nat.lt_of_le_of_lt (size_typeAfter ha) hnext, fun e he => absurd (he ▸ ha) typeAfter_ne_negation⟩
    · obtain ⟨a, ha, hs⟩ := map_eq_ok h
      cases hs
      exact ⟨Nat.lt_of_le_of_lt (size_qualified ha) hnext, fun e he => absurd (he ▸ ha) qualified_ne_negation⟩
    · cases h
      exact ⟨hnext, fun e he => by cases he⟩
    · obtain ⟨⟨name, e⟩, ha, hs⟩ := map_eq_ok h
      cases hs
      exact ⟨Nat.lt_of_le_of_lt (size_localName ha) hnext, fun e he => by cases he⟩
    · obtain ⟨⟨a, flagged⟩, -, hs⟩ := map_eq_ok h
      cases flagged <;> (cases hs; exact ⟨hnext, fun e he => by cases he⟩)
    · obtain ⟨a, ha, hs⟩ := map_eq_ok h
      cases hs
      exact ⟨Nat.lt_of_le_of_lt (size_pseudo ha) hnext,
        fun e he => Nat.lt_trans (size_pseudo_negation (he ▸ ha)) hnext⟩
    · cases h

end Cursor

end StyleSelectors
