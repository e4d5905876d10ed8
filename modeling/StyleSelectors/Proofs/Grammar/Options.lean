/-
One text under two options. Both times it is read or both times it fails, and what comes of it are
twins: the same but for the namespace of types without a prefix, and for how a place is told. A place
has one offset and one column, and each time the own source and the number of one line of the text,
counted on from the own line offset (`Group.parse_twins`).
-/
import StyleSelectors.Proofs.Grammar.Sketch

namespace StyleSelectors

open Text Grammar

/-! ## Places -/

/-- Whether two options tell of one place so: at the same offset and column, with a source each and a number
each for the same line, which no line goes beyond. -/
def Options.TellSame (o₁ o₂ : Options) (l₁ l₂ : Locator) : Prop :=
  ∃ offset line column, l₁ = ⟨offset, min 0xFFFFFFFF (line + o₁.lineOffset + 1), column, o₁.source⟩ ∧
    l₂ = ⟨offset, min 0xFFFFFFFF (line + o₂.lineOffset + 1), column, o₂.source⟩

section Twins

variable {o₁ o₂ : Options}

theorem Options.tellSame_locate (p : Position) : o₁.TellSame o₂ (o₁.locate p) (o₂.locate p) :=
  ⟨p.offset, p.line, p.column, rfl, rfl⟩

/-- An offset that is worked out from line and column is the same under all options. -/
theorem Failure.tellSame_toError (f : Failure Position) (text : List Char) :
    o₁.TellSame o₂ (f.toError o₁ text).locator (f.toError o₂ text).locator :=
  ⟨byteOffset text f.place.line f.place.column, f.place.line, f.place.column, rfl, rfl⟩

/-! ## Twins -/

/-- Simple selectors that are the same but for the namespace of types without a prefix. -/
inductive Simple.Twin (ns₁ ns₂ : Namespace) : Simple → Simple → Prop
  | bare (name : String) : Twin ns₁ ns₂ (.type ⟨ns₁, name⟩) (.type ⟨ns₂, name⟩)
  | negation {s t : Simple} (h : Twin ns₁ ns₂ s t) : Twin ns₁ ns₂ (.negation s) (.negation t)
  | same (s : Simple) : Twin ns₁ ns₂ s s

variable (o₁ o₂) in
/-- Selectors of the same shape, whose simple selectors are twins and whose locators tell of the same
places. -/
inductive Selector.Twin : Selector → Selector → Prop
  | simple {s t : Simple} (h : s.Twin o₁.defaultNamespace o₂.defaultNamespace t) : Twin (.simple s) (.simple t)
  | both {s₁ s₂ : Simple} {t₁ t₂ : Selector} {l₁ l₂ : Locator}
    (hfirst : s₁.Twin o₁.defaultNamespace o₂.defaultNamespace s₂) (hsecond : Twin t₁ t₂)
    (hplace : o₁.TellSame o₂ l₁ l₂) :
    Twin (.both s₁ t₁ (some l₁)) (.both s₂ t₂ (some l₂))
  | related {s₁ s₂ : Simple} {t₁ t₂ : Selector} {l₁ l₂ : Locator} (link : Combinator)
    (hfirst : s₁.Twin o₁.defaultNamespace o₂.defaultNamespace s₂) (hsecond : Twin t₁ t₂)
    (hplace : o₁.TellSame o₂ l₁ l₂) :
    Twin (.related link s₁ t₁ (some l₁)) (.related link s₂ t₂ (some l₂))

variable (o₁ o₂) in
/-- Groups whose members are twins one by one, and whose locators tell of the same place. -/
structure Group.Twin (g₁ g₂ : Group) : Prop where
  members : List.Forall₂ (Selector.Twin o₁ o₂) g₁.members g₂.members
  locator : ∃ l₁ l₂, g₁.locator = some l₁ ∧ g₂.locator = some l₂ ∧ o₁.TellSame o₂ l₁ l₂

theorem Simple.Sketch.twin_fill (ns₁ ns₂ : Namespace) (k : Simple.Sketch) : (k.fill ns₁).Twin ns₁ ns₂ (k.fill ns₂) := by
  induction k with
  | bare name => exact .bare name
  | negation inner ih => exact .negation ih
  | whole s => exact .same s

theorem Selector.Sketch.twin_under (k : Selector.Sketch Position) : Selector.Twin o₁ o₂ (k.under o₁) (k.under o₂) := by
  induction k with
  | simple s => exact .simple (s.twin_fill _ _)
  | both first second place ih => exact .both (first.twin_fill _ _) ih (Options.tellSame_locate place)
  | related link first second place ih => exact .related link (first.twin_fill _ _) ih (Options.tellSame_locate place)

theorem Group.Sketch.twin_under (k : Group.Sketch Position) : Group.Twin o₁ o₂ (k.under o₁) (k.under o₂) where
  members := by
    refine .cons k.first.twin_under ?_
    rw [under, under, List.forall₂_map_left_iff, List.forall₂_map_right_iff]
    exact List.forall₂_same.2 fun s _ => s.twin_under
  locator := ⟨_, _, rfl, rfl, Options.tellSame_locate k.place⟩

end Twins

/-- A text is read under both of two options, or under neither. What is read are twins, and which of their types
are without a prefix is for the grammar to say: each member is what its stretch of the text denotes where these
are in the namespace of the options. What fails fails for the same cause and at the same place. -/
theorem Group.parse_twins (text : String) (o₁ o₂ : Options) :
    (∃ g₁ g₂, (Group.parse text o₁).result = .ok g₁ ∧ (Group.parse text o₂).result = .ok g₂ ∧ Group.Twin o₁ o₂ g₁ g₂ ∧
      List.Forall₂ (fun c s => Denotes o₁.defaultNamespace o₁.told (Cursor.rest c) s)
        (Cursor.ofChars text.toList).stretches g₁.members ∧
      List.Forall₂ (fun c s => Denotes o₂.defaultNamespace o₂.told (Cursor.rest c) s)
        (Cursor.ofChars text.toList).stretches g₂.members) ∨
    ∃ e₁ e₂, (Group.parse text o₁).result = .error e₁ ∧ (Group.parse text o₂).result = .error e₂ ∧ e₁.cause = e₂.cause ∧
      o₁.TellSame o₂ e₁.locator e₂.locator := by
  obtain ⟨r, hr, hdenotes⟩ := parse_eq_sketch text
  have hparse (o : Options) : (Group.parse text o).result =
      (r.result.map (Group.Sketch.under o)).mapError (Failure.toError o text.toList) := by
    rw [hr]
    rfl
  cases hresult : r.result with
  | ok k =>
    have hok (o : Options) : (Group.parse text o).result = .ok (k.under o) := by
      rw [hparse, hresult]
      rfl
    exact .inl ⟨k.under o₁, k.under o₂, hok o₁, hok o₂, k.twin_under, hdenotes k hresult o₁, hdenotes k hresult o₂⟩
  | error f =>
    have herror (o : Options) : (Group.parse text o).result = .error (f.toError o text.toList) := by
      rw [hparse, hresult]
      rfl
    exact .inr ⟨f.toError o₁ text.toList, f.toError o₂ text.toList, herror o₁, herror o₂, rfl,
      f.tellSame_toError text.toList⟩

end StyleSelectors
