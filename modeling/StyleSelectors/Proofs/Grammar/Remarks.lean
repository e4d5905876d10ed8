/-
What reading makes of parts that are well formed and have no tree. They stand for `Simple.nothing`,
remarks are made of them and of nothing else (`Cursor.accounted_selector`), and what has no tree is
never negated, where every element would match it. So a member that holds such a part is told of by
the remarks and matches no element: `Group.remarks_of_parse`.
-/
import StyleSelectors.Proofs.Grammar.Denoted
import StyleSelectors.Proofs.Matching.Anchors

namespace StyleSelectors

variable {P : Type}

/-! ## Nothing -/

/-- Whether a simple selector is what no element matches, or the negation of one that holds it. -/
def Simple.hasNothing : Simple → Bool
  | .nothing => true
  | .negation inner => inner.hasNothing
  | _ => false

/-- Whether any part is, or holds, what no element matches. -/
def Selector.hasNothing (s : Selector) : Bool := s.parts.any Simple.hasNothing

/-- Whether what no element matches stands under no negation. -/
def Simple.Outright (s : Simple) : Prop := s.hasNothing = true → s = .nothing

theorem Simple.outright_negation {inner : Simple} (h : inner.Outright) (hne : inner ≠ .nothing) :
    (Simple.negation inner).Outright := fun hnothing => absurd (h hnothing) hne

theorem Selector.hasNothing_iff {s : Selector} (h : ∀ p ∈ s.parts, p.Outright) :
    s.hasNothing = true ↔ .nothing ∈ s.parts := by
  rw [hasNothing, List.any_eq_true]
  exact ⟨fun ⟨p, hp, hnothing⟩ => h p hp hnothing ▸ hp, fun hp => ⟨.nothing, hp, rfl⟩⟩

/-- A selector with a part that no element matches has no anchors. -/
theorem Selector.anchors_of_nothing {E : Type} (m : Model E) {s : Selector} (h : .nothing ∈ s.parts) (e : E) :
    s.anchors m e = [] := by
  induction s with
  | simple s =>
    obtain rfl := List.mem_singleton.1 h
    rfl
  | both first second _ ih =>
    rw [anchors]
    rcases List.mem_cons.1 h with rfl | h
    · rfl
    · rw [ih h]
      simp
  | related link first second _ ih =>
    rw [anchors]
    rcases List.mem_cons.1 h with rfl | h
    · simp [Simple.holds]
    · rw [ih h, List.flatMap_nil]

theorem Selector.holds_of_nothing {E : Type} (m : Model E) {s : Selector} (h : .nothing ∈ s.parts) (e : E) :
    s.holds m e = false := by
  rw [holds, match?_eq_head?, anchors_of_nothing m h]
  rfl

/-! ## Parts -/

/-- Whether a part that stands for itself holds nothing that no element matches. -/
def Item.IsPlain : Item P → Prop
  | .simple s => s.hasNothing = false
  | _ => True

namespace Cursor

variable {c d : Cursor P} {ns : Namespace} {i : Item P}

theorem isPlain_qualified (h : c.qualified ns = .ok (i, d)) : i.IsPlain := by
  unfold qualified at h
  split at h
  · cases h; rfl
  · cases h
    split
    · rfl
    · trivial
  · cases h

theorem isPlain_typeAfter {written : Simple} (hwritten : written.hasNothing = false)
    (h : c.typeAfter ns written = .ok (i, d)) : i.IsPlain := by
  unfold typeAfter at h
  split at h
  · exact isPlain_qualified h
  · cases h; exact hwritten

theorem isPlain_pseudo (h : c.pseudo = .ok (i, d)) : i.IsPlain := by
  unfold pseudo at h
  split at h
  · cases h
  · split at h
    · split at h <;> cases h
      · trivial
      · rfl
    · split at h <;> cases h
      · trivial
      · rfl
    · unfold pseudoElement at h
      split at h <;> cases h <;> trivial
    · cases h

theorem isPlain_item? (h : c.item? ns = .ok (some (i, d))) : i.IsPlain := by
  unfold item? at h
  split at h
  · cases h
  · split at h
    · obtain ⟨_, ha, hs⟩ := map_eq_ok h
      cases hs
      exact isPlain_typeAfter rfl ha
    · obtain ⟨_, ha, hs⟩ := map_eq_ok h
      cases hs
      exact isPlain_typeAfter rfl ha
    · obtain ⟨_, ha, hs⟩ := map_eq_ok h
      cases hs
      exact isPlain_qualified ha
    · cases h; rfl
    · obtain ⟨_, -, hs⟩ := map_eq_ok h
      cases hs; rfl
    · obtain ⟨⟨a, flagged⟩, -, hs⟩ := map_eq_ok h
      cases flagged <;> cases hs
      · rfl
      · trivial
    · obtain ⟨_, ha, hs⟩ := map_eq_ok h
      cases hs
      exact isPlain_pseudo ha
    · cases h

end Cursor

/-! ## Compounds -/

/-- Whether remarks are made of simple selectors exactly if one of them is nothing, and no negation
holds nothing. -/
structure Accounted (remarks : List (Unsupported P)) (ss : List Simple) : Prop where
  outright : ∀ s ∈ ss, s.Outright
  remarked : remarks ≠ [] ↔ .nothing ∈ ss

namespace Accounted

variable {remarks more : List (Unsupported P)} {s : Simple} {ss ts : List Simple}

theorem nil : Accounted ([] : List (Unsupported P)) [] := ⟨nofun, by simp⟩

/-- A part that stands for itself. -/
theorem plain (h : s.hasNothing = false) : Accounted ([] : List (Unsupported P)) [s] where
  outright := List.forall_mem_singleton.2 fun hs => by rw [h] at hs; cases hs
  remarked := by
    have hne : Simple.nothing ≠ s := by rintro rfl; cases h
    simp [hne]

/-- A part that a remark is made of. -/
theorem nothing (remarks : List (Unsupported P)) (why : Unsupported P) : Accounted (remarks ++ [why]) [.nothing] where
  outright := List.forall_mem_singleton.2 fun _ => rfl
  remarked := by simp

theorem append (h : Accounted remarks ss) (h' : Accounted more ts) : Accounted (remarks ++ more) (ss ++ ts) where
  outright := List.forall_mem_append.2 ⟨h.outright, h'.outright⟩
  remarked := by
    rw [List.mem_append, ← h.remarked, ← h'.remarked, ne_eq, List.append_eq_nil_iff, not_and_or]

/-- The negation of a part that is something. -/
theorem negation (h : Accounted remarks [s]) (hs : s ≠ .nothing) : Accounted remarks [.negation s] where
  outright := List.forall_mem_singleton.2 (s.outright_negation (h.outright s (List.mem_singleton.2 rfl)) hs)
  remarked := by
    rw [h.remarked]
    simp [hs.symm]

end Accounted

namespace Cursor

variable {c d : Cursor P} {ns : Namespace}

theorem accounted_compoundOf {r : Report P (List Simple × Cursor P)} {k : Compound P}
    (hr : ∀ ss e, r.result = .ok (ss, e) → Accounted r.remarks ss) (h : (r.bind c.compoundOf).result = .ok (k, d)) :
    Accounted (r.bind c.compoundOf).remarks (k.first :: k.others) := by
  obtain ⟨⟨ss, e⟩, hss, hk⟩ := Report.bind_eq_ok h
  have hremarks : (c.compoundOf (ss, e)).remarks = [] := by cases ss <;> rfl
  rw [Report.remarks_bind hss, hremarks, List.append_nil]
  obtain ⟨rfl, rfl⟩ := compoundOf_eq_ok hk
  exact hr _ _ hss

theorem accounted_negationOf {r : Report P (Compound P × Cursor P)} {s : Simple}
    (hr : ∀ k e, r.result = .ok (k, e) → Accounted r.remarks (k.first :: k.others))
    (h : (r.bind negationOf).result = .ok s) : Accounted (r.bind negationOf).remarks [s] := by
  obtain ⟨⟨k, e⟩, hk, hs⟩ := Report.bind_eq_ok h
  have hread := hr k e hk
  rw [Report.remarks_bind hk]
  unfold negationOf at hs ⊢
  dsimp only at hs ⊢
  split at hs
  · cases hs
  · split at hs
    · next hothers =>
      cases hs
      rw [if_pos hothers]
      exact .nothing _ _
    · next hothers =>
      rw [if_neg hothers]
      have hnil : k.others = [] := by simpa using hothers
      rw [hnil] at hread
      split at hs
      · next hfirst =>
        cases hs
        rw [if_pos hfirst]
        exact .nothing _ _
      · next hfirst =>
        -- a remark on the argument would have come of what is nothing
        cases hs
        rw [if_neg hfirst]
        exact (List.append_nil _).symm ▸ hread.negation hfirst

/-- Remarks are made of the parts that stand for nothing, and of no others. -/
theorem accounted_simples {ss : List Simple} (h : (c.simples ns).result = .ok (ss, d)) :
    Accounted (c.simples ns).remarks ss := by
  fun_induction simples ns c generalizing ss d with
  | case1 => cases h
  | case2 c => cases h; exact .nil
  | case3 c s e hi _ ih =>
    obtain ⟨rest, hrest, rfl⟩ := simples_result_cons h
    exact (Accounted.plain (isPlain_item? hi)).append (ih hrest)
  | case4 c why e hi _ ih =>
    obtain ⟨rest, hrest, rfl⟩ := simples_result_cons h
    exact (Accounted.nothing [] why).append (ih hrest)
  | case5 c inside e hi _ _ ihInside ih =>
    obtain ⟨s, hs, hmore⟩ := Report.bind_eq_ok h
    obtain ⟨rest, hrest, rfl⟩ := simples_result_cons hmore
    rw [Report.remarks_bind hs]
    have hinside : Accounted _ [s] :=
      accounted_negationOf (fun _ _ => accounted_compoundOf fun _ _ => ihInside) hs
    exact hinside.append (ih hrest)

theorem accounted_compound {k : Compound P} (h : (c.compound ns).result = .ok (k, d)) :
    Accounted (c.compound ns).remarks (k.first :: k.others) := accounted_compoundOf (fun _ _ => accounted_simples) h

end Cursor

/-! ## Complex selectors -/

namespace Cursor

variable {c d : Cursor P} {ns : Namespace} {locate : P → Locator}

theorem accounted_complex {x : Complex P} (h : (c.complex ns).result = .ok x) :
    Accounted (c.complex ns).remarks x.simples := by
  fun_induction complex ns c generalizing x with
  | case1 | case2 | case4 => cases h
  | case3 c k d hk hd => cases h; exact accounted_compound hk
  | case5 c k d hk link e hd hne =>
    rename_i ih
    obtain ⟨y, hy, rfl⟩ := map_eq_ok h
    exact (accounted_compound hk).append (ih hy)

/-- A complex selector that has no tree stands for nothing, and a remark is made of it. -/
theorem accounted_selector {s : Selector} (h : (c.selector locate ns).result = .ok s) :
    Accounted (c.selector locate ns).remarks s.parts := by
  obtain ⟨x, hx, hs⟩ := Report.bind_eq_ok h
  rw [x.result_selector locate] at hs
  cases hs
  rw [selector, Report.remarks_bind hx, x.parts_denoted, Complex.selector]
  cases hleft : x.simpleOnLeft with
  | true =>
    rw [(x.tree_eq locate).1 hleft, if_pos rfl]
    exact (List.append_nil _).symm ▸ accounted_complex hx
  | false =>
    obtain ⟨why, hwhy⟩ := (x.tree_eq locate).2 hleft
    rw [hwhy, if_neg Bool.false_ne_true]
    exact .nothing _ _

/-! ## Groups -/

theorem remarks_selectors {cs : List (Cursor P)} {ss : List Selector}
    (h : List.Forall₂ (fun c s => (selector locate ns c).result = .ok s) cs ss) :
    (selectors locate ns cs).remarks = cs.flatMap fun c => (c.selector locate ns).remarks := by
  induction h with
  | nil => rfl
  | cons hs _ ih =>
    rw [selectors, Report.remarks_bind hs, List.flatMap_cons, ← ih]
    rfl

theorem remarks_group {g : Group} (h : (c.group locate ns).result = .ok g) :
    (c.group locate ns).remarks = c.stretches.flatMap fun c => (c.selector locate ns).remarks := by
  obtain ⟨s, hs, hmore⟩ := Report.bind_eq_ok h
  obtain ⟨rest, hrest, -⟩ := Report.map_eq_ok hmore
  rw [group, Report.remarks_bind hs, stretches, List.flatMap_cons, ← remarks_selectors (selectors_eq_ok_iff.1 hrest)]
  rfl

end Cursor

/-- Whether remarks were made of a selector exactly if it holds what no element matches, and this
stands where the selector matches no element for it. -/
structure Report.AccountsFor (r : Report P Selector) (s : Selector) : Prop where
  result : r.result = .ok s
  remarked : s.hasNothing = true ↔ r.remarks ≠ []
  not_negated : ∀ inner, .negation inner ∈ s.parts → inner.hasNothing = false
  unmatched : s.hasNothing = true → ∀ (E : Type) (m : Model E) (e : E), s.holds m e = false

theorem Cursor.accountsFor_selector {c : Cursor P} {ns : Namespace} {locate : P → Locator} {s : Selector}
    (h : (c.selector locate ns).result = .ok s) : (c.selector locate ns).AccountsFor s := by
  have haccounted := accounted_selector h
  have hnothing := Selector.hasNothing_iff haccounted.outright
  refine ⟨h, hnothing.trans haccounted.remarked.symm, fun inner hinner => ?_, fun hs E m e => ?_⟩
  · cases hhas : inner.hasNothing with
    | false => rfl
    | true => cases haccounted.outright _ hinner hhas
  · exact Selector.holds_of_nothing m (hnothing.1 hs) e

namespace Group

/-- What comes of each stretch between the commas of a text, remarks included. -/
def reports (text : String) (o : Options := {}) : List (Report Text.Position Selector) :=
  (Cursor.ofChars text.toList).stretches.map (Cursor.selector o.locate o.defaultNamespace)

/-- The remarks of a text are those of its members, in order, and account for each of them. -/
theorem remarks_of_parse {text : String} {o : Options} {g : Group} (h : (Group.parse text o).result = .ok g) :
    (Group.parse text o).remarks =
        (reports text o).flatMap (fun r => r.remarks.map (Unsupported.message o.locate)) ∧
      List.Forall₂ Report.AccountsFor (reports text o) g.members := by
  constructor
  · rw [parse, Report.toParsed, Cursor.remarks_group (Report.result_of_toParsed h), reports, List.map_flatMap,
      List.flatMap_map]
  · rw [reports, List.forall₂_map_left_iff]
    exact (parse_eq_ok_iff.1 h).2.imp fun c s hs => Cursor.accountsFor_selector (Cursor.selector_of_denotes hs)

/-- The negation of a pseudo-element, which has no tree, and an element. -/
def unlessElement : Group := ⟨.simple .nothing, [.simple (.type ⟨.any, "a"⟩)], some ⟨0, 1, 1, none⟩⟩

/-- The nodes of `:not(::b)`, and the one of `a` after a comma. -/
def unlessNodes : List (Node Text.Position) × List (Node Text.Position) :=
  ([.leaf .colon ⟨0, 0, 1⟩ ⟨1, 0, 2⟩,
    .block (.function "not") ⟨1, 0, 2⟩ ⟨5, 0, 6⟩
      [.leaf .colon ⟨5, 0, 6⟩ ⟨6, 0, 7⟩, .leaf .colon ⟨6, 0, 7⟩ ⟨7, 0, 8⟩, .leaf (.ident "b") ⟨7, 0, 8⟩ ⟨8, 0, 9⟩]
      ⟨8, 0, 9⟩ ⟨9, 0, 10⟩ [.leaf ⟨.colon, [':']⟩, .leaf ⟨.colon, [':']⟩, .leaf ⟨.ident "b", ['b']⟩]],
    [.leaf (.ident "a") ⟨10, 0, 11⟩ ⟨11, 0, 12⟩])

theorem parse_unlessElement : (Group.parse ":not(::b),a").result = .ok unlessElement := by
  have hlexemes : Lexeme.ofChars ":not(::b),a".toList =
      [⟨.colon, [':']⟩, ⟨.function "not", ['n', 'o', 't', '(']⟩, ⟨.colon, [':']⟩, ⟨.colon, [':']⟩,
        ⟨.ident "b", ['b']⟩, ⟨.closing .round, [')']⟩, ⟨.comma, [',']⟩, ⟨.ident "a", ['a']⟩] := by
    decide +kernel
  have hnodes : Cursor.ofChars ":not(::b),a".toList =
      ⟨.start, unlessNodes.1 ++ .leaf .comma ⟨9, 0, 10⟩ ⟨10, 0, 11⟩ :: unlessNodes.2, ⟨11, 0, 12⟩⟩ :=
    Cursor.ofChars_of_lexemes hlexemes
      (show _ = [.leaf _, .block _ [.leaf _, .leaf _, .leaf _] _, .leaf _, .leaf _] from rfl)
      (by simp only [Node.ofComponents]; rfl)
  have hinside : Grammar.Parts .any (unlessNodes.1[1].inside ++ []) [.nothing] := .part (.pseudoElement "b" rfl) .nil
  have hnegation : Grammar.Parts .any unlessNodes.1 [.nothing] :=
    .negation (n := unlessNodes.1[1]) (a := []) (b := []) rfl rfl Grammar.toLower_not rfl
      (List.forall_mem_nil _) hinside (List.forall_mem_nil _) .nil
  have helement : Grammar.Parts .any unlessNodes.2 [.type ⟨.any, "a"⟩] :=
    .bare (.type "a") (fun _ hn => by cases hn) .nil
  exact parse_of_nodes hnodes rfl
    (.cons (Grammar.denotes_of_parts hnegation) (.cons (Grammar.denotes_of_parts helement) .nil))

theorem remarks_of_parse_unlessElement :
    (Group.parse ":not(::b),a").result = .ok unlessElement ∧
      (Group.parse ":not(::b),a").remarks =
        (reports ":not(::b),a").flatMap (fun r => r.remarks.map (Unsupported.message (Options.locate {}))) ∧
      List.Forall₂ Report.AccountsFor (reports ":not(::b),a") unlessElement.members :=
  ⟨parse_unlessElement, remarks_of_parse parse_unlessElement⟩

end Group

end StyleSelectors
