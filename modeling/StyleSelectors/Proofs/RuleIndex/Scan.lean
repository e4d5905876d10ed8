/-
Rules filed by type against a plain list of them. Whatever was filed in whatever order, what an
index finds for an element is what going through all rules one by one finds, in the order of the
cascade (`matching_ofList`): the rules of other types, which the index never looks at, match nothing
of this type. As no two rules are filed at the same number, that order leaves no choice, so any way
to sort gives this one list.
-/
import StyleSelectors.RuleIndex
import StyleSelectors.Document
import StyleSelectors.Proofs.Matching.RequiredType
import Mathlib.Data.List.Induction
import Mathlib.Data.List.Nodup

namespace StyleSelectors

variable {E R : Type}

/-! ## The order of the cascade -/

namespace Filed

/-- Whether `a` comes before `b` in the cascade, and is not filed at the same number. -/
def Precedes (a b : Filed R) : Prop :=
  a.specificity.value < b.specificity.value ∨
    a.specificity.value = b.specificity.value ∧ a.order < b.order

theorem before_iff (a b : Filed R) :
    a.before b = true ↔ a.specificity.value.toNat < b.specificity.value.toNat ∨
      a.specificity.value.toNat = b.specificity.value.toNat ∧ a.order ≤ b.order := by
  simp [before, UInt32.lt_iff_toNat_lt, UInt32.toNat_inj]

theorem before_trans (a b c : Filed R) (hab : a.before b = true) (hbc : b.before c = true) :
    a.before c = true := by
  rw [before_iff] at *
  omega

theorem before_total (a b : Filed R) : (a.before b || b.before a) = true := by
  rw [Bool.or_eq_true, before_iff, before_iff]
  omega

theorem order_eq_of_before {a b : Filed R} (hab : a.before b = true) (hba : b.before a = true) :
    a.order = b.order := by
  rw [before_iff] at hab hba
  omega

theorem precedes_of_before {a b : Filed R} (h : a.before b = true) (hne : a.order ≠ b.order) :
    a.Precedes b := by
  rcases (before_iff a b).1 h with h | ⟨h, ho⟩
  · exact .inl (UInt32.lt_iff_toNat_lt.2 h)
  · exact .inr ⟨UInt32.toNat_inj.1 h, by omega⟩

end Filed

/-! ## What is filed -/

/-- Rules as they are filed one after the other, each with the number of rules before it. -/
def filings (rules : List (Selector × R)) : List (Filed R) :=
  rules.zipIdx.map fun (p, i) => ⟨p.1, p.2, p.1.specificity, i⟩

theorem filings_concat (rules : List (Selector × R)) (s : Selector) (r : R) :
    filings (rules ++ [(s, r)]) = filings rules ++ [⟨s, r, s.specificity, rules.length⟩] := by
  simp [filings, List.zipIdx_append]

theorem map_order_filings (rules : List (Selector × R)) :
    (filings rules).map Filed.order = List.range rules.length := by
  rw [filings, List.map_map, List.range_eq_range', ← List.zipIdx_map_snd 0 rules]
  rfl

theorem mem_filings {rules : List (Selector × R)} {f : Filed R} :
    f ∈ filings rules ↔ rules[f.order]? = some (f.selector, f.rule) ∧ f.specificity = f.selector.specificity := by
  rw [filings, List.mem_map]
  constructor
  · rintro ⟨⟨p, i⟩, hp, rfl⟩
    exact ⟨List.mem_zipIdx_iff_getElem?.1 hp, rfl⟩
  · rintro ⟨hrule, hspec⟩
    refine ⟨((f.selector, f.rule), f.order), List.mem_zipIdx_iff_getElem?.2 hrule, ?_⟩
    exact congrArg (fun t => (⟨f.selector, f.rule, t, f.order⟩ : Filed R)) hspec.symm

namespace RuleIndex

/-- An index of rules, filed in order. -/
def ofList (rules : List (Selector × R)) : RuleIndex R := rules.foldl (fun x p => x.insert p.1 p.2) empty

theorem ofList_concat (rules : List (Selector × R)) (s : Selector) (r : R) :
    ofList (rules ++ [(s, r)]) = (ofList rules).insert s r := by
  simp [ofList]

theorem size_ofList (rules : List (Selector × R)) : (ofList rules).size = rules.length := by
  induction rules using List.reverseRecOn with
  | nil => rfl
  | append_singleton rules p ih => rw [ofList_concat, size_insert, ih, List.length_append]; rfl

theorem bound_ofList (rules : List (Selector × R)) (name : String) :
    (ofList rules).bound name =
      (filings rules).filter fun f => f.selector.requiredType?.map TypeName.name = some name := by
  induction rules using List.reverseRecOn with
  | nil => exact bound_empty name
  | append_singleton rules p ih =>
    rw [ofList_concat, bound_insert, ih, filings_concat, List.filter_append, size_ofList]
    simp only [List.filter_cons, List.filter_nil, decide_eq_true_eq]

theorem unbound_ofList (rules : List (Selector × R)) :
    (ofList rules).unbound.toList = (filings rules).filter fun f => f.selector.requiredType? = none := by
  induction rules using List.reverseRecOn with
  | nil => rfl
  | append_singleton rules p ih =>
    rw [ofList_concat, unbound_insert, ih, filings_concat, List.filter_append, size_ofList]
    simp only [List.filter_cons, List.filter_nil, decide_eq_true_eq]

/-! ## What an index finds -/

/-- Two kinds that exclude each other make up all that is of one of them. -/
theorem filter_append_filter_perm {α : Type} (a b h : α → Bool) (hab : ∀ x, a x = true → b x = false)
    (hor : ∀ x, h x = true → a x = true ∨ b x = true) (xs : List α) :
    ((xs.filter a ++ xs.filter b).filter h).Perm (xs.filter h) := by
  rw [List.filter_append, List.filter_filter, List.filter_filter]
  induction xs with
  | nil => rfl
  | cons x xs ih =>
    cases hh : h x with
    | false => simpa [hh] using ih
    | true =>
      rcases hor x hh with ha | hb
      · simpa [hh, ha, hab x ha] using ih
      · have ha : a x = false := Bool.eq_false_iff.2 fun ha => by simp [hab x ha] at hb
        simpa [hh, ha, hb] using List.perm_middle.trans (ih.cons x)

/-- The rules that an index never looks at for an element match nothing of its type. -/
theorem candidates_perm (rules : List (Selector × R)) (m : Model E) (e : E) (name : String)
    (hname : ∀ ns n, m.hasType e ns n = true → n = name) :
    (((ofList rules).candidates name).filter fun f => f.selector.holds m e).Perm
      ((filings rules).filter fun f => f.selector.holds m e) := by
  rw [candidates, bound_ofList, unbound_ofList]
  refine filter_append_filter_perm _ _ _ ?_ ?_ _
  · intro f hf
    cases h : f.selector.requiredType? with
    | none => simp [h] at hf
    | some t => simp
  · intro f hf
    cases h : f.selector.requiredType? with
    | none => exact .inr (by simp)
    | some t =>
      -- what it matches has its type, so that it is filed under the name that is looked up
      have := hname _ _ (Selector.hasType_of_holds h hf)
      exact .inl (by simp [this])

/-- An index finds what a scan of all rules finds, each rule once and in the order of the cascade;
and no other order of these agrees with the cascade. -/
theorem matching_ofList (rules : List (Selector × R)) (m : Model E) (e : E) (name : String)
    (hname : ∀ ns n, m.hasType e ns n = true → n = name) :
    ((ofList rules).matching m e name).Perm ((filings rules).filter fun f => f.selector.holds m e) ∧
      ((ofList rules).matching m e name).Pairwise Filed.Precedes ∧
      ∀ sorted : List (Filed R),
        sorted.Perm ((filings rules).filter fun f => f.selector.holds m e) →
          (sorted.Pairwise fun a b => a.before b = true) → sorted = (ofList rules).matching m e name := by
  have hperm := (List.mergeSort_perm _ Filed.before).trans (candidates_perm rules m e name hname)
  have hsorted := List.pairwise_mergeSort Filed.before_trans Filed.before_total
    (((ofList rules).candidates name).filter fun f => f.selector.holds m e)
  change ((ofList rules).matching m e name).Perm _ at hperm
  change ((ofList rules).matching m e name).Pairwise _ at hsorted
  -- no two rules are filed at the same number
  have hnodup : ((filings rules).map Filed.order).Nodup := by
    rw [map_order_filings]
    exact List.nodup_range
  have hne : ((ofList rules).matching m e name).Pairwise fun a b => a.order ≠ b.order := by
    have := (hnodup.sublist (List.filter_sublist.map Filed.order)).perm (hperm.map Filed.order).symm
    exact List.pairwise_map.1 this
  refine ⟨hperm, ?_, ?_⟩
  · exact hsorted.imp₂ (fun a b => Filed.precedes_of_before) hne
  · intro sorted hs hb
    -- rules that may come in either order have the same number, and so are one
    refine List.Perm.eq_of_pairwise ?_ hb hsorted (hs.trans hperm.symm)
    intro a b ha hb' hab hba
    have hmem {f : Filed R} (hf : f ∈ (filings rules).filter fun f => f.selector.holds m e) :
        f ∈ filings rules := (List.mem_filter.1 hf).1
    exact List.inj_on_of_nodup_map hnodup (hmem (hs.subset ha)) (hmem (hperm.subset hb'))
      (Filed.order_eq_of_before hab hba)

/-- A paragraph of one class, on its own. -/
def leadParagraph : Document := Document.empty.append none { tag := "p", classes := ["lead"] }

/-- Rules bound to the type of a paragraph, to another, and to none. -/
def leadRules : List (Selector × String) :=
  [(.simple (.className "lead"), "class"), (.simple (.type ⟨.any, "div"⟩), "other"),
    (.both (.type ⟨.any, "p"⟩) (.simple (.className "lead")) none, "own")]

theorem hasType_leadParagraph (ns : Namespace) (n : String)
    (h : leadParagraph.model.hasType 0 ns n = true) : n = "p" :=
  Document.eq_tag_of_hasType rfl h

theorem matching_ofList_leadParagraph :
    (∀ ns n, leadParagraph.model.hasType 0 ns n = true → n = "p") ∧
      ((ofList leadRules).matching leadParagraph.model 0 "p").Perm
        ((filings leadRules).filter fun f => f.selector.holds leadParagraph.model 0) ∧
      ((ofList leadRules).matching leadParagraph.model 0 "p").Pairwise Filed.Precedes ∧
      ∀ sorted : List (Filed String),
        sorted.Perm ((filings leadRules).filter fun f => f.selector.holds leadParagraph.model 0) →
          (sorted.Pairwise fun a b => a.before b = true) →
            sorted = (ofList leadRules).matching leadParagraph.model 0 "p" :=
  ⟨hasType_leadParagraph, matching_ofList leadRules leadParagraph.model 0 "p" hasType_leadParagraph⟩

end RuleIndex

end StyleSelectors
