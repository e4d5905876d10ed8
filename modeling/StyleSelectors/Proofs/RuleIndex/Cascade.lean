/-
The cascade of a group against the cascade of an index that holds its members as rules. Both find
something for the same elements. The last rule that an index finds is the member that decides by the
value of its specificity (`map_rule_getLast?_matching_eq_some_iff`), and the winner of the group the
one that decides by its weight. These are one member as long as the counts of what matches have not
reached their end, and may be two beyond that (`last_ne_winner_of_pair`).
-/
import StyleSelectors.Proofs.Matching.Anchors
import StyleSelectors.Proofs.Matching.Winner
import StyleSelectors.Proofs.RuleIndex.Scan
import StyleSelectors.Proofs.Selector.Specificity

namespace StyleSelectors

variable {E R : Type} {m : Model E} {e : E} {name : String}

/-! ## The last rule -/

namespace RuleIndex

theorem mem_matching {rules : List (Selector × R)} (hname : ∀ ns n, m.hasType e ns n = true → n = name)
    {f : Filed R} : f ∈ (ofList rules).matching m e name ↔ f ∈ filings rules ∧ f.selector.holds m e = true := by
  rw [matching, (List.mergeSort_perm _ _).mem_iff, (candidates_perm rules m e name hname).mem_iff, List.mem_filter]

/-- All that an index finds comes before the last of it, or is the last. -/
theorem before_of_getLast? (x : RuleIndex R) {f g : Filed R} (hf : (x.matching m e name).getLast? = some f)
    (hg : g ∈ x.matching m e name) : g.before f = true := by
  have hsorted : (x.matching m e name).Pairwise fun a b => a.before b = true :=
    List.pairwise_mergeSort Filed.before_trans Filed.before_total _
  obtain ⟨front, hfront⟩ := List.getLast?_eq_some_iff.1 hf
  rw [hfront] at hg hsorted
  rcases List.mem_append.1 hg with hg | hg
  · exact (List.pairwise_append.1 hsorted).2.2 g hg f (List.mem_singleton.2 rfl)
  · rw [List.mem_singleton.1 hg]
    simpa using Filed.before_total f f

/-- The members of a group as rules, each with its place among them. -/
def ofGroup (g : Group) : RuleIndex Nat := ofList g.members.zipIdx

theorem mem_matching_ofGroup (g : Group) (hname : ∀ ns n, m.hasType e ns n = true → n = name) {f : Filed Nat} :
    f ∈ (ofGroup g).matching m e name ↔
      g.members[f.order]? = some f.selector ∧ f.selector.holds m e = true ∧
        f.rule = f.order ∧ f.specificity = f.selector.specificity := by
  have hzip : g.members.zipIdx[f.order]? = some (f.selector, f.rule) ↔
      g.members[f.order]? = some f.selector ∧ f.rule = f.order := by
    rw [List.getElem?_zipIdx, Nat.zero_add, Option.map_eq_some_iff]
    constructor
    · rintro ⟨s, hs, hpair⟩
      obtain ⟨rfl, hrule⟩ := Prod.mk.inj hpair
      exact ⟨hs, hrule.symm⟩
    · rintro ⟨hs, hrule⟩
      exact ⟨f.selector, hs, by rw [hrule]⟩
  rw [ofGroup, mem_matching hname, mem_filings, hzip]
  constructor
  · rintro ⟨⟨⟨hs, hrule⟩, hspec⟩, hholds⟩
    exact ⟨hs, hholds, hrule, hspec⟩
  · rintro ⟨hs, hholds, hrule, hspec⟩
    exact ⟨⟨⟨hs, hrule⟩, hspec⟩, hholds⟩

theorem matching_ofGroup_eq_nil_iff (g : Group) (hname : ∀ ns n, m.hasType e ns n = true → n = name) :
    (ofGroup g).matching m e name = [] ↔ ∀ s ∈ g.members, s.holds m e = false := by
  rw [List.eq_nil_iff_forall_not_mem]
  constructor
  · intro hnone s hs
    obtain ⟨i, hi⟩ := List.getElem?_of_mem hs
    refine Bool.eq_false_iff.2 fun hholds => hnone ⟨s, i, s.specificity, i⟩ ?_
    exact (mem_matching_ofGroup g hname).2 ⟨hi, hholds, rfl, rfl⟩
  · intro hnone f hf
    obtain ⟨hs, hholds, -⟩ := (mem_matching_ofGroup g hname).1 hf
    exact Bool.false_ne_true ((hnone _ (List.mem_of_getElem? hs)).symm.trans hholds)

/-- The last rule that an index finds is the member that decides by the value of its specificity. -/
theorem map_rule_getLast?_matching_eq_some_iff (g : Group) (hname : ∀ ns n, m.hasType e ns n = true → n = name)
    (i : Nat) :
    ((ofGroup g).matching m e name).getLast?.map Filed.rule = some i ↔
      ∃ s, Decides (fun t => t.specificity.value) m e g.members i s := by
  cases hlast : ((ofGroup g).matching m e name).getLast? with
  | none =>
    have hnone := (matching_ofGroup_eq_nil_iff g hname).1 (List.getLast?_eq_none_iff.1 hlast)
    exact iff_of_false (by simp) fun ⟨s, hs⟩ => hs.not_forall_not_holds hnone
  | some f =>
    obtain ⟨hmember, hholds, hrule, hspec⟩ := (mem_matching_ofGroup g hname).1 (List.mem_of_getLast? hlast)
    have hdecides : Decides (fun t => t.specificity.value) m e g.members f.rule f.selector := by
      -- whatever matches is a rule too, and comes before the last of them
      have hbefore {j : Nat} {t : Selector} (hj : g.members[j]? = some t) (ht : t.holds m e = true) :=
        (Filed.before_iff _ _).1 (before_of_getLast? _ hlast
          ((mem_matching_ofGroup g hname (f := ⟨t, j, t.specificity, j⟩)).2 ⟨hj, ht, rfl, rfl⟩))
      simp only [hspec] at hbefore
      refine ⟨hrule ▸ hmember, hholds, ?_, ?_⟩
      · intro j t hj ht
        have := hbefore hj ht
        exact UInt32.le_iff_toNat_le.2 (by omega)
      · intro j t hj ht hlt
        have := hbefore hj ht
        exact UInt32.lt_iff_toNat_lt.2 (by omega)
    simp only [Option.map_some, Option.some.injEq]
    constructor
    · rintro rfl
      exact ⟨f.selector, hdecides⟩
    · exact fun ⟨t, ht⟩ => hdecides.index_unique ht

theorem select_fst (g : Group) :
    (g.select m e).1 = ((g.winner? m e).map Winner.index).bind fun i => g.members[i]? := by
  unfold Group.select
  cases g.winner? m e <;> rfl

theorem matching_ofGroup_eq_nil_iff_select (g : Group) (hname : ∀ ns n, m.hasType e ns n = true → n = name) :
    (ofGroup g).matching m e name = [] ↔ (g.select m e).1 = none := by
  rw [matching_ofGroup_eq_nil_iff g hname, ← Group.holds_eq_false_iff, ← Group.select_eq_none_iff]

/-- The last rule and the winner are one member iff the winner by weight wins by value. -/
theorem last_eq_winner_iff (g : Group) (hname : ∀ ns n, m.hasType e ns n = true → n = name) :
    ((ofGroup g).matching m e name).getLast?.map Filed.rule = (g.winner? m e).map Winner.index ↔
      ∀ i s, Decides Selector.weight m e g.members i s →
        Decides (fun t => t.specificity.value) m e g.members i s := by
  constructor
  · intro heq i s hs
    rw [(g.map_index_winner?_eq_some_iff i).2 ⟨s, hs⟩, map_rule_getLast?_matching_eq_some_iff g hname] at heq
    obtain ⟨t, ht⟩ := heq
    exact Option.some.inj (hs.member.symm.trans ht.member) ▸ ht
  · intro hboth
    cases hw : (g.winner? m e).map Winner.index with
    | none =>
      have hnone := (Group.winner?_eq_none_iff g).1 (Option.map_eq_none_iff.1 hw)
      rw [(matching_ofGroup_eq_nil_iff g hname).2 hnone]
      rfl
    | some i =>
      obtain ⟨s, hs⟩ := (g.map_index_winner?_eq_some_iff i).1 hw
      exact (map_rule_getLast?_matching_eq_some_iff g hname i).2 ⟨s, hboth i s hs⟩

/-- The last rule has the selector of the member that it is. -/
theorem map_selector_getLast? (g : Group) (hname : ∀ ns n, m.hasType e ns n = true → n = name) :
    ((ofGroup g).matching m e name).getLast?.map Filed.selector =
      (((ofGroup g).matching m e name).getLast?.map Filed.rule).bind fun i => g.members[i]? := by
  cases hlast : ((ofGroup g).matching m e name).getLast? with
  | none => rfl
  | some f =>
    obtain ⟨hmember, -, hrule, -⟩ := (mem_matching_ofGroup g hname).1 (List.mem_of_getLast? hlast)
    exact (hrule ▸ hmember).symm

/-- A group and an index of its members find something for the same elements. What comes last in the
index is the winner of the group iff the winner by weight wins by the value of its specificity too, and
so whenever nothing that matches has a count beyond the greatest word. -/
theorem cascade_agrees_iff (g : Group) (m : Model E) (e : E) (name : String)
    (hname : ∀ ns n, m.hasType e ns n = true → n = name) :
    ((ofGroup g).matching m e name = [] ↔ (g.select m e).1 = none) ∧
      (((ofGroup g).matching m e name).getLast?.map Filed.rule = (g.winner? m e).map Winner.index ↔
        ∀ i s, Decides Selector.weight m e g.members i s →
          Decides (fun t => t.specificity.value) m e g.members i s) ∧
      ((∀ s ∈ g.members, s.holds m e = true → ∀ d, s.count d ≤ 65535) →
        ((ofGroup g).matching m e name).getLast?.map Filed.rule = (g.winner? m e).map Winner.index ∧
          ((ofGroup g).matching m e name).getLast?.map Filed.selector = (g.select m e).1) := by
  refine ⟨matching_ofGroup_eq_nil_iff_select g hname, last_eq_winner_iff g hname, fun hcount => ?_⟩
  have hrule := (last_eq_winner_iff g hname).2 fun i s hs =>
    hs.congr fun t ht hholds => Selector.weight_eq_value (hcount t ht hholds)
  exact ⟨hrule, by rw [map_selector_getLast? g hname, hrule, select_fst]⟩

/-- A paragraph with an id and a pseudo-class, on its own. -/
def markedParagraph : Document :=
  Document.empty.append none { tag := "p", id := some "x", pseudoClasses := ["a"] }

theorem hasType_markedParagraph (ns : Namespace) (n : String)
    (h : markedParagraph.model.hasType 0 ns n = true) : n = "p" :=
  Document.eq_tag_of_hasType rfl h

def shortGroup : Group := ⟨.simple (.id "x"), [.simple (.pseudoClass "a")], none⟩

theorem cascade_agrees_shortGroup :
    (∀ ns n, markedParagraph.model.hasType 0 ns n = true → n = "p") ∧
      (∀ s ∈ shortGroup.members, s.holds markedParagraph.model 0 = true → ∀ d, s.count d ≤ 65535) ∧
      ((ofGroup shortGroup).matching markedParagraph.model 0 "p").getLast?.map Filed.rule =
        (shortGroup.winner? markedParagraph.model 0).map Winner.index ∧
      ((ofGroup shortGroup).matching markedParagraph.model 0 "p").getLast?.map Filed.selector =
        (shortGroup.select markedParagraph.model 0).1 := by
  have hcount : ∀ s ∈ shortGroup.members, s.holds markedParagraph.model 0 = true → ∀ d, s.count d ≤ 65535 := by
    have hlength : ∀ s ∈ shortGroup.members, s.parts.length ≤ 65535 := by decide
    exact fun s hs _ d => Nat.le_trans List.countP_le_length (hlength s hs)
  exact ⟨hasType_markedParagraph, hcount,
    (cascade_agrees_iff shortGroup markedParagraph.model 0 "p" hasType_markedParagraph).2.2 hcount⟩

/-! ## Beyond the greatest word -/

/-- Of two members the first is the winner and the second the last rule, if the first weighs more
without its specificity having more value. -/
theorem last_ne_winner_of_pair {s t : Selector} (hname : ∀ ns n, m.hasType e ns n = true → n = name)
    (hs : s.holds m e = true) (ht : t.holds m e = true) (hweight : t.weight < s.weight)
    (hvalue : s.specificity.value ≤ t.specificity.value) :
    ((ofGroup ⟨s, [t], none⟩).matching m e name).getLast?.map Filed.rule = some 1 ∧
      (Group.winner? m ⟨s, [t], none⟩ e).map Winner.index = some 0 := by
  have hmembers {j : Nat} {u : Selector} (hj : (Group.mk s [t] none).members[j]? = some u) :
      j = 0 ∧ s = u ∨ j = 1 ∧ t = u := by
    match j with
    | 0 => exact .inl ⟨rfl, Option.some.inj hj⟩
    | 1 => exact .inr ⟨rfl, Option.some.inj hj⟩
    | _ + 2 => cases hj
  rw [map_rule_getLast?_matching_eq_some_iff _ hname, Group.map_index_winner?_eq_some_iff]
  refine ⟨⟨t, rfl, ht, ?_, ?_⟩, ⟨s, rfl, hs, ?_, ?_⟩⟩
  · intro j u hj _
    rcases hmembers hj with ⟨-, rfl⟩ | ⟨-, rfl⟩
    · exact hvalue
    · exact UInt32.le_refl _
  · intro j u hj _ hlt
    rcases hmembers hj with ⟨rfl, -⟩ | ⟨rfl, -⟩ <;> omega
  · intro j u hj _
    rcases hmembers hj with ⟨-, rfl⟩ | ⟨-, rfl⟩
    · exact UInt32.le_refl _
    · exact UInt32.le_of_lt hweight
  · intro j u hj _ hlt
    rcases hmembers hj with ⟨rfl, -⟩ | ⟨-, rfl⟩
    · omega
    · exact hweight

/-- A simple selector, and as many more of it on the same element. -/
def repeated (p : Simple) : Nat → Selector
  | 0 => .simple p
  | n + 1 => .both p (repeated p n) none

theorem anchors_repeated (p : Simple) (n : Nat) (m : Model E) (e : E) :
    (repeated p n).anchors m e = if p.holds m e then [e] else [] := by
  induction n with
  | zero => rfl
  | succ n ih =>
    rw [repeated, Selector.anchors, ih]
    cases p.holds m e <;> rfl

theorem holds_repeated (p : Simple) (n : Nat) (m : Model E) (e : E) : (repeated p n).holds m e = p.holds m e := by
  rw [Selector.holds, Selector.match?_eq_head?, anchors_repeated]
  cases p.holds m e <;> rfl

theorem count_repeated (p : Simple) (n : Nat) (d : Digit) :
    (repeated p n).count d = if p.digit? = some d then n + 1 else 0 := by
  induction n with
  | zero => exact Selector.count_simple p d
  | succ n ih =>
    rw [repeated, Selector.count_both, ih]
    split <;> rfl

/-- Pseudo-classes beyond the greatest word weigh more than a few ids, and as a specificity they have
less value, when the ids lie between the greatest word and their number. -/
theorem last_ne_winner_repeated (hname : ∀ ns n, m.hasType e ns n = true → n = name) {a x : String}
    (ha : (Simple.pseudoClass a).holds m e = true) (hx : (Simple.id x).holds m e = true) {n k : Nat}
    (hn : n + 1 < UInt32.size) (hk : k < 65535) (hvalue : 65535 ≤ 100 * (k + 1)) (hweight : 100 * (k + 1) < n + 1) :
    ((ofGroup ⟨repeated (.pseudoClass a) n, [repeated (.id x) k], none⟩).matching m e name).getLast?.map Filed.rule =
        some 1 ∧
      (Group.winner? m ⟨repeated (.pseudoClass a) n, [repeated (.id x) k], none⟩ e).map Winner.index = some 0 := by
  have hids (d : Digit) : (repeated (.id x) k).count d = if d = .ids then k + 1 else 0 := by
    rw [count_repeated]
    cases d <;> rfl
  have hclasses (d : Digit) : (repeated (.pseudoClass a) n).count d = if d = .types then n + 1 else 0 := by
    rw [count_repeated]
    cases d <;> rfl
  refine last_ne_winner_of_pair hname ((holds_repeated ..).trans ha) ((holds_repeated ..).trans hx) ?_ ?_
  · rw [UInt32.lt_iff_toNat_lt, Selector.toNat_weight, Selector.toNat_weight]
    simp only [Selector.total, hids, hclasses, reduceCtorEq, if_true, if_false]
    rw [UInt32.size] at hn ⊢
    omega
  · rw [UInt32.le_iff_toNat_le, Selector.toNat_value_specificity, Selector.toNat_value_specificity]
    simp only [hids, hclasses, reduceCtorEq, if_true, if_false]
    omega

/-- 65601 pseudo-classes weigh more than 656 ids, and as a specificity they have less value. -/
theorem cascade_differs_repeated :
    (∀ ns n, markedParagraph.model.hasType 0 ns n = true → n = "p") ∧
      ((ofGroup ⟨repeated (.pseudoClass "a") 65600, [repeated (.id "x") 655], none⟩).matching
        markedParagraph.model 0 "p").getLast?.map Filed.rule = some 1 ∧
      (Group.winner? markedParagraph.model
        ⟨repeated (.pseudoClass "a") 65600, [repeated (.id "x") 655], none⟩ 0).map Winner.index = some 0 :=
  ⟨hasType_markedParagraph,
    last_ne_winner_repeated hasType_markedParagraph rfl rfl (by decide) (by decide) (by decide) (by decide)⟩

end RuleIndex

end StyleSelectors
