/-
What equal selectors have in common. Equality is blind to locators and to nothing else: the trees are
the same once all locators are erased, and this is so exactly if the same keys are hashed, as no keys
are the start of others (`Selector.keys_append_inj`). Whatever is asked of a selector gives the same
answer without its locators, and so equal selectors and groups answer alike (`beq_congruence`).
-/
import StyleSelectors.Matching.Winner
import StyleSelectors.Proofs.Selector.Alike
import StyleSelectors.Selector.Equality
import StyleSelectors.Selector.Printer
import StyleSelectors.Selector.RequiredType

namespace StyleSelectors

variable {k k' : List HashKey}

/-! ## Keys -/

theorem Namespace.keys_append_inj {ns ns' : Namespace} (h : ns.keys ++ k = ns'.keys ++ k') : ns = ns' ∧ k = k' := by
  cases ns <;> cases ns' <;> simp_all [keys]

theorem TypeName.keys_append_inj {t t' : TypeName} (h : t.keys ++ k = t'.keys ++ k') : t = t' ∧ k = k' := by
  rw [keys, keys, List.append_assoc, List.append_assoc] at h
  obtain ⟨hns, htail⟩ := Namespace.keys_append_inj h
  obtain ⟨hname, hk⟩ := List.cons.inj htail
  cases t
  cases t'
  exact ⟨by simp_all, hk⟩

theorem MatchOperator.key_inj {op op' : MatchOperator} (h : op.key = op'.key) : op = op' := by
  cases op <;> cases op' <;> first | rfl | cases h

theorem ValueTest.keys_append_inj {t t' : ValueTest} (h : t.keys ++ k = t'.keys ++ k') : t = t' ∧ k = k' := by
  cases t with
  | matching op operand =>
    cases t' with
    | matching op' operand' =>
      obtain ⟨hop, htail⟩ := List.cons.inj (List.cons.inj h).2
      obtain ⟨hoperand, hk⟩ := List.cons.inj htail
      cases hoperand
      exact ⟨by rw [MatchOperator.key_inj hop], hk⟩
    | _ => simp [keys] at h
  | _ => cases t' <;> simp_all [keys]

theorem AttributeSelector.keys_append_inj {a a' : AttributeSelector} (h : a.keys ++ k = a'.keys ++ k') :
    a = a' ∧ k = k' := by
  rw [keys, keys, List.append_assoc, List.append_assoc] at h
  obtain ⟨hns, htail⟩ := Namespace.keys_append_inj h
  obtain ⟨hname, htest⟩ := List.cons.inj htail
  obtain ⟨htest, hk⟩ := ValueTest.keys_append_inj htest
  cases a
  cases a'
  exact ⟨by simp_all, hk⟩

theorem Simple.keys_append_inj {s t : Simple} (h : s.keys ++ k = t.keys ++ k') : s = t ∧ k = k' := by
  induction s generalizing t with
  | type name =>
    cases t with
    | type name' =>
      obtain ⟨hname, hk⟩ := TypeName.keys_append_inj (List.cons.inj h).2
      exact ⟨congrArg Simple.type hname, hk⟩
    | _ => simp [keys] at h
  | negation inner ih =>
    cases t with
    | negation inner' =>
      obtain ⟨hinner, hk⟩ := ih (List.cons.inj h).2
      exact ⟨congrArg Simple.negation hinner, hk⟩
    | _ => simp [keys] at h
  | attr a =>
    cases t with
    | attr a' =>
      obtain ⟨ha, hk⟩ := AttributeSelector.keys_append_inj (List.cons.inj h).2
      exact ⟨congrArg Simple.attr ha, hk⟩
    | _ => simp [keys] at h
  | _ => cases t <;> simp_all [keys]

theorem Combinator.key_inj {link link' : Combinator} (h : link.key = link'.key) : link = link' := by
  cases link <;> cases link' <;> first | rfl | cases h

namespace Selector

/-- The keys of a selector tell it from every other, but for locators, and tell where they end. -/
theorem keys_append_inj {s t : Selector} (h : s.keys ++ k = t.keys ++ k') : s.erase = t.erase ∧ k = k' := by
  induction s generalizing t with
  | simple s =>
    cases t with
    | simple t =>
      obtain ⟨hs, hk⟩ := Simple.keys_append_inj (List.cons.inj h).2
      exact ⟨congrArg Selector.simple hs, hk⟩
    | _ => simp [keys] at h
  | both first second _ ih =>
    cases t with
    | both first' second' _ =>
      simp only [keys, List.cons_append, List.append_assoc] at h
      obtain ⟨hfirst, htail⟩ := Simple.keys_append_inj (List.cons.inj h).2
      obtain ⟨hsecond, hk⟩ := ih htail
      exact ⟨by rw [erase, erase, hfirst, hsecond], hk⟩
    | _ => simp [keys] at h
  | related link first second _ ih =>
    cases t with
    | related link' first' second' _ =>
      simp only [keys, List.cons_append, List.append_assoc] at h
      obtain ⟨hlink, htail⟩ := List.cons.inj (List.cons.inj h).2
      obtain ⟨hfirst, htail⟩ := Simple.keys_append_inj htail
      obtain ⟨hsecond, hk⟩ := ih htail
      exact ⟨by rw [erase, erase, Combinator.key_inj hlink, hfirst, hsecond], hk⟩
    | _ => simp [keys] at h

theorem beq_iff_keys {s t : Selector} : (s == t) = true ↔ s.keys = t.keys := by
  refine ⟨keys_eq_of_beq, fun h => (beq_iff_erase s t).2 ?_⟩
  have hkeys : s.keys ++ [] = t.keys ++ [] := by rw [h]
  exact (keys_append_inj hkeys).1

theorem erase_eq_of_flatMap_keys {ss ts : List Selector} (hlength : ss.length = ts.length)
    (h : ss.flatMap keys = ts.flatMap keys) : ss.map erase = ts.map erase := by
  induction ss generalizing ts with
  | nil => rw [List.eq_nil_of_length_eq_zero hlength.symm]
  | cons s ss ih =>
    cases ts with
    | nil => cases hlength
    | cons t ts =>
      obtain ⟨hs, hrest⟩ := keys_append_inj h
      rw [List.map_cons, List.map_cons, hs, ih (Nat.succ.inj hlength) hrest]

end Selector

theorem Group.beq_iff_keys {g h : Group} : (g == h) = true ↔ g.keys = h.keys := by
  refine ⟨keys_eq_of_beq, fun hkeys => (beq_iff_erase g h).2 ?_⟩
  obtain ⟨hlength, hmembers⟩ := List.cons.inj hkeys
  exact Selector.erase_eq_of_flatMap_keys (HashKey.tag.inj hlength) hmembers

/-! ## Selectors -/

namespace Selector

theorem tokens_erase (s : Selector) : s.erase.tokens = s.tokens := by
  induction s with
  | simple s => rfl
  | both first second _ ih => rw [erase, tokens, tokens, ih]
  | related link first second _ ih => rw [erase, tokens, tokens, ih]

theorem requiredType?_erase (s : Selector) : s.erase.requiredType? = s.requiredType? := by
  induction s with
  | simple s => rfl
  | both first second _ ih => rw [erase, requiredType?, requiredType?, ih]
  | related link first second _ ih => exact ih

theorem match?_erase {E : Type} (m : Model E) (e : E) (s : Selector) : s.erase.match? m e = s.match? m e :=
  match?_congr_anchors (s.anchors_erase m e)

/-- Two selectors that give the same answer to whatever is asked of them. -/
structure Indistinct (s t : Selector) : Prop where
  tokens : s.tokens = t.tokens
  css : s.css = t.css
  weight : s.weight = t.weight
  specificity : s.specificity = t.specificity
  requiredType? : s.requiredType? = t.requiredType?
  match? : ∀ {E : Type} (m : Model E) (e : E), s.match? m e = t.match? m e

/-- What does not ask for locators answers alike for selectors that differ in them at most. -/
theorem congr_of_erase {α : Type} {f : Selector → α} (hf : ∀ s, f s.erase = f s) {s t : Selector}
    (h : s.erase = t.erase) : f s = f t := by
  rw [← hf s, h, hf t]

theorem indistinct_of_erase {s t : Selector} (h : s.erase = t.erase) : s.Indistinct t where
  tokens := congr_of_erase tokens_erase h
  css := congrArg Token.render (congr_of_erase tokens_erase h)
  weight := congr_of_erase (fun s => s.alike_erase.weight) h
  specificity := congr_of_erase (fun s => s.alike_erase.specificity) h
  requiredType? := congr_of_erase requiredType?_erase h
  match? m e := congr_of_erase (f := fun s => s.match? m e) (match?_erase m e) h

end Selector

/-! ## Groups -/

namespace Group

open Selector (erase)

theorem map_congr_of_erase {α : Type} {f : Selector → α} (hf : ∀ s, f s.erase = f s) {ss ts : List Selector}
    (h : ss.map erase = ts.map erase) : ss.map f = ts.map f := by
  have hmap (ss : List Selector) : ss.map f = (ss.map erase).map f := by
    rw [List.map_map]
    exact List.map_congr_left fun s _ => (hf s).symm
  rw [hmap ss, h, ← hmap ts]

variable {g h : Group}

theorem tokens_congr (heq : g.members.map erase = h.members.map erase) : g.tokens = h.tokens := by
  obtain ⟨hfirst, hothers⟩ := List.cons.inj heq
  have hcomma (ss : List Selector) : (ss.flatMap fun s => .comma :: .whitespace " " :: s.tokens) =
      (ss.map Selector.tokens).flatMap fun ts => Token.comma :: .whitespace " " :: ts := by rw [List.flatMap_map]
  rw [tokens, tokens, Selector.congr_of_erase Selector.tokens_erase hfirst, hcomma g.others, hcomma h.others,
    map_congr_of_erase Selector.tokens_erase hothers]

theorem weight_congr (heq : g.members.map erase = h.members.map erase) : g.weight = h.weight := by
  rw [weight, weight, map_congr_of_erase (fun s => s.alike_erase.weight) heq]

theorem requiredType?_congr (heq : g.members.map erase = h.members.map erase) : g.requiredType? = h.requiredType? := by
  obtain ⟨hfirst, hothers⟩ := List.cons.inj heq
  have hall (ss : List Selector) (t : TypeName) : (ss.all fun s => s.requiredType? == some t) =
      (ss.map Selector.requiredType?).all (· == some t) := by
    rw [List.all_map]
    rfl
  simp only [requiredType?, hall, Selector.congr_of_erase Selector.requiredType?_erase hfirst,
    map_congr_of_erase Selector.requiredType?_erase hothers]

variable {E : Type}

theorem match?_congr (heq : g.members.map erase = h.members.map erase) (m : Model E) (e : E) :
    g.match? m e = h.match? m e := by
  have hfind (ss : List Selector) : ss.findSome? (fun s => s.match? m e) =
      (ss.map fun s => s.match? m e).findSome? id := by rw [List.findSome?_map]; rfl
  rw [match?, match?, hfind, hfind, map_congr_of_erase (Selector.match?_erase m e) heq]

/-- The winner among members is told by its place and weight, and so is the same without locators. -/
theorem winnerFrom_erase (m : Model E) (e : E) (best : Option Winner) (index : Nat) (ss : List Selector) :
    winnerFrom m e best index (ss.map erase) = winnerFrom m e best index ss := by
  induction ss generalizing best index with
  | nil => rfl
  | cons s ss ih =>
    have hbetter : better m e best index s.erase = better m e best index s := by
      rw [better, better, s.alike_erase.weight, s.alike_erase.holds]
    rw [List.map_cons, winnerFrom, winnerFrom, hbetter, ih]

theorem winner?_congr (heq : g.members.map erase = h.members.map erase) (m : Model E) (e : E) :
    g.winner? m e = h.winner? m e := by
  rw [winner?, winner?, ← winnerFrom_erase, heq, winnerFrom_erase]

/-- Groups select members that are equal, and leave the same notes. -/
theorem select_congr_of_erase (heq : g.members.map erase = h.members.map erase) (m : Model E) (e : E) :
    Option.Rel (fun s t => (s == t) = true) (g.select m e).1 (h.select m e).1 ∧
      (g.select m e).2 = (h.select m e).2 := by
  rw [select, select, winner?_congr heq]
  cases h.winner? m e with
  | none => exact ⟨.none, rfl⟩
  | some w =>
    refine ⟨?_, rfl⟩
    have hmember : g.members[w.index]?.map erase = h.members[w.index]?.map erase := by
      rw [← List.getElem?_map, heq, List.getElem?_map]
    dsimp only
    cases hs : g.members[w.index]? with
    | none =>
      rw [hs, Option.map_none, eq_comm, Option.map_eq_none_iff] at hmember
      rw [hmember]
      exact .none
    | some s =>
      rw [hs, Option.map_some, eq_comm, Option.map_eq_some_iff] at hmember
      obtain ⟨t, ht, hst⟩ := hmember
      rw [ht]
      exact .some ((Selector.beq_iff_erase s t).2 hst.symm)

/-- Two groups that give the same answer to whatever is asked of them, and select equal members. -/
structure Indistinct (g h : Group) : Prop where
  tokens : g.tokens = h.tokens
  css : g.css = h.css
  weight : g.weight = h.weight
  requiredType? : g.requiredType? = h.requiredType?
  match? : ∀ {E : Type} (m : Model E) (e : E), g.match? m e = h.match? m e
  select : ∀ {E : Type} (m : Model E) (e : E),
    Option.Rel (fun s t => (s == t) = true) (g.select m e).1 (h.select m e).1 ∧
      (g.select m e).2 = (h.select m e).2

theorem indistinct_of_erase (heq : g.members.map erase = h.members.map erase) : g.Indistinct h where
  tokens := tokens_congr heq
  css := congrArg Token.render (tokens_congr heq)
  weight := weight_congr heq
  requiredType? := requiredType?_congr heq
  match? := match?_congr heq
  select := select_congr_of_erase heq

end Group

/-! ## Equality -/

/-- Selectors are equal exactly if their trees are the same without any locators, and exactly if the same
keys are hashed of them; groups, if this holds of their members in order. Equal ones are told apart by
nothing but their locators. -/
theorem beq_congruence :
    (∀ s t : Selector,
      ((s == t) = true ↔ s.erase = t.erase) ∧ ((s == t) = true ↔ s.keys = t.keys) ∧
        ((s == t) = true → s.Indistinct t)) ∧
      ∀ g h : Group,
        ((g == h) = true ↔ g.members.map Selector.erase = h.members.map Selector.erase) ∧
          ((g == h) = true ↔ g.keys = h.keys) ∧ ((g == h) = true → g.Indistinct h) := by
  constructor
  · intro s t
    exact ⟨Selector.beq_iff_erase s t, Selector.beq_iff_keys,
      fun h => Selector.indistinct_of_erase ((Selector.beq_iff_erase s t).1 h)⟩
  · intro g h
    exact ⟨Group.beq_iff_erase g h, Group.beq_iff_keys,
      fun heq => Group.indistinct_of_erase ((Group.beq_iff_erase g h).1 heq)⟩

end StyleSelectors
