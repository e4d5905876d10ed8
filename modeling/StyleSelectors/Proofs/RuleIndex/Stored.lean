/-
What an index keeps of the rules that are filed in it. Filing a rule adds this one rule to all that
the buckets hold together, whichever bucket it goes to and whatever was filed before
(`stored_insert_perm`), so nothing is lost and nothing is there twice: after any number of rules each
is kept at one place, under the number at which it was filed (`keeps_each_once`). What is looked up
under a name is what was filed for it, in the order it came.
-/
import StyleSelectors.Proofs.RuleIndex.Scan

namespace StyleSelectors

variable {α R : Type}

/-! ## Rules as they were given -/

namespace Filed

/-- A selector and its rule, without what the index adds. -/
def given (f : Filed R) : Selector × R := (f.selector, f.rule)

end Filed

theorem map_given_filings (rules : List (Selector × R)) : (filings rules).map Filed.given = rules := by
  rw [filings, List.map_map]
  exact List.zipIdx_map_fst 0 rules

/-- To choose among rules by their selector is the same before they are filed and after. -/
theorem map_given_filter_filings (rules : List (Selector × R)) (p : Selector → Bool) :
    ((filings rules).filter fun f => p f.selector).map Filed.given = rules.filter fun q => p q.1 := by
  conv_rhs => rw [← map_given_filings rules, List.filter_map]
  rfl

namespace RuleIndex

/-! ## Tables of buckets -/

/-- What joins the first of two lists joins both of them. -/
theorem perm_append_last (xs ys : List α) (a : α) : (xs ++ [a] ++ ys).Perm (xs ++ ys ++ [a]) := by
  rw [List.append_assoc, List.append_assoc]
  exact List.perm_append_comm.append_left xs

section Buckets

variable (t : Std.HashMap String (Array α)) (name : String)

/-- All that a table holds, one bucket after the other. -/
def heldIn : List α := t.toList.flatMap fun p => p.2.toList

/-- What a table holds in the buckets of other names. -/
def heldApart : List α := (t.toList.filter fun p => ¬(name == p.1)).flatMap fun p => p.2.toList

/-- Tables that have the same bucket for each name hold the same. -/
theorem heldIn_perm_of_getElem? {t u : Std.HashMap String (Array α)} (h : ∀ name : String, t[name]? = u[name]?) :
    (heldIn t).Perm (heldIn u) := by
  have hnodup (v : Std.HashMap String (Array α)) : v.toList.Nodup :=
    Std.HashMap.distinct_keys_toList.imp fun hne heq => by simp [heq] at hne
  refine List.Perm.flatMap_right _ ((List.perm_ext_iff_of_nodup (hnodup t) (hnodup u)).2 ?_)
  rintro ⟨name, b⟩
  rw [Std.HashMap.mem_toList_iff_getElem?_eq_some, Std.HashMap.mem_toList_iff_getElem?_eq_some, h]

theorem heldIn_insert_perm (b : Array α) : (heldIn (t.insert name b)).Perm (b.toList ++ heldApart t name) :=
  List.Perm.flatMap_right _ Std.HashMap.toList_insert_perm

/-- A table holds what is in the bucket of a name, if it has one, and what is in the others. -/
theorem heldIn_perm : (heldIn t).Perm ((t.getD name #[]).toList ++ heldApart t name) := by
  by_cases h : name ∈ t
  · -- to put the bucket where it is changes nothing
    refine (heldIn_perm_of_getElem? fun n => ?_).trans (heldIn_insert_perm t name _)
    rw [Std.HashMap.getElem?_insert]
    split
    · next hn => rw [← beq_iff_eq.1 hn, Std.HashMap.getElem?_eq_some_getD h]
    · rfl
  · have hothers : (t.toList.filter fun p => ¬(name == p.1)) = t.toList := by
      refine List.filter_eq_self.2 fun p hp => decide_eq_true fun heq => h ?_
      rw [beq_iff_eq.1 heq]
      exact Std.HashMap.mem_iff_isSome_getElem?.2
        (Option.isSome_of_eq_some (Std.HashMap.mem_toList_iff_getElem?_eq_some.1 hp))
    rw [Std.HashMap.getD_eq_fallback h, heldApart, hothers]
    rfl

/-- What joins a bucket is all that the table holds more. -/
theorem heldIn_alter_push_perm (a : α) :
    (heldIn (t.alter name fun b => some ((b.getD #[]).push a))).Perm (heldIn t ++ [a]) := by
  have hget (n : String) : (t.alter name fun b => some ((b.getD #[]).push a))[n]? =
      (t.insert name ((t.getD name #[]).push a))[n]? := by
    rw [Std.HashMap.getElem?_alter, Std.HashMap.getElem?_insert, Std.HashMap.getD_eq_getD_getElem?]
  calc List.Perm (heldIn (t.alter name fun b => some ((b.getD #[]).push a)))
        (heldIn (t.insert name ((t.getD name #[]).push a))) := heldIn_perm_of_getElem? hget
    List.Perm _ (((t.getD name #[]).push a).toList ++ heldApart t name) := heldIn_insert_perm t name _
    List.Perm _ ((t.getD name #[]).toList ++ heldApart t name ++ [a]) := by
      rw [Array.toList_push]
      exact perm_append_last ..
    List.Perm _ (heldIn t ++ [a]) := (heldIn_perm t name).symm.append_right [a]

end Buckets

/-! ## What is stored -/

/-- All rules of an index, over all its buckets. -/
def stored (x : RuleIndex R) : List (Filed R) := heldIn x.byName ++ x.unbound.toList

/-- Filing a rule stores this one rule more, numbered by how many there were. -/
theorem stored_insert_perm (x : RuleIndex R) (s : Selector) (rule : R) :
    (x.insert s rule).stored.Perm (x.stored ++ [⟨s, rule, s.specificity, x.size⟩]) := by
  unfold insert stored
  split
  · exact ((heldIn_alter_push_perm x.byName _ _).append_right _).trans (perm_append_last ..)
  · rw [Array.toList_push, List.append_assoc]

/-- What is stored is what was filed, each rule once. -/
theorem stored_ofList_perm (rules : List (Selector × R)) : (ofList rules).stored.Perm (filings rules) := by
  induction rules using List.reverseRecOn with
  | nil => simp [ofList, empty, stored, heldIn, filings]
  | append_singleton rules p ih =>
    rw [ofList_concat, filings_concat, ← size_ofList rules]
    exact (stored_insert_perm _ p.1 p.2).trans (ih.append_right _)

/-! ## What is looked up -/

/-- Under a name are the rules bound to it and then those bound to nothing, each kind as it came. -/
theorem map_given_candidates (rules : List (Selector × R)) (name : String) :
    ((ofList rules).candidates name).map Filed.given =
      (rules.filter fun p => p.1.requiredType?.map TypeName.name = some name) ++
        rules.filter fun p => p.1.requiredType? = none := by
  rw [candidates, bound_ofList, unbound_ofList, List.map_append]
  have hbound := map_given_filter_filings rules fun s => s.requiredType?.map TypeName.name = some name
  have hunbound := map_given_filter_filings rules fun s => s.requiredType? = none
  exact congrArg₂ _ hbound hunbound

/-- An index keeps each rule once, whatever was filed in whatever order: it knows how many there are;
under a name it has those bound to the name and then those bound to nothing, in the order they came;
and all its buckets together hold one rule for each number below its size, the one that was filed at
this number, with the specificity of its selector. -/
theorem keeps_each_once (rules : List (Selector × R)) :
    (ofList rules).size = rules.length ∧
      ((ofList rules).isEmpty = true ↔ rules = []) ∧
      (∀ name, ((ofList rules).candidates name).map Filed.given =
        (rules.filter fun p => p.1.requiredType?.map TypeName.name = some name) ++
          rules.filter fun p => p.1.requiredType? = none) ∧
      ((ofList rules).stored.map Filed.order).Perm (List.range (ofList rules).size) ∧
      ∀ f ∈ (ofList rules).stored,
        rules[f.order]? = some f.given ∧ f.specificity = f.selector.specificity := by
  refine ⟨size_ofList rules, ?_, map_given_candidates rules, ?_, ?_⟩
  · rw [isEmpty, size_ofList, beq_iff_eq, List.length_eq_zero_iff]
  · rw [size_ofList, ← map_order_filings]
    exact (stored_ofList_perm rules).map Filed.order
  · intro f hf
    exact mem_filings.1 ((stored_ofList_perm rules).subset hf)

end RuleIndex

end StyleSelectors
