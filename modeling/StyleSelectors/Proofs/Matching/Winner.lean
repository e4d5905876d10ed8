/-
What it takes for a member of a group to decide the cascade: no other that matches exceeds it in
the key that is compared, and those after it do not even equal it. At most one member does
(`Decides.index_unique`). Going through the members once and keeping the better of two finds the one
that decides by weight (`map_index_winner?_eq_some_iff`). This is the one that is selected, and how much
it weighs does not depend on the order of the members: `select_eq_some_iff`, `map_weight_select_of_perm`.
-/
import StyleSelectors.Document
import StyleSelectors.Matching.Winner

namespace StyleSelectors

variable {E : Type} {m : Model E} {e : E}

/-! ## Deciding -/

theorem getElem?_concat {α : Type} {xs : List α} {x y : α} {i : Nat} (h : (xs ++ [x])[i]? = some y) :
    xs[i]? = some y ∨ i = xs.length ∧ x = y := by
  rcases Nat.lt_trichotomy i xs.length with hi | rfl | hi
  · exact .inl (by rwa [List.getElem?_append_left hi] at h)
  · exact .inr ⟨rfl, by simpa using h⟩
  · simp [List.getElem?_eq_none (show (xs ++ [x]).length ≤ i by simp; omega)] at h

/-- The selector `s`, at `i`, is the last of those with the greatest key among the members that match. -/
structure Decides (key : Selector → UInt32) (m : Model E) (e : E) (members : List Selector) (i : Nat)
    (s : Selector) : Prop where
  member : members[i]? = some s
  holds : s.holds m e = true
  most : ∀ (j : Nat) (t : Selector), members[j]? = some t → t.holds m e = true → key t ≤ key s
  last : ∀ (j : Nat) (t : Selector), members[j]? = some t → t.holds m e = true → i < j → key t < key s

namespace Decides

variable {key : Selector → UInt32} {members : List Selector} {i j : Nat} {s t : Selector}

theorem index_unique (hs : Decides key m e members i s) (ht : Decides key m e members j t) : i = j := by
  rcases Nat.lt_trichotomy i j with h | h | h
  · exact absurd (hs.last j t ht.member ht.holds h) (UInt32.not_lt.2 (ht.most i s hs.member hs.holds))
  · exact h
  · exact absurd (ht.last i s hs.member hs.holds h) (UInt32.not_lt.2 (hs.most j t ht.member ht.holds))

/-- Where a member decides, not all fail to match. -/
theorem not_forall_not_holds (hs : Decides key m e members i s) : ¬ ∀ t ∈ members, t.holds m e = false := fun hnone =>
  Bool.false_ne_true ((hnone s (List.mem_of_getElem? hs.member)).symm.trans hs.holds)

/-- Keys that agree on all that matches have the same member decide. -/
theorem congr {key' : Selector → UInt32} (hs : Decides key m e members i s)
    (hkey : ∀ t ∈ members, t.holds m e = true → key t = key' t) : Decides key' m e members i s := by
  have hsame {k : Nat} {u : Selector} (hk : members[k]? = some u) (hu : u.holds m e = true) : key u = key' u :=
    hkey u (List.mem_of_getElem? hk) hu
  refine ⟨hs.member, hs.holds, ?_, ?_⟩
  · intro k u hk hu
    rw [← hsame hk hu, ← hsame hs.member hs.holds]
    exact hs.most k u hk hu
  · intro k u hk hu hik
    rw [← hsame hk hu, ← hsame hs.member hs.holds]
    exact hs.last k u hk hu hik

/-- One more member decides if nothing before it exceeds it. -/
theorem concat_new (hs : s.holds m e = true)
    (hle : ∀ t ∈ members, t.holds m e = true → key t ≤ key s) :
    Decides key m e (members ++ [s]) members.length s := by
  refine ⟨by simp, hs, ?_, ?_⟩
  · intro j t hj ht
    rcases getElem?_concat hj with hj | ⟨-, rfl⟩
    · exact hle t (List.mem_of_getElem? hj) ht
    · exact UInt32.le_refl _
  · intro j t hj ht hlt
    rcases getElem?_concat hj with hj | ⟨rfl, -⟩
    · exact absurd (List.getElem?_eq_some_iff.1 hj).1 (Nat.not_lt_of_lt hlt)
    · exact absurd hlt (Nat.lt_irrefl _)

/-- A member still decides if one more member does not match, or falls below it. -/
theorem concat_old (hs : Decides key m e members i s) (hless : t.holds m e = true → key t < key s) :
    Decides key m e (members ++ [t]) i s := by
  have hi := (List.getElem?_eq_some_iff.1 hs.member).1
  refine ⟨by rw [List.getElem?_append_left hi, hs.member], hs.holds, ?_, ?_⟩
  · intro j u hj hu
    rcases getElem?_concat hj with hj | ⟨-, rfl⟩
    · exact hs.most j u hj hu
    · exact UInt32.le_of_lt (hless hu)
  · intro j u hj hu hlt
    rcases getElem?_concat hj with hj | ⟨-, rfl⟩
    · exact hs.last j u hj hu hlt
    · exact hless hu

end Decides

/-! ## Going through the members -/

namespace Group

/-- The winner of the members that have been seen, or that none of them matches. -/
def Settled (m : Model E) (e : E) (seen : List Selector) : Option Winner → Prop
  | none => ∀ s ∈ seen, s.holds m e = false
  | some w => ∃ s, Decides Selector.weight m e seen w.index s ∧ w.weight = s.weight

/-- The better of the winner so far and the next member is the winner of both. -/
theorem settled_better {seen : List Selector} {best : Option Winner} (h : Settled m e seen best) (s : Selector) :
    Settled m e (seen ++ [s]) (better m e best seen.length s) := by
  unfold better
  split
  · next hwins =>
    obtain ⟨hs, hbest⟩ := Bool.and_eq_true_iff.1 hwins
    refine ⟨s, Decides.concat_new hs fun t ht hholds => ?_, rfl⟩
    cases best with
    | none => rw [h t ht] at hholds; cases hholds
    | some w =>
      -- nothing before weighs more than the winner so far, which weighs no more than `s`
      obtain ⟨b, hb, hw⟩ := h
      obtain ⟨j, hj⟩ := List.mem_iff_getElem?.1 ht
      have hle : w.weight ≤ s.weight := by simpa using hbest
      exact UInt32.le_trans (hb.most j t hj hholds) (hw ▸ hle)
  · next hloses =>
    cases best with
    | none =>
      have hs : s.holds m e = false := by simpa using hloses
      show ∀ t ∈ seen ++ [s], t.holds m e = false
      intro t ht
      rcases List.mem_append.1 ht with ht | ht
      · exact h t ht
      · rwa [List.mem_singleton.1 ht]
    | some w =>
      obtain ⟨b, hb, hw⟩ := h
      refine ⟨b, hb.concat_old fun hs => ?_, hw⟩
      rw [← hw]
      exact UInt32.not_le.1 (by simpa [hs] using hloses)

theorem settled_winnerFrom {seen : List Selector} {best : Option Winner} (h : Settled m e seen best)
    (rest : List Selector) : Settled m e (seen ++ rest) (winnerFrom m e best seen.length rest) := by
  induction rest generalizing seen best with
  | nil => simpa [winnerFrom] using h
  | cons s rest ih => simpa [winnerFrom] using ih (settled_better h s)

theorem settled_winner? (m : Model E) (e : E) (g : Group) : Settled m e g.members (g.winner? m e) :=
  settled_winnerFrom (show Settled m e [] none from fun _ hs => absurd hs List.not_mem_nil) g.members

theorem winner?_eq_none_iff (g : Group) : g.winner? m e = none ↔ ∀ s ∈ g.members, s.holds m e = false := by
  have h := g.settled_winner? m e
  cases hw : g.winner? m e with
  | none =>
    rw [hw] at h
    exact iff_of_true rfl h
  | some w =>
    rw [hw] at h
    obtain ⟨s, hs, -⟩ := h
    exact iff_of_false (Option.some_ne_none w) hs.not_forall_not_holds

/-- The winner is the member that decides by weight. -/
theorem map_index_winner?_eq_some_iff (g : Group) (i : Nat) :
    (g.winner? m e).map Winner.index = some i ↔ ∃ s, Decides Selector.weight m e g.members i s := by
  have h := g.settled_winner? m e
  cases hw : g.winner? m e with
  | none =>
    rw [hw] at h
    exact iff_of_false (by simp) fun ⟨s, hs⟩ => hs.not_forall_not_holds h
  | some w =>
    rw [hw] at h
    obtain ⟨s, hs, -⟩ := h
    simp only [Option.map_some, Option.some.injEq]
    constructor
    · rintro rfl
      exact ⟨s, hs⟩
    · exact fun ⟨t, ht⟩ => hs.index_unique ht

/-! ## Selecting -/

/-- A selector is selected, with the note that its member leaves, if that member decides by weight. -/
theorem select_eq_some_iff {g : Group} {s : Selector} {notes : List String} :
    g.select m e = (some s, notes) ↔
      ∃ i, Decides Selector.weight m e g.members i s ∧ notes = [(Winner.mk i s.weight).message] := by
  have h := g.settled_winner? m e
  unfold select
  cases hw : g.winner? m e with
  | none =>
    rw [hw] at h
    exact iff_of_false (by simp) fun ⟨i, hs, _⟩ => hs.not_forall_not_holds h
  | some w =>
    rw [hw] at h
    obtain ⟨t, ht, hweight⟩ := h
    simp only [Prod.mk.injEq, ht.member, Option.some.injEq]
    constructor
    · rintro ⟨rfl, rfl⟩
      exact ⟨w.index, ht, by rw [← hweight]⟩
    · rintro ⟨i, hs, rfl⟩
      obtain rfl := hs.index_unique ht
      obtain rfl := Option.some.inj (ht.member.symm.trans hs.member)
      exact ⟨rfl, by rw [← hweight]⟩

/-- Nothing is selected, and no note left, if the group does not match. -/
theorem select_eq_none_iff {g : Group} : (g.select m e).1 = none ↔ g.holds m e = false := by
  rw [holds_eq_false_iff, ← winner?_eq_none_iff]
  cases hw : g.winner? m e with
  | none => exact iff_of_true (by rw [select, hw]) rfl
  | some w =>
    obtain ⟨s, hs⟩ := (g.map_index_winner?_eq_some_iff w.index).1 (by rw [hw]; rfl)
    refine iff_of_false ?_ (Option.some_ne_none w)
    rw [select_eq_some_iff.2 ⟨w.index, hs, rfl⟩]
    exact Option.some_ne_none s

theorem select_of_not_holds {g : Group} (h : g.holds m e = false) : g.select m e = (none, []) := by
  rw [select, (winner?_eq_none_iff g).2 (holds_eq_false_iff.1 h)]

/-- The weight of what is selected is the greatest of all that match. -/
theorem map_weight_select_eq_some_iff {g : Group} {w : UInt32} :
    (g.select m e).1.map Selector.weight = some w ↔
      (∃ s ∈ g.members, s.holds m e = true ∧ s.weight = w) ∧
        ∀ s ∈ g.members, s.holds m e = true → s.weight ≤ w := by
  cases hselect : (g.select m e).1 with
  | none =>
    have hnone := holds_eq_false_iff.1 (select_eq_none_iff.1 hselect)
    refine iff_of_false (by simp) fun ⟨⟨s, hs, hholds, _⟩, _⟩ => ?_
    exact Bool.false_ne_true ((hnone s hs).symm.trans hholds)
  | some b =>
    obtain ⟨i, hb, -⟩ := select_eq_some_iff.1 (Prod.ext hselect rfl : g.select m e = (some b, (g.select m e).2))
    have hmost : ∀ s ∈ g.members, s.holds m e = true → s.weight ≤ b.weight := by
      intro s hs hholds
      obtain ⟨j, hj⟩ := List.mem_iff_getElem?.1 hs
      exact hb.most j s hj hholds
    simp only [Option.map_some, Option.some.injEq]
    constructor
    · rintro rfl
      exact ⟨⟨b, List.mem_of_getElem? hb.member, hb.holds, rfl⟩, hmost⟩
    · rintro ⟨⟨s, hs, hholds, rfl⟩, hle⟩
      exact UInt32.le_antisymm (hle b (List.mem_of_getElem? hb.member) hb.holds) (hmost s hs hholds)

/-! ## The order of the members -/

theorem holds_of_perm {g h : Group} (hperm : g.members.Perm h.members) : g.holds m e = h.holds m e := by
  rw [Bool.eq_iff_iff, holds_iff_exists, holds_iff_exists]
  exact exists_congr fun s => and_congr_left fun _ => hperm.mem_iff

theorem map_weight_select_of_perm {g h : Group} (hperm : g.members.Perm h.members) :
    (g.select m e).1.map Selector.weight = (h.select m e).1.map Selector.weight := by
  refine Option.ext fun w => ?_
  simp only [map_weight_select_eq_some_iff, hperm.mem_iff]

/-- A group selects nothing and leaves no note exactly if it does not match, that is if no member does.
Otherwise it selects the member that decides by weight, and leaves one note, which tells its place and
its weight. In whatever order the members are, the group matches the same and the weight is the same. -/
theorem select_decides (m : Model E) (e : E) (g : Group) :
    ((g.select m e).1 = none ↔ g.holds m e = false) ∧
      (g.holds m e = false ↔ ∀ s ∈ g.members, s.holds m e = false) ∧
      (g.holds m e = false → g.select m e = (none, [])) ∧
      (g.holds m e = true → ∃ i s, Decides Selector.weight m e g.members i s ∧
        g.select m e = (some s, [(Winner.mk i s.weight).message])) ∧
      ∀ h : Group, g.members.Perm h.members →
        g.holds m e = h.holds m e ∧
          (g.select m e).1.map Selector.weight = (h.select m e).1.map Selector.weight := by
  refine ⟨select_eq_none_iff, holds_eq_false_iff, select_of_not_holds, fun hholds => ?_, fun h hperm => ?_⟩
  · cases hselect : g.select m e with
    | mk found notes =>
      cases found with
      | none =>
        have hnot := select_eq_none_iff.1 (congrArg Prod.fst hselect)
        exact absurd hholds (by rw [hnot]; exact Bool.false_ne_true)
      | some s =>
        obtain ⟨i, hs, rfl⟩ := select_eq_some_iff.1 hselect
        exact ⟨i, s, hs, rfl⟩
  · exact ⟨holds_of_perm hperm, map_weight_select_of_perm hperm⟩

/-- A paragraph of two classes, on its own. -/
def twoClasses : Document := Document.empty.append none { tag := "p", classes := ["a", "b"] }

/-- Two members that weigh the same, with a lighter one between them and a heavier one that does not match. -/
def tiedGroup : Group :=
  ⟨.simple (.className "a"), [.simple (.type ⟨.any, "p"⟩), .simple (.className "b"), .simple (.id "x")], none⟩

/-- The same members from the last to the first. -/
def tiedBackwards : Group :=
  ⟨.simple (.id "x"), [.simple (.className "b"), .simple (.type ⟨.any, "p"⟩), .simple (.className "a")], none⟩

theorem select_decides_tiedGroup :
    tiedGroup.holds twoClasses.model 0 = true ∧
      (∃ i s, Decides Selector.weight twoClasses.model 0 tiedGroup.members i s ∧
        tiedGroup.select twoClasses.model 0 = (some s, [(Winner.mk i s.weight).message])) ∧
      tiedGroup.select twoClasses.model 0 =
        (some (.simple (.className "b")), ["selector group member 2 wins with specificity 10"]) ∧
      (tiedGroup.select twoClasses.model 0).1.map Selector.weight =
        (tiedBackwards.select twoClasses.model 0).1.map Selector.weight :=
  have hdecides := select_decides twoClasses.model 0 tiedGroup
  have hperm : tiedGroup.members.Perm tiedBackwards.members := (List.reverse_perm tiedGroup.members).symm
  ⟨rfl, hdecides.2.2.2.1 rfl, by decide +kernel, (hdecides.2.2.2.2 tiedBackwards hperm).2⟩

end Group

end StyleSelectors
