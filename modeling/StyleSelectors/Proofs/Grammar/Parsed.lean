/-
What every selector that is read is like. Its names and strings come from tokens that were read, so
it can be told from its text wherever the arguments in it stay inside their brackets; and its
combinators stand outside all operands on the same element.
-/
import StyleSelectors.Grammar.Parser
import StyleSelectors.Proofs.Selector.Reread
import StyleSelectors.Proofs.Token.Clean

namespace StyleSelectors

open Text

variable {P : Type}

/-! ## Nodes -/

namespace Node

mutual

/-- Whether the tokens of a node could be read, inside blocks too. -/
def Clean : Node P → Prop
  | .leaf token .. => token.Clean
  | .block token _ _ inside .. => token.Clean ∧ CleanAll inside

def CleanAll : List (Node P) → Prop
  | [] => True
  | n :: rest => Clean n ∧ CleanAll rest

end

theorem Clean.token {n : Node P} (h : n.Clean) : n.token.Clean := by
  cases n with
  | leaf _ _ _ => exact h
  | block _ _ _ _ _ _ _ => exact h.1

theorem cleanAll_ofComponents {p : Position} {cs : List Component}
    (h : ∀ x ∈ Component.lexemesOf cs, x.token.Clean) : CleanAll (ofComponents p cs).1 := by
  fun_induction ofComponents p cs with
  | case1 => trivial
  | case2 p x rest q more ih =>
    obtain ⟨hx, hrest⟩ := List.forall_mem_cons.1 (show ∀ y ∈ x :: Component.lexemesOf rest, y.token.Clean from h)
    split
    · exact ih hrest
    · exact ⟨hx, ih hrest⟩
  | case3 p head inside close rest q within r more ihInside _ ih =>
    rw [Component.lexemesOf, Component.lexemes, List.cons_append, List.cons_append, List.append_assoc] at h
    obtain ⟨hhead, h⟩ := List.forall_mem_cons.1 h
    obtain ⟨hinside, h⟩ := List.forall_mem_append.1 h
    exact ⟨⟨hhead, ihInside hinside⟩, ih (List.forall_mem_append.1 h).2⟩

theorem cleanAll_iff {ns : List (Node P)} : CleanAll ns ↔ ∀ n ∈ ns, n.Clean := by
  induction ns with
  | nil => simp [CleanAll]
  | cons n ns ih => simp [CleanAll, ih]

theorem cleanAll_dropWhile (p : Node P → Bool) {ns : List (Node P)} (h : CleanAll ns) :
    CleanAll (ns.dropWhile p) :=
  cleanAll_iff.2 fun n hn => cleanAll_iff.1 h n (List.dropWhile_sublist p |>.subset hn)

end Node

namespace Cursor

variable {c d : Cursor P}

/-- Whether all that is ahead could be read. -/
def Clean (c : Cursor P) : Prop := Node.CleanAll c.rest

theorem Clean.next (h : c.Clean) : c.next.Clean := by
  unfold Cursor.next
  split
  · exact h
  · next hrest =>
    rw [Clean, hrest] at h
    exact h.2

theorem Clean.skipSpace (h : c.Clean) : c.skipSpace.Clean := Node.cleanAll_dropWhile _ h

theorem Clean.token {t : Token} (h : c.Clean) (ht : c.token? = some t) : t.Clean := by
  cases hrest : c.rest with
  | nil =>
    rw [token?, hrest] at ht
    cases ht
  | cons n rest =>
    rw [token?, hrest] at ht
    rw [Clean, hrest] at h
    cases ht
    exact h.1.token

theorem clean_inside {n : Node P} (h : n.Clean) : (inside n).Clean := by
  cases n with
  | leaf _ _ _ => trivial
  | block _ _ _ _ _ _ _ => exact h.2

theorem clean_ofChars (cs : List Char) : (ofChars cs).Clean := by
  apply Node.cleanAll_ofComponents
  rw [Component.ofChars, Component.lexemesOf_ofLexemes]
  exact fun x hx => Lexeme.clean_of_mem_ofChars hx

theorem clean_pieces (here stop : P) {ns : List (Node P)} (h : Node.CleanAll ns) :
    (pieces here stop ns).1.Clean ∧ ∀ c ∈ (pieces here stop ns).2, c.Clean := by
  induction ns generalizing here with
  | nil => exact ⟨trivial, nofun⟩
  | cons n ns ih =>
    rw [pieces]
    split
    · obtain ⟨hfirst, hothers⟩ := ih n.finish h.2
      exact ⟨trivial, List.forall_mem_cons.2 ⟨hfirst, hothers⟩⟩
    · obtain ⟨hfirst, hothers⟩ := ih here h.2
      exact ⟨⟨h.1, hfirst⟩, hothers⟩

/-! ## Attributes -/

theorem bind_eq_ok {E α β : Type} {x : Except E α} {f : α → Except E β} {b : β} (h : (x >>= f) = .ok b) :
    ∃ a, x = .ok a ∧ f a = .ok b := by
  cases x with
  | error e => cases h
  | ok a => exact ⟨a, rfl, h⟩

theorem legible_localName {name : String} (hc : c.Clean) (h : c.localName = .ok (name, d)) :
    IsName name ∧ d.Clean := by
  unfold localName at h
  split at h
  · next ht =>
    cases h
    exact ⟨hc.token ht, hc.next⟩
  · cases h

theorem legible_attributeName {ns : Namespace} {name : String} (hc : c.Clean)
    (h : c.attributeName = .ok ((ns, name), d)) : ns.Legible ∧ IsName name ∧ d.Clean := by
  unfold attributeName at h
  split at h
  · next label ht =>
    split at h
    · obtain ⟨⟨found, e⟩, hfound, he⟩ := map_eq_ok h
      cases he
      exact ⟨hc.token ht, legible_localName hc.next.next hfound⟩
    · cases h
      exact ⟨trivial, hc.token ht, hc.next⟩
  · split at h
    · obtain ⟨⟨found, e⟩, hfound, he⟩ := map_eq_ok h
      cases he
      exact ⟨trivial, legible_localName hc.next.next hfound⟩
    · cases h
  · obtain ⟨⟨found, e⟩, hfound, he⟩ := map_eq_ok h
    cases he
    exact ⟨trivial, legible_localName hc.next hfound⟩
  · cases h

theorem legible_operand {value : String} (hc : c.Clean) (h : c.operand = .ok (value, d)) : IsShown value := by
  unfold operand at h
  split at h
  · next ht =>
    cases h
    exact (hc.skipSpace.token ht).2
  · next ht =>
    cases h
    exact hc.skipSpace.token ht
  · cases h
  · cases h

theorem legible_valueTest {t : Token} {test : String → ValueTest} (h : valueTest? t = some test) {value : String}
    (hvalue : IsShown value) : (test value).Legible := by
  unfold valueTest? at h
  split at h
  · cases h
    exact hvalue
  · cases h
    exact hvalue
  · cases h

theorem legible_attributeSelector {a : AttributeSelector} {flagged : Bool} (hc : c.Clean)
    (h : c.attributeSelector = .ok (a, flagged)) : a.Legible := by
  unfold attributeSelector at h
  obtain ⟨⟨⟨ns, name⟩, e⟩, hname, h⟩ := bind_eq_ok h
  obtain ⟨hns, hname, he⟩ := legible_attributeName hc.skipSpace hname
  dsimp only at h
  split at h
  · cases h
    exact ⟨hns, hname, trivial⟩
  · next operator _ =>
    split at h
    · cases h
    · next test htest =>
      obtain ⟨⟨value, f⟩, hvalue, h⟩ := bind_eq_ok h
      obtain ⟨-, -, h⟩ := bind_eq_ok h
      cases h
      exact ⟨hns, hname, legible_valueTest htest (legible_operand he.skipSpace.next hvalue)⟩

/-! ## Parts -/

end Cursor

/-- Whether a part, as it is printed, can be told from its text wherever its arguments can. -/
def Simple.IsRead (s : Simple) : Prop := s.isClosed = true → s.printed.Legible

/-- Whether what a part stands for has come of what could be read. -/
def Item.IsRead : Item P → Prop
  | .simple s => s.IsRead
  | .unsupported _ => True
  | .negation inside => inside.Clean

namespace Cursor

variable {c d : Cursor P} {ns : Namespace} {i : Item P}

theorem isRead_qualified (hc : c.Clean) (h : c.qualified ns = .ok (i, d)) : i.IsRead ∧ d.Clean := by
  unfold qualified at h
  split at h
  · next name ht =>
    cases h
    exact ⟨fun _ => ⟨ns.legible_printed, hc.token ht⟩, hc.next⟩
  · cases h
    split
    · exact ⟨fun _ => trivial, hc.next⟩
    · exact ⟨trivial, hc.next⟩
  · cases h

theorem isRead_typeAfter {written : Simple} (hwritten : written.IsRead) (hc : c.Clean)
    (h : c.typeAfter ns written = .ok (i, d)) : i.IsRead ∧ d.Clean := by
  unfold typeAfter at h
  split at h
  · exact isRead_qualified hc.next h
  · cases h
    exact ⟨hwritten, hc⟩

theorem isRead_pseudoElement (hc : c.Clean) (h : c.pseudoElement = .ok (i, d)) : i.IsRead ∧ d.Clean := by
  unfold pseudoElement at h
  split at h
  · cases h
    exact ⟨trivial, hc.next⟩
  · cases h
    exact ⟨trivial, hc.next⟩
  · cases h

end Cursor

theorem Text.toList_lower (s : String) : (lower s).toList = s.toList.map Char.toLower := String.toList_ofList

theorem IsName.lower {name : String} (h : IsName name) : IsName (lower name) := by
  constructor
  · intro hempty
    have hmap : name.toList.map Char.toLower = [] := by rw [← toList_lower, hempty, String.toList_empty]
    exact h.1 (String.toList_eq_nil_iff.1 (List.map_eq_nil_iff.1 hmap))
  · intro hnul
    rw [toList_lower] at hnul
    obtain ⟨c, hc, hlower⟩ := List.mem_map.1 hnul
    exact h.2 (toLower_eq_nul_iff.1 hlower ▸ hc)

namespace Cursor

variable {c d : Cursor P} {ns : Namespace} {i : Item P}

theorem isRead_pseudo (hc : c.Clean) (h : c.pseudo = .ok (i, d)) : i.IsRead ∧ d.Clean := by
  unfold pseudo at h
  split at h
  · cases h
  · next n rest hrest =>
    have hn : n.Clean := by
      rw [Clean, hrest] at hc
      exact hc.1
    split at h
    · next name ht =>
      have hname : IsName name := by simpa [Token.Clean, ht] using hn.token
      split at h
      · cases h
        exact ⟨trivial, hc.next⟩
      · next hmodern =>
        cases h
        exact ⟨fun _ => ⟨hname.lower, lower_lower name, by simpa using hmodern⟩, hc.next⟩
    · next name ht =>
      have hname : IsName name := by simpa [Token.Clean, ht] using hn.token
      split at h
      · cases h
        exact ⟨(clean_inside hn).skipSpace, hc.next⟩
      · next hnot =>
        cases h
        refine ⟨fun hclosed => ⟨hname.lower, lower_lower name, ?_, hclosed⟩, hc.next⟩
        intro heq
        apply hnot
        rw [sameIgnoringCase, heq]
        rfl
    · exact isRead_pseudoElement hc.next h
    · cases h

/-- A part has come of what could be read. -/
theorem isRead_item? (hc : c.Clean) (h : c.item? ns = .ok (some (i, d))) : i.IsRead ∧ d.Clean := by
  unfold item? at h
  split at h
  · cases h
  · next n rest hrest =>
    have hn : n.Clean := by
      rw [Clean, hrest] at hc
      exact hc.1
    have htoken := hn.token
    split at h
    · next name ht =>
      rw [ht] at htoken
      obtain ⟨_, ha, hs⟩ := map_eq_ok h
      cases hs
      refine isRead_typeAfter ?_ hc.next ha
      exact fun _ => ⟨ns.legible_printed, htoken⟩
    · obtain ⟨_, ha, hs⟩ := map_eq_ok h
      cases hs
      refine isRead_typeAfter ?_ hc.next ha
      exact fun _ => trivial
    · obtain ⟨_, ha, hs⟩ := map_eq_ok h
      cases hs
      exact isRead_qualified hc.next ha
    · next name ht =>
      rw [ht] at htoken
      cases h
      exact ⟨fun _ => htoken, hc.next⟩
    · obtain ⟨⟨name, e⟩, ha, hs⟩ := map_eq_ok h
      cases hs
      obtain ⟨hname, he⟩ := legible_localName hc.next ha
      exact ⟨fun _ => hname, he⟩
    · obtain ⟨⟨a, flagged⟩, ha, hs⟩ := map_eq_ok h
      cases flagged with
      | true =>
        cases hs
        exact ⟨trivial, hc.next⟩
      | false =>
        cases hs
        exact ⟨fun _ => legible_attributeSelector (clean_inside hn) ha, hc.next⟩
    · obtain ⟨_, ha, hs⟩ := map_eq_ok h
      cases hs
      exact isRead_pseudo hc.next ha
    · cases h

/-! ## Compounds -/

theorem isRead_negationOf {k : Compound P} {s : Simple} (hk : k.first.IsRead)
    (h : (negationOf (k, d)).result = .ok s) : s.IsRead := by
  unfold negationOf at h
  dsimp only at h
  split at h
  · cases h
  · split at h
    · cases h
      exact fun _ => trivial
    · split at h
      · cases h
        exact fun _ => trivial
      · cases h
        exact hk

theorem compoundOf_eq_ok {ss : List Simple} {k : Compound P} {e : Cursor P}
    (h : (c.compoundOf (ss, e)).result = .ok (k, d)) : ss = k.first :: k.others ∧ e = d := by
  cases ss with
  | nil => cases h
  | cons s rest =>
    cases h
    exact ⟨rfl, rfl⟩

/-- The parts that are read from here on. -/
theorem isRead_simples (hc : c.Clean) {ss : List Simple} (h : (c.simples ns).result = .ok (ss, d)) :
    (∀ s ∈ ss, s.IsRead) ∧ d.Clean := by
  fun_induction simples ns c generalizing ss d with
  | case1 => cases h
  | case2 c =>
    cases h
    exact ⟨List.forall_mem_nil _, hc⟩
  | case3 c s e hi _ ih =>
    obtain ⟨rest, hrest, rfl⟩ := simples_result_cons h
    obtain ⟨hs, he⟩ := isRead_item? hc hi
    obtain ⟨hss, hd⟩ := ih he hrest
    exact ⟨List.forall_mem_cons.2 ⟨hs, hss⟩, hd⟩
  | case4 c why e hi _ ih =>
    obtain ⟨rest, hrest, rfl⟩ := simples_result_cons h
    obtain ⟨hss, hd⟩ := ih (isRead_item? hc hi).2 hrest
    exact ⟨List.forall_mem_cons.2 ⟨fun _ => trivial, hss⟩, hd⟩
  | case5 c inside e hi _ _ ihInside ih =>
    -- a negation is of one part, the first that is read inside
    obtain ⟨s, hs, hmore⟩ := Report.bind_eq_ok h
    obtain ⟨rest, hrest, rfl⟩ := simples_result_cons hmore
    obtain ⟨hinside, he⟩ := isRead_item? hc hi
    obtain ⟨⟨k, f⟩, hk, hs⟩ := Report.bind_eq_ok hs
    obtain ⟨⟨ts, g⟩, hts, hk⟩ := Report.bind_eq_ok hk
    obtain ⟨rfl, rfl⟩ := compoundOf_eq_ok hk
    have hfirst := (List.forall_mem_cons.1 (ihInside hinside hts).1).1
    obtain ⟨hss, hd⟩ := ih he hrest
    exact ⟨List.forall_mem_cons.2 ⟨isRead_negationOf hfirst hs, hss⟩, hd⟩

theorem isRead_compound (hc : c.Clean) {k : Compound P} (h : (c.compound ns).result = .ok (k, d)) :
    (∀ s ∈ k.first :: k.others, s.IsRead) ∧ d.Clean := by
  obtain ⟨⟨ss, e⟩, hss, hk⟩ := Report.bind_eq_ok h
  obtain ⟨rfl, rfl⟩ := compoundOf_eq_ok hk
  exact isRead_simples hc hss

/-! ## Trees -/

theorem clean_combinator? {e : Cursor P} {link : Combinator} (hc : c.Clean)
    (h : c.combinator? = .ok (some (link, e))) : e.Clean := by
  unfold combinator? at h
  split at h
  · cases h
  · split at h
    · cases h
      exact hc.skipSpace.next
    · split at h
      · cases h
        exact hc.skipSpace
      · cases h

end Cursor

/-- Whether every part can be told from its text wherever its arguments can, and no combinator stands
inside operands on the same element. -/
structure Selector.IsRead (s : Selector) : Prop where
  parts : ∀ p ∈ s.parts, p.IsRead
  isLayered : s.isLayered = true

namespace Selector

theorem parts_conjunction (locator : Option Locator) (s : Simple) (ss : List Simple) :
    (conjunction locator s ss).parts = s :: ss ∧ (conjunction locator s ss).isCompound = true := by
  induction ss generalizing s with
  | nil => exact ⟨rfl, rfl⟩
  | cons t ss ih =>
    obtain ⟨hparts, hcompound⟩ := ih t
    exact ⟨congrArg (s :: ·) hparts, hcompound⟩

theorem isLayered_of_isCompound {s : Selector} (h : s.isCompound = true) : s.isLayered = true := by
  cases s with
  | simple _ => rfl
  | both _ _ _ => exact h
  | related _ _ _ _ => cases h

end Selector

namespace Cursor

variable {c d : Cursor P} {ns : Namespace}

/-- The tree of a complex selector that is read. -/
theorem isRead_complex (hc : c.Clean) {x : Complex P} (h : (c.complex ns).result = .ok x)
    {locate : P → Locator} {s : Selector} (hs : x.tree locate = .ok s) : s.IsRead := by
  fun_induction complex ns c generalizing x s with
  | case1 | case2 | case4 => cases h
  | case3 c k d hk hd =>
    cases h
    cases hs
    obtain ⟨hparts, hcompound⟩ := Selector.parts_conjunction (some (locate k.place)) k.first k.others
    refine ⟨?_, Selector.isLayered_of_isCompound hcompound⟩
    rw [hparts]
    exact (isRead_compound hc hk).1
  | case5 c k d hk link e hd hne _ _ _ more ih =>
    obtain ⟨y, hy, rfl⟩ := map_eq_ok h
    obtain ⟨hparts, hd'⟩ := isRead_compound hc hk
    rw [Complex.tree] at hs
    split at hs
    · cases hs
    · next second hsecond =>
      -- a tree comes of this only if the left operand is one part
      obtain ⟨hmore, hlayered⟩ := ih (clean_combinator? hd' hd).skipSpace hy hsecond
      split at hs
      · cases hs
        exact ⟨List.forall_mem_cons.2 ⟨(List.forall_mem_cons.1 hparts).1, hmore⟩, hlayered⟩
      · cases hs

/-! ## Groups -/

section Members

variable {locate : P → Locator}

theorem isRead_selector (hc : c.Clean) {s : Selector}
    (h : (c.selector locate ns).result = .ok s) : s.IsRead := by
  obtain ⟨x, hx, h⟩ := Report.bind_eq_ok h
  unfold Complex.selector at h
  split at h
  · next t htree =>
    cases h
    exact isRead_complex hc.skipSpace hx htree
  · cases h
    exact ⟨List.forall_mem_singleton.2 fun _ => trivial, rfl⟩

theorem isRead_selectors {cs : List (Cursor P)} (hcs : ∀ c ∈ cs, c.Clean) {ss : List Selector}
    (h : (selectors locate ns cs).result = .ok ss) : ∀ s ∈ ss, s.IsRead := by
  induction cs generalizing ss with
  | nil =>
    cases h
    exact nofun
  | cons c cs ih =>
    obtain ⟨hc, hcs⟩ := List.forall_mem_cons.1 hcs
    obtain ⟨s, hs, h⟩ := Report.bind_eq_ok h
    obtain ⟨rest, hrest, rfl⟩ := Report.map_eq_ok h
    exact List.forall_mem_cons.2 ⟨isRead_selector hc hs, ih hcs hrest⟩

theorem isRead_group (hc : c.Clean) {g : Group} (h : (c.group locate ns).result = .ok g) :
    ∀ s ∈ g.members, s.IsRead := by
  obtain ⟨hfirst, hothers⟩ := clean_pieces c.here c.stop hc
  obtain ⟨s, hs, h⟩ := Report.bind_eq_ok h
  obtain ⟨rest, hrest, rfl⟩ := Report.map_eq_ok h
  exact List.forall_mem_cons.2 ⟨isRead_selector hfirst hs, isRead_selectors hothers hrest⟩

end Members

end Cursor

theorem Report.result_of_toParsed {α : Type} {o : Options} {cs : List Char} {r : Report Position α} {a : α}
    (h : (r.toParsed o cs).result = .ok a) : r.result = .ok a := by
  rw [toParsed] at h
  cases hr : r.result with
  | error e =>
    rw [hr] at h
    cases h
  | ok b =>
    rw [hr] at h
    cases h
    rfl

/-- Every member of a group that is read is as all that is read. -/
theorem Group.isRead_of_parse {text : String} {o : Options} {g : Group}
    (h : (Group.parse text o).result = .ok g) : ∀ s ∈ g.members, s.IsRead :=
  Cursor.isRead_group (Cursor.clean_ofChars text.toList) (Report.result_of_toParsed h)

end StyleSelectors
