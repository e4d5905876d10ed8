/-
The text of whole selectors and groups as components. The parts read back one after another, kept
apart where they have to be, except that a name of two dashes before `>` reads as the end of markup:
`Selector.components` says so, and `Group.ofChars_css` that a printed group reads as just that.
-/
import StyleSelectors.Proofs.Selector.Part
import StyleSelectors.Proofs.Selector.Printed

namespace StyleSelectors

open Text Numeric Token Component

namespace Selector

/-- The outermost simple selector. -/
def head : Selector → Simple
  | .simple s => s
  | .both first _ _ => first
  | .related _ first _ _ => first

theorem parts_eq_head_cons (s : Selector) : s.parts = s.head :: s.parts.tail := by
  cases s <;> rfl

theorem head_mem_parts (s : Selector) : s.head ∈ s.parts := by
  rw [parts_eq_head_cons]
  exact List.mem_cons_self ..

theorem legible_both {first : Simple} {second : Selector} {locator : Option Locator} :
    (both first second locator).Legible ↔ first.Legible ∧ second.Legible := by
  simp [Legible, parts]

theorem legible_related {link : Combinator} {first : Simple} {second : Selector} {locator : Option Locator} :
    (related link first second locator).Legible ↔ first.Legible ∧ second.Legible := by
  simp [Legible, parts]

theorem legible_head {s : Selector} (h : s.printed.Legible) : s.head.printed.Legible := by
  have hhead : s.printed.head = s.head.printed := by cases s <;> rfl
  rw [← hhead]
  exact h _ s.printed.head_mem_parts

theorem tokens_ne_nil (s : Selector) : s.tokens ≠ [] := by
  cases s with
  | simple s => exact s.tokens_ne_nil
  | both first second _ => exact List.append_ne_nil_of_left_ne_nil first.tokens_ne_nil _
  | related link first second _ => exact List.append_ne_nil_of_left_ne_nil first.tokens_ne_nil _

/-- A selector starts as its outermost simple selector does. -/
theorem tokens_head? (s : Selector) : s.tokens.head? = s.head.tokens.head? := by
  obtain ⟨t, ts, hhead, -⟩ := s.head.tokens_head
  cases s with
  | simple s => rfl
  | both first second _ | related link first second _ =>
    rw [tokens, head, show first.tokens = t :: ts from hhead]
    rfl

/-- The text of a selector starts with that of its outermost simple selector. -/
theorem serialize_eq_head (s : Selector) : ∃ more, serialize s.tokens = serialize s.head.tokens ++ more := by
  cases s with
  | simple s => exact ⟨[], by rw [List.append_nil]; rfl⟩
  | both first second _ => exact ⟨_, serialize_append _ second.tokens_ne_nil⟩
  | related link first second _ => exact ⟨_, serialize_append _ (List.cons_ne_nil _ _)⟩

theorem leads {s : Selector} (h : s.printed.Legible) (rest : List Char) : Leads (serialize s.tokens ++ rest) := by
  obtain ⟨more, hmore⟩ := s.serialize_eq_head
  rw [hmore, ← s.head.serialize_printed, List.append_assoc]
  exact Simple.leads (legible_head h) _

theorem serialize_before (first : Simple) (link : Combinator) (ts : List Token) :
    serialize (first.tokens ++ link.token :: ts) = serialize first.tokens ++ serialize (link.token :: ts) := by
  obtain ⟨front, t, hlast, ht, -⟩ := first.tokens_getLast
  have hnone : between first.tokens (link.token :: ts) = [] := by
    rw [between, hlast, List.getLast?_concat]
    exact if_neg (by simp [runsInto_combinator ht])
  rw [serialize_append _ (List.cons_ne_nil _ _), hnone]
  rfl

theorem serialize_after (link : Combinator) (second : Selector) :
    serialize (link.token :: second.tokens) = link.token.text ++ serialize second.tokens := by
  obtain ⟨u, us, hhead, hu⟩ := second.head.tokens_head
  apply serialize_cons
  intro next hnext
  rw [second.tokens_head?, hhead] at hnext
  cases hnext
  exact combinator_runsInto hu link

/-- A selector as the blocks that its text reads as. -/
def components : Selector → List Component
  | .simple s => s.printed.components
  | .both first second _ =>
    first.printed.components ++ ((between first.tokens second.tokens).map ofToken ++ second.components)
  | .related link first second _ =>
    if link == .child && first.dashed then
      first.printed.tokens.dropLast.map ofToken ++ ofToken .markupClose :: second.components
    else first.printed.components ++ ofToken link.token :: second.components

/-- Two dashes before `>` read as the end of markup. -/
theorem readFrom_dashed {first : Simple} (h : first.Legible) (hdashed : first.dashed = true) (rest : List Char) :
    ReadFrom (first.tokens.dropLast.map ofToken ++ [ofToken .markupClose])
      (serialize (first.tokens ++ [.delim '>'])) rest := by
  have hclose : ReadFrom [ofToken .markupClose] (serialize [.ident "--", .delim '>']) rest :=
    readFrom_ofToken readsBack_markupClose
  cases first with
  | type t =>
    obtain ⟨ns, name⟩ := t
    cases beq_iff_eq.1 hdashed
    rw [Simple.tokens, TypeName.tokens, List.dropLast_concat, List.append_assoc]
    exact readFrom_qualified .any h.1 h.2 (fun next hnext => by cases hnext; rfl) hclose
  | className name =>
    cases beq_iff_eq.1 hdashed
    show ReadFrom [ofToken (.delim '.'), ofToken .markupClose] (['.'] ++ ['-', '-', '>']) rest
    exact readFrom_cons (readsBack_point rfl) hclose
  | pseudoClass name =>
    cases beq_iff_eq.1 hdashed
    exact readFrom_cons readsBack_colon hclose
  | _ => cases hdashed

theorem follow_greater {first : Simple} (hdashed : first.dashed = false) (rest : List Char) :
    first.Follow ('>' :: rest) := by
  have hname (name : String) (h : (name == "--") = false) : EndsIdent name ('>' :: rest) :=
    ⟨rfl, nofun, fun heq => absurd heq (beq_eq_false_iff_ne.1 h)⟩
  cases first with
  | universal => exact nofun
  | type t => exact hname t.name hdashed
  | className name | pseudoClass name => exact hname name hdashed
  | id name => rfl
  | _ => trivial

theorem readFrom_between (first : Simple) (ts : List Token) (rest : List Char) :
    ReadFrom ((between first.tokens ts).map ofToken) (serialize (between first.tokens ts)) rest := by
  unfold between
  split
  · split
    · exact readFrom_ofToken readsBack_separator
    · exact readFrom_nil
  · exact readFrom_nil

theorem follow_printed {s : Simple} {rest : List Char} (h : s.Follow rest) : s.printed.Follow rest := by
  cases s <;> exact h

/-- The text of a selector, legible as it is printed, reads as its blocks. -/
theorem readFrom_components {s : Selector} (h : s.printed.Legible) {rest : List Char} (hrest : Halts rest) :
    ReadFrom s.components (serialize s.tokens) rest := by
  induction s with
  | simple s =>
    rw [tokens, ← s.serialize_printed]
    exact Simple.readFrom_components (legible_head h) (hrest.follow _)
  | both first second _ ih =>
    obtain ⟨hfirst, hsecond⟩ := legible_both.1 h
    rw [tokens, serialize_append _ second.tokens_ne_nil, ← first.serialize_printed]
    refine readFrom_append (Simple.readFrom_components hfirst (follow_printed ?_))
      (readFrom_append (readFrom_between first _ _) (ih hsecond))
    rw [List.append_assoc]
    exact Simple.follow_between first second.head second.tokens_head? (leads hsecond rest)
  | related link first second _ ih =>
    obtain ⟨hfirst, hsecond⟩ := legible_related.1 h
    have hlink := readFrom_cons (readsBack_combinator link (leads hsecond rest)) (ih hsecond)
    rw [tokens, components, serialize_before, serialize_after, ← first.serialize_printed]
    split
    · next hdashed =>
      -- the two dashes and the sign are one token, whatever comes after it
      obtain ⟨hchild, hdashed⟩ := Bool.and_eq_true_iff.1 hdashed
      cases beq_iff_eq.1 hchild
      have := readFrom_append (readFrom_dashed hfirst (first.dashed_printed.trans hdashed) _) (ih hsecond)
      rw [show first.printed.tokens ++ [.delim '>'] = first.printed.tokens ++ Combinator.child.token :: [] from rfl,
        serialize_before, List.append_assoc, List.append_assoc] at this
      exact this
    · next hdashed =>
      refine readFrom_append (Simple.readFrom_components hfirst (follow_printed ?_)) hlink
      -- only `>` goes on with anything, which is two dashes
      cases link with
      | descendant => exact Halts.follow (halts_cons (by decide) (by decide) _) first
      | child => exact follow_greater (by simpa using hdashed) _
      | adjacentSibling => exact Halts.follow (halts_cons (by decide) (by decide) _) first
      | generalSibling => exact Halts.follow (halts_cons (by decide) (by decide) _) first

theorem wholeAll_between (xs ys : List Token) (b? : Option Bracket) :
    WholeAll b? ((between xs ys).map ofToken) := by
  unfold between
  split
  · split
    · exact ⟨Simple.whole_ofToken rfl rfl b?, trivial⟩
    · trivial
  · trivial

theorem wholeAll_components {s : Selector} (h : s.printed.Legible) (b? : Option Bracket) :
    WholeAll b? s.components := by
  induction s with
  | simple s => exact Simple.wholeAll_components (legible_head h) b?
  | both first second _ ih =>
    obtain ⟨hfirst, hsecond⟩ := legible_both.1 h
    rw [components, wholeAll_append, wholeAll_append]
    exact ⟨Simple.wholeAll_components hfirst b?, wholeAll_between _ _ b?, ih hsecond⟩
  | related link first second _ ih =>
    obtain ⟨hfirst, hsecond⟩ := legible_related.1 h
    rw [components]
    split
    · next hdashed =>
      have hflat := Simple.isFlat_of_dashed (first.dashed_printed.trans (Bool.and_eq_true_iff.1 hdashed).2)
      rw [wholeAll_append, WholeAll]
      refine ⟨Simple.wholeAll_ofTokens fun t ht => ?_, Simple.whole_ofToken rfl rfl b?, ih hsecond⟩
      exact Simple.flat_of_mem_tokens hflat (List.dropLast_subset _ ht)
    · rw [wholeAll_append, WholeAll]
      refine ⟨Simple.wholeAll_components hfirst b?, ?_, ih hsecond⟩
      cases link <;> exact Simple.whole_ofToken rfl rfl b?

/-! ## Groups -/

/-- A selector ends as one of its parts does. -/
theorem tokens_getLast (s : Selector) : ∃ ts t, s.tokens = ts ++ [t] ∧ t.EndsPart := by
  induction s with
  | simple s =>
    obtain ⟨ts, t, hlast, ht, -⟩ := s.tokens_getLast
    exact ⟨ts, t, hlast, ht⟩
  | both first second _ ih =>
    obtain ⟨ts, t, hlast, ht⟩ := ih
    exact ⟨first.tokens ++ ts, t, by rw [tokens, hlast, List.append_assoc], ht⟩
  | related link first second _ ih =>
    obtain ⟨ts, t, hlast, ht⟩ := ih
    refine ⟨first.tokens ++ link.token :: ts, t, ?_, ht⟩
    rw [tokens, hlast, List.append_assoc, List.cons_append]

end Selector

namespace Group

/-- The members after the first, each with the comma before it. -/
def moreTokens (ss : List Selector) : List Token := ss.flatMap fun s => .comma :: .whitespace " " :: s.tokens

def moreComponents (ss : List Selector) : List Component :=
  ss.flatMap fun s => ofToken .comma :: ofToken (.whitespace " ") :: s.components

/-- A group as the blocks that its text reads as. -/
def components (g : Group) : List Component := g.first.components ++ moreComponents g.others

theorem serialize_member (s : Selector) (ss : List Selector) :
    serialize (s.tokens ++ moreTokens ss) = serialize s.tokens ++ serialize (moreTokens ss) := by
  cases ss with
  | nil => rw [moreTokens, List.flatMap_nil, List.append_nil, serialize, List.append_nil]
  | cons s' ss =>
    obtain ⟨ts, t, hlast, ht⟩ := s.tokens_getLast
    have hnone : between s.tokens (moreTokens (s' :: ss)) = [] := by
      rw [between, hlast, List.getLast?_concat]
      exact if_neg (by simp [runsInto_comma ht])
    have hne : moreTokens (s' :: ss) ≠ [] := List.cons_ne_nil _ _
    rw [serialize_append _ hne, hnone]
    rfl

theorem serialize_more (s : Selector) (ss : List Selector) :
    serialize (moreTokens (s :: ss)) = [','] ++ ([' '] ++ (serialize s.tokens ++ serialize (moreTokens ss))) := by
  rw [← serialize_member]
  show serialize (.comma :: .whitespace " " :: (s.tokens ++ moreTokens ss)) = _
  rw [serialize_cons (fun _ _ => rfl), serialize_cons (fun _ _ => rfl)]
  rfl

theorem halts_more (ss : List Selector) : Halts (serialize (moreTokens ss) ++ []) := by
  cases ss with
  | nil => exact halts_nil
  | cons s ss =>
    rw [serialize_more]
    exact halts_cons (by decide) (by decide) _

theorem readFrom_more {ss : List Selector} (h : ∀ s ∈ ss, s.printed.Legible) :
    ReadFrom (moreComponents ss) (serialize (moreTokens ss)) [] := by
  induction ss with
  | nil => exact readFrom_nil
  | cons s ss ih =>
    obtain ⟨hs, hss⟩ := List.forall_mem_cons.1 h
    rw [serialize_more]
    refine readFrom_cons readsBack_comma (readFrom_cons ?_ ?_)
    · rw [List.append_assoc]
      exact readsBack_space (Selector.leads hs _).not_space
    · exact readFrom_append (Selector.readFrom_components hs (halts_more ss)) (ih hss)

theorem wholeAll_more {ss : List Selector} (h : ∀ s ∈ ss, s.printed.Legible) :
    WholeAll none (moreComponents ss) := by
  rw [wholeAll_iff]
  intro c hc
  obtain ⟨s, hs, hc⟩ := List.mem_flatMap.1 hc
  rcases List.mem_cons.1 hc with rfl | hc
  · exact Simple.whole_ofToken rfl rfl none
  rcases List.mem_cons.1 hc with rfl | hc
  · exact Simple.whole_ofToken rfl rfl none
  · exact wholeAll_iff.1 (Selector.wholeAll_components (h s hs) none) c hc

/-- The text of a group, legible as it is printed, reads as its blocks. -/
theorem ofChars_css {g : Group} (h : ∀ s ∈ g.members, s.printed.Legible) :
    Component.ofChars g.css.toList = g.components := by
  obtain ⟨hfirst, hothers⟩ := List.forall_mem_cons.1 h
  have hread := readFrom_append (Selector.readFrom_components hfirst (halts_more g.others)) (readFrom_more hothers)
  rw [ReadFrom, List.append_nil, ← serialize_member, Lexeme.ofChars, List.append_nil] at hread
  have hwhole : WholeAll none g.components :=
    wholeAll_append.2 ⟨Selector.wholeAll_components hfirst none, wholeAll_more hothers⟩
  rw [css, render, String.toList_ofList, Component.ofChars]
  exact (congrArg ofLexemes hread).trans (ofLexemes_lexemesOf hwhole)

end Group

end StyleSelectors
