/-
The shape of nodes: their tokens, and for a block what is inside, but neither their places nor how the
inside was written. The grammar looks at no more than this to tell what is a phrase, so that nodes of one
shape are phrases alike (`Grammar.Chain.of_shape`); what a phrase denotes may still differ, in the
arguments of functions and in places.
-/
import StyleSelectors.Proofs.Grammar.Rules

namespace StyleSelectors

/-- A token that opens nothing, or a block with what is inside. -/
inductive Shape where
  | leaf (token : Token)
  | block (token : Token) (inside : List Shape)

namespace Shape

def token : Shape → Token
  | .leaf token => token
  | .block token _ => token

def inside : Shape → List Shape
  | .leaf _ => []
  | .block _ inside => inside

end Shape

variable {P Q : Type}

namespace Node

mutual

def shape : Node P → Shape
  | .leaf token .. => .leaf token
  | .block token _ _ inside .. => .block token (shapes inside)

/-- The shapes of nodes, in order. -/
def shapes : List (Node P) → List Shape
  | [] => []
  | n :: rest => shape n :: shapes rest

end

variable {ns : List (Node P)} {ms : List (Node Q)}

theorem shapes_eq_map (ns : List (Node P)) : shapes ns = ns.map shape := by
  induction ns with
  | nil => rfl
  | cons n ns ih => rw [shapes, ih, List.map_cons]

theorem shapes_append (ns ms : List (Node P)) : shapes (ns ++ ms) = shapes ns ++ shapes ms := by
  simp only [shapes_eq_map, List.map_append]

@[simp] theorem token_shape (n : Node P) : n.shape.token = n.token := by cases n <;> rfl

@[simp] theorem inside_shape (n : Node P) : n.shape.inside = shapes n.inside := by cases n <;> rfl

theorem map_token_shapes (ns : List (Node P)) : (shapes ns).map Shape.token = ns.map token := by
  rw [shapes_eq_map, List.map_map]
  exact List.map_congr_left fun n _ => token_shape n

theorem tokens_of_shapes (h : shapes ms = shapes ns) : ms.map token = ns.map token := by
  rw [← map_token_shapes, h, map_token_shapes]

/-! ## Nodes of a given shape -/

theorem of_shapes_nil (h : shapes ms = shapes ([] : List (Node P))) : ms = [] := by
  cases ms with
  | nil => rfl
  | cons m ms => cases h

theorem of_shapes_cons {n : Node P} (h : shapes ms = shapes (n :: ns)) :
    ∃ m rest, ms = m :: rest ∧ m.token = n.token ∧ shapes m.inside = shapes n.inside ∧ shapes rest = shapes ns := by
  cases ms with
  | nil => cases h
  | cons m rest =>
    rw [shapes, shapes] at h
    obtain ⟨hshape, hrest⟩ := List.cons.inj h
    refine ⟨m, rest, rfl, ?_, ?_, hrest⟩
    · rw [← token_shape, hshape, token_shape]
    · rw [← inside_shape, hshape, inside_shape]

theorem of_shapes_append {xs ys : List (Node P)} (h : shapes ms = shapes (xs ++ ys)) :
    ∃ us vs, ms = us ++ vs ∧ shapes us = shapes xs ∧ shapes vs = shapes ys := by
  rw [shapes_append, shapes_eq_map ms] at h
  obtain ⟨us, vs, rfl, hus, hvs⟩ := List.map_eq_append_iff.1 h
  exact ⟨us, vs, rfl, (shapes_eq_map us).trans hus, (shapes_eq_map vs).trans hvs⟩

end Node

namespace Grammar

open Node

variable {ns : Namespace} {xs : List (Node P)} {us : List (Node Q)}

theorem Part.of_shape {s : Simple} (h : Part xs s) (hs : shapes us = shapes xs) : ∃ t, Part us t := by
  have htokens := tokens_of_shapes hs
  cases h with
  | type hns name hxs => exact ⟨_, .type hns name (htokens.trans hxs)⟩
  | universal hns hxs => exact ⟨_, .universal hns (htokens.trans hxs)⟩
  | id name hn =>
    obtain ⟨m, rest, rfl, hm, -, hrest⟩ := of_shapes_cons hs
    obtain rfl := of_shapes_nil hrest
    exact ⟨_, .id name (hm.trans hn)⟩
  | className name hxs => exact ⟨_, .className name (htokens.trans hxs)⟩
  | attr hn hbody =>
    obtain ⟨m, rest, rfl, hm, hinside, hrest⟩ := of_shapes_cons hs
    obtain rfl := of_shapes_nil hrest
    exact ⟨_, .attr (hm.trans hn) (tokens_of_shapes hinside ▸ hbody)⟩
  | pseudoClass name hxs => exact ⟨_, .pseudoClass name (htokens.trans hxs)⟩
  | function hc hn hnot =>
    obtain ⟨k, rest, rfl, hk, -, hrest⟩ := of_shapes_cons hs
    obtain ⟨m, rest, rfl, hm, -, hrest⟩ := of_shapes_cons hrest
    obtain rfl := of_shapes_nil hrest
    exact ⟨_, .function (hk.trans hc) (hm.trans hn) hnot (trimmed_arguments m)⟩
  | pseudoElement name hxs => exact ⟨_, .pseudoElement name (htokens.trans hxs)⟩
  | pseudoElementFunction name hxs => exact ⟨_, .pseudoElementFunction name (htokens.trans hxs)⟩

theorem NoBar.of_shape (h : NoBar xs) (hs : shapes us = shapes xs) : NoBar us := by
  intro m hm hbar
  cases xs with
  | nil =>
    obtain rfl := of_shapes_nil hs
    cases hm
  | cons n xs =>
    obtain ⟨k, rest, rfl, hk, -⟩ := of_shapes_cons hs
    cases hm
    exact h n rfl (hk.symm.trans hbar)

theorem blank_of_shape {b : List (Node P)} {c : List (Node Q)} (h : Blank (b.map Node.token))
    (hs : shapes c = shapes b) : Blank (c.map Node.token) := by
  rwa [tokens_of_shapes hs]

/-- Nodes of the shape of parts are as many parts. -/
theorem Parts.of_shape {ss : List Simple} (h : Parts ns xs ss) (hs : shapes us = shapes xs) :
    ∃ ts, Parts ns us ts ∧ ts.length = ss.length := by
  induction h generalizing us with
  | nil =>
    obtain rfl := of_shapes_nil hs
    exact ⟨[], .nil, rfl⟩
  | bare hn hbar _ ih =>
    obtain ⟨m, rest, rfl, hm, -, hrest⟩ := of_shapes_cons hs
    obtain ⟨ts, hts, hlength⟩ := ih hrest
    exact ⟨_ :: ts, .bare (hm.symm ▸ hn) (hbar.of_shape hrest) hts, congrArg (· + 1) hlength⟩
  | part hpart _ ih =>
    obtain ⟨front, rest, rfl, hfront, hrest⟩ := of_shapes_append hs
    obtain ⟨t, ht⟩ := hpart.of_shape hfront
    obtain ⟨ts, hts, hlength⟩ := ih hrest
    exact ⟨t :: ts, .part ht hts, congrArg (· + 1) hlength⟩
  | negation hc hn hnot hinside ha _ hb _ ihInside ih =>
    obtain ⟨k, rest, rfl, hk, -, hrest⟩ := of_shapes_cons hs
    obtain ⟨m, rest, rfl, hm, hwithin, hrest⟩ := of_shapes_cons hrest
    rw [hinside] at hwithin
    obtain ⟨front, b', hm', hfront, hb'⟩ := of_shapes_append hwithin
    obtain ⟨a', us', rfl, ha', hus⟩ := of_shapes_append hfront
    obtain ⟨args, hargs, hlength⟩ := ihInside hus
    obtain ⟨t, ts, rfl⟩ := List.exists_cons_of_length_eq_add_one hlength
    obtain ⟨more, hmore, hlengthMore⟩ := ih hrest
    exact ⟨_, .negation (hk.trans hc) (hm.trans hn) hnot hm' (blank_of_shape ha ha') hargs (blank_of_shape hb hb') hmore,
      congrArg (· + 1) hlengthMore⟩

/-- Nodes of the shape of parts start as these do. -/
theorem Parts.exists_of_shape {n : Node P} {s : Simple} {ss : List Simple} (h : Parts ns (n :: xs) (s :: ss))
    (hs : shapes us = shapes (n :: xs)) : ∃ m rest t ts, us = m :: rest ∧ Parts ns (m :: rest) (t :: ts) := by
  obtain ⟨m, rest, rfl, -⟩ := of_shapes_cons hs
  obtain ⟨ts, hts, hlength⟩ := h.of_shape hs
  obtain ⟨t, ts, rfl⟩ := List.exists_cons_of_length_eq_add_one hlength
  exact ⟨m, rest, t, ts, rfl, hts⟩

/-- Nodes of the shape of compounds with combinators between them are so, too. -/
theorem Chain.of_shape {x : Complex P} (h : Chain ns xs x) (hs : shapes us = shapes xs) :
    ∃ y : Complex Q, Chain ns us y := by
  induction h generalizing us with
  | subject hxs hb =>
    obtain ⟨front, b', rfl, hfront, hb'⟩ := of_shapes_append hs
    obtain ⟨m, rest, t, ts, rfl, hparts⟩ := hxs.exists_of_shape hfront
    exact ⟨_, .subject hparts (blank_of_shape hb hb')⟩
  | link hxs hys _ ih =>
    obtain ⟨front, more, rfl, hfront, hmore⟩ := of_shapes_append hs
    obtain ⟨sign, rest, rfl, hsign, hrest⟩ := of_shapes_append hmore
    obtain ⟨m, rest, t, ts, rfl, hparts⟩ := hxs.exists_of_shape hfront
    obtain ⟨y, hy⟩ := ih hrest
    exact ⟨_, .link hparts ((tokens_of_shapes hsign).symm ▸ hys) hy⟩

end Grammar

end StyleSelectors
