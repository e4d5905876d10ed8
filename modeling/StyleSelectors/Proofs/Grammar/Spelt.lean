/-
Nodes that spell a selector: the tokens at their heads are those of the selector, and so inside the
blocks. A printed selector reads as nodes that spell it, whatever comments keep its tokens apart
(`Group.spelt_ofChars`); what nodes spell is all that reading them depends on.
-/
import StyleSelectors.Grammar.Cursor
import StyleSelectors.Proofs.Selector.Written

namespace StyleSelectors

open Text Token Component

variable {P : Type}

/-! ## Spelling -/

namespace Simple

/-- Arguments as they read back: written token by token, without blanks at the ends. -/
def rereadArguments (arguments : String) : String :=
  String.ofList (trim (serialize (closedTokens arguments)))

/-- Whether nodes spell a simple selector. -/
def Spelt : Simple → List (Node P) → Prop
  | .function name arguments, ns =>
    ∃ c n, ns = [c, n] ∧ c.token = .colon ∧ n.token = .function name ∧
      Cursor.arguments n = rereadArguments arguments
  | .negation inner, ns =>
    ∃ c n, ns = [c, n] ∧ c.token = .colon ∧ n.token = .function "not" ∧ inner.Spelt (Cursor.inside n).rest
  | .nothing, ns =>
    ∃ c n, ns = [c, n] ∧ c.token = .colon ∧ n.token = .function "not" ∧
      (Cursor.inside n).rest.map Node.token = [.delim '*']
  | .attr a, ns => ∃ n, ns = [n] ∧ n.token = .opening .square ∧ (Cursor.inside n).rest.map Node.token = a.body
  | s, ns => ns.map Node.token = s.tokens

end Simple

/-- Whether nodes spell a selector. -/
def Selector.Spelt : Selector → List (Node P) → Prop
  | .simple s, ns => s.Spelt ns
  | .both first second _, ns => ∃ xs ys, ns = xs ++ ys ∧ first.Spelt xs ∧ second.Spelt ys
  | .related link first second _, ns =>
    ∃ xs n ys, ns = xs ++ n :: ys ∧ second.Spelt ys ∧
      if link == .child && first.dashed then xs.map Node.token = first.tokens.dropLast ∧ n.token = .markupClose
      else first.Spelt xs ∧ n.token = link.token

/-- Whether nodes spell the members of a group after the first. -/
def Group.SpeltMore : List Selector → List (Node P) → Prop
  | [], ns => ns = []
  | s :: ss, ns =>
    ∃ m w xs ys, ns = m :: w :: (xs ++ ys) ∧ m.token = .comma ∧ w.token = .whitespace " " ∧ s.Spelt xs ∧
      SpeltMore ss ys

/-! ## Reading -/

namespace Node

theorem ofComponents_cons {x : Lexeme} (h : x.token.isComment = false) (p : Position) (cs : List Component) :
    ofComponents p (.leaf x :: cs) =
      (.leaf x.token p (p.advance x.text) :: (ofComponents (p.advance x.text) cs).1,
        (ofComponents (p.advance x.text) cs).2) := by
  rw [ofComponents, h]
  rfl

theorem ofComponents_leaf {t : Token} (h : t.isComment = false) (p : Position) (cs : List Component) :
    ∃ q, (ofComponents p (ofToken t :: cs)).1 = .leaf t p q :: (ofComponents q cs).1 := by
  refine ⟨p.advance t.text, ?_⟩
  rw [ofToken, ofComponents_cons (show t.lexeme.token.isComment = false from h)]
  rfl

theorem map_token_ofComponents {ts : List Token} (h : ∀ t ∈ ts, t.isComment = false) (p : Position) :
    (ofComponents p (ts.map ofToken)).1.map Node.token = ts := by
  induction ts generalizing p with
  | nil => rw [List.map_nil, ofComponents, List.map_nil]
  | cons t ts ih =>
    obtain ⟨ht, hts⟩ := List.forall_mem_cons.1 h
    obtain ⟨q, hq⟩ := ofComponents_leaf ht p (ts.map ofToken)
    rw [List.map_cons, hq, List.map_cons, ih hts]
    rfl

theorem ofComponents_comment (text : String) (p : Position) (cs : List Component) :
    ∃ q, (ofComponents p (ofToken (.comment text) :: cs)).1 = (ofComponents q cs).1 := by
  refine ⟨p.advance (Token.comment text).text, ?_⟩
  rw [ofToken, ofComponents]
  rfl

theorem ofComponents_block (p : Position) (head : Lexeme) (inside : List Component) (close : Option Lexeme)
    (cs : List Component) :
    ∃ n q q', (ofComponents p (.block head inside close :: cs)).1 = n :: (ofComponents q cs).1 ∧
      n.token = head.token ∧ (Cursor.inside n).rest = (ofComponents q' inside).1 ∧
      Cursor.arguments n = String.ofList (trim (chars inside)) := by
  simp only [ofComponents]
  exact ⟨_, _, _, rfl, rfl, rfl, rfl⟩

end Node

namespace Simple

theorem ofComponents_enclosed (p : Position) (head : Token) (inside : List Component) :
    ∃ c n q, (Node.ofComponents p [ofToken .colon, enclose head inside]).1 = [c, n] ∧ Node.token c = .colon ∧
      n.token = head ∧ (Cursor.inside n).rest = (Node.ofComponents q inside).1 := by
  obtain ⟨q, hq⟩ := Node.ofComponents_leaf (t := .colon) rfl p [enclose head inside]
  obtain ⟨n, r, q', hn, htoken, hinside, -⟩ := Node.ofComponents_block q head.lexeme inside (closer head).lexeme []
  refine ⟨.leaf .colon p q, n, q', ?_, rfl, htoken, hinside⟩
  rw [hq, enclose, hn, Node.ofComponents]

/-- The arguments of a function read back as they were written. -/
theorem chars_inside {name arguments : String} (hname : IsName name) {head close : Lexeme}
    {inside : List Component} (htoken : head.token = .function name)
    (h : Component.ofChars (functionText name arguments) = [.block head inside (some close)]) :
    chars inside = serialize (closedTokens arguments) := by
  have hopen : head.token.opens? = some .round := by rw [htoken]; rfl
  obtain ⟨-, hlex⟩ := lexemes_of_block hopen h
  have htext := text_of_block hopen h
  have hwritten : functionText name arguments =
      (Token.function name).text ++ (serialize (closedTokens arguments) ++ [')']) := by
    rw [functionText, serialize_append_closing, serialize_cons (fun _ _ => rfl), List.append_assoc]
    rfl
  -- the text is a head, arguments and a bracket, and so are the lexemes; the heads are the same
  have hfirst := hlex
  rw [hwritten] at hfirst
  have hread := Lexeme.ofChars_text (readsBack_function_of_lexeme hname.1 hname.2 hfirst htoken)
  obtain ⟨hhead, -⟩ := List.cons.inj (hfirst.symm.trans hread)
  rw [hwritten, Lexeme.chars, List.flatMap_cons, hhead, List.append_assoc] at htext
  exact (List.append_cancel_right (List.append_cancel_left htext)).symm

theorem map_token_of_isFlat {s : Simple} (h : s.isFlat = true) (p : Position) :
    (Node.ofComponents p s.components).1.map Node.token = s.tokens := by
  rw [components_of_isFlat h]
  exact Node.map_token_ofComponents (fun t ht => (flat_of_mem_tokens h ht).not_comment) p

/-- The text of a legible simple selector spells it. -/
theorem spelt_components {s : Simple} (h : s.Legible) (p : Position) :
    s.Spelt (Node.ofComponents p s.components).1 := by
  induction s generalizing p with
  | universal | type _ | id _ | className _ | pseudoClass _ => exact map_token_of_isFlat rfl p
  | function name arguments =>
    have hclosed := h.closed
    unfold staysClosed at hclosed
    split at hclosed
    · next head inside close heq =>
      have htoken := beq_iff_eq.1 hclosed
      obtain ⟨q, hq⟩ := Node.ofComponents_leaf (t := .colon) rfl p [.block head inside (some close)]
      obtain ⟨n, r, -, hn, hhead, -, harguments⟩ := Node.ofComponents_block q head inside (some close) []
      refine ⟨.leaf .colon p q, n, ?_, rfl, hhead.trans htoken, ?_⟩
      · rw [components, heq, hq, hn, Node.ofComponents]
      · rw [harguments, chars_inside h.isName htoken heq, rereadArguments]
    · cases hclosed
  | negation inner ih =>
    obtain ⟨c, n, q, hcn, hc, hn, hinside⟩ := ofComponents_enclosed p (.function "not") inner.components
    refine ⟨c, n, hcn, hc, hn, ?_⟩
    rw [hinside]
    exact ih h q
  | attr a =>
    obtain ⟨n, r, q, hn, hhead, hinside, -⟩ :=
      Node.ofComponents_block p (Token.opening .square).lexeme (a.body.map ofToken)
        (closer (.opening .square)).lexeme []
    refine ⟨n, ?_, hhead, ?_⟩
    · rw [components, enclose, hn, Node.ofComponents]
    · rw [hinside]
      exact Node.map_token_ofComponents (fun t ht => (flat_of_mem_body ht).not_comment) q
  | nothing =>
    obtain ⟨c, n, q, hcn, hc, hn, hinside⟩ := ofComponents_enclosed p (.function "not") [ofToken (.delim '*')]
    refine ⟨c, n, hcn, hc, hn, ?_⟩
    rw [hinside]
    exact map_token_of_isFlat (s := .universal) rfl q

end Simple

theorem Selector.ofComponents_between (p : Position) (xs ys : List Token) (cs : List Component) :
    ∃ q, (Node.ofComponents p ((between xs ys).map ofToken ++ cs)).1 = (Node.ofComponents q cs).1 := by
  unfold between
  split
  · split
    · exact Node.ofComponents_comment "" p cs
    · exact ⟨p, rfl⟩
  · exact ⟨p, rfl⟩

/-- The text of a selector, legible as it is printed, spells it so. -/
theorem Selector.spelt_components {s : Selector} (h : s.printed.Legible) (p : Position) :
    s.printed.Spelt (Node.ofComponents p s.components).1 := by
  induction s generalizing p with
  | simple s => exact Simple.spelt_components (legible_head h) p
  | both first second _ ih =>
    obtain ⟨hfirst, hsecond⟩ := legible_both.1 h
    rw [components, Node.ofComponents_append]
    obtain ⟨q, hq⟩ := ofComponents_between (Node.ofComponents p first.printed.components).2 first.tokens
      second.tokens second.components
    exact ⟨_, _, rfl, Simple.spelt_components hfirst p, by rw [hq]; exact ih hsecond q⟩
  | related link first second _ ih =>
    obtain ⟨hfirst, hsecond⟩ := legible_related.1 h
    rw [printed, map, components, Spelt, first.dashed_printed]
    split
    · next hdashed =>
      have hflat := Simple.isFlat_of_dashed (first.dashed_printed.trans (Bool.and_eq_true_iff.1 hdashed).2)
      rw [Node.ofComponents_append]
      obtain ⟨q, hq⟩ := Node.ofComponents_leaf (t := .markupClose) rfl
        (Node.ofComponents p (first.printed.tokens.dropLast.map ofToken)).2 second.components
      refine ⟨_, _, _, by rw [hq], ih hsecond q, ?_, rfl⟩
      refine Node.map_token_ofComponents ?_ p
      intro t ht
      exact (Simple.flat_of_mem_tokens hflat (List.dropLast_subset _ ht)).not_comment
    · have hlink : link.token.isComment = false := by cases link <;> rfl
      rw [Node.ofComponents_append]
      obtain ⟨q, hq⟩ := Node.ofComponents_leaf hlink (Node.ofComponents p first.printed.components).2
        second.components
      exact ⟨_, _, _, by rw [hq], ih hsecond q, Simple.spelt_components hfirst p, rfl⟩

theorem Group.spelt_more {ss : List Selector} (h : ∀ s ∈ ss, s.printed.Legible) (p : Position) :
    SpeltMore (ss.map Selector.printed) (Node.ofComponents p (moreComponents ss)).1 := by
  induction ss generalizing p with
  | nil =>
    rw [moreComponents, List.flatMap_nil, Node.ofComponents]
    rfl
  | cons s ss ih =>
    obtain ⟨hs, hss⟩ := List.forall_mem_cons.1 h
    have hmore : moreComponents (s :: ss) =
        ofToken .comma :: ofToken (.whitespace " ") :: (s.components ++ moreComponents ss) := by
      rw [moreComponents, List.flatMap_cons]
      rfl
    obtain ⟨q, hq⟩ := Node.ofComponents_leaf (t := .comma) rfl p
      (ofToken (.whitespace " ") :: (s.components ++ moreComponents ss))
    obtain ⟨r, hr⟩ := Node.ofComponents_leaf (t := .whitespace " ") rfl q (s.components ++ moreComponents ss)
    rw [hmore, hq, hr, Node.ofComponents_append]
    exact ⟨_, _, _, _, rfl, rfl, rfl, Selector.spelt_components hs r, ih hss _⟩

/-- The text of a group, legible as it is printed, spells its members so. -/
theorem Group.spelt_ofChars {g : Group} (h : ∀ s ∈ g.members, s.printed.Legible) :
    ∃ xs ys, (Cursor.ofChars g.css.toList).rest = xs ++ ys ∧ g.first.printed.Spelt xs ∧
      SpeltMore (g.others.map Selector.printed) ys := by
  obtain ⟨hfirst, hothers⟩ := List.forall_mem_cons.1 h
  rw [Cursor.ofChars, ofChars_css h, components, Node.ofComponents_append]
  exact ⟨_, _, rfl, Selector.spelt_components hfirst _, spelt_more hothers _⟩

end StyleSelectors
