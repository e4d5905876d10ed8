/-
Reading nodes that spell a selector. One part is read at a time (`Cursor.passes_spelt`), two at once
where they join; a whole selector without dashes that close markup comes back as its `reread`, and
one with them is refused (`Cursor.readsTree_of_spelt`, `Cursor.complex_of_closesMarkup`).
-/
import StyleSelectors.Proofs.Grammar.Steps
import StyleSelectors.Proofs.Selector.Reread

namespace StyleSelectors

open Text

variable {P : Type}

namespace Cursor

/-! ## Attributes -/

section Attribute

variable {c : Cursor P} {ts : List Token} {t : Token}

theorem exists_cons_of_tokens (h : c.rest.map Node.token = t :: ts) :
    ∃ n rest, c.rest = n :: rest ∧ n.token = t ∧ c.next.rest.map Node.token = ts := by
  obtain ⟨n, rest, hc, hn, hrest⟩ := List.map_eq_cons_iff.1 h
  exact ⟨n, rest, hc, hn, by rw [rest_next hc, hrest]⟩

theorem tokens_skipSpace (h : c.rest.map Node.token = t :: ts) (ht : t.isWhitespace = false) :
    c.skipSpace.rest.map Node.token = t :: ts := by
  obtain ⟨n, rest, hc, rfl, -⟩ := exists_cons_of_tokens h
  rw [rest_skipSpace hc ht, ← hc, h]

theorem token?_of_tokens (h : c.rest.map Node.token = t :: ts) : c.token? = some t := by
  obtain ⟨n, rest, hc, rfl, -⟩ := exists_cons_of_tokens h
  exact token?_cons hc

theorem next_of_tokens (h : c.rest.map Node.token = t :: ts) : c.next.rest.map Node.token = ts := by
  obtain ⟨n, rest, -, -, hrest⟩ := exists_cons_of_tokens h
  exact hrest

theorem localName_of_tokens {name : String} (h : c.rest.map Node.token = .ident name :: ts) :
    c.localName = .ok (name, c.next) := by
  simp only [localName, token?_of_tokens h]

theorem atBar_of_tokens (h : c.rest.map Node.token = t :: ts) : c.atBar = (t == .delim '|') := by
  rw [atBar, token?_of_tokens h]
  rfl

theorem attributeName_of_tokens {ns : Namespace} {name : String}
    (h : c.rest.map Node.token = ns.tokens .absent ++ .ident name :: ts) (hts : ts.head? ≠ some (.delim '|')) :
    ∃ d, c.attributeName = .ok ((ns, name), d) ∧ d.rest.map Node.token = ts := by
  cases ns with
  | absent =>
    have h : c.rest.map Node.token = .ident name :: ts := h
    have hnext := next_of_tokens h
    refine ⟨_, ?_, hnext⟩
    have hbar : c.next.atBar = false := by
      apply atBar_eq_false
      intro n hn heq
      rw [← hnext, List.head?_map, hn, Option.map_some, heq] at hts
      exact hts rfl
    simp only [attributeName, token?_of_tokens h, hbar]
    rfl
  | any | named _ =>
    have h : c.rest.map Node.token = _ :: .delim '|' :: .ident name :: ts := h
    have hbar := next_of_tokens h
    have hname := next_of_tokens hbar
    refine ⟨_, ?_, next_of_tokens hname⟩
    simp only [attributeName, token?_of_tokens h, atBar_of_tokens hbar, localName_of_tokens hname]
    rfl

theorem operand_of_tokens {value : String} (h : c.rest.map Node.token = [.string value]) :
    c.operand = .ok (value, c.skipSpace.next) ∧ c.skipSpace.next.rest = [] := by
  have hskip := tokens_skipSpace h rfl
  constructor
  · simp only [operand, token?_of_tokens hskip]
  · exact List.map_eq_nil_iff.1 (next_of_tokens hskip)

theorem flags_nil (h : c.rest = []) : c.flags = (false, c) := by
  simp only [flags, token?_nil (rest_skipSpace_nil h)]

theorem expectEnd_nil (h : c.rest = []) : c.expectEnd = .ok () := by
  simp only [expectEnd, token?_nil (rest_skipSpace_nil h)]

/-- Nodes that spell an attribute selector read as it. -/
theorem attributeSelector_of_tokens {a : AttributeSelector} (h : c.rest.map Node.token = a.body) :
    c.attributeSelector = .ok (a, false) := by
  obtain ⟨ns, name, test⟩ := a
  have hskip : c.skipSpace.rest.map Node.token = ns.tokens .absent ++ .ident name :: test.tokens := by
    cases ns with
    | any => exact tokens_skipSpace (t := .delim '*') h rfl
    | absent => exact tokens_skipSpace (t := .ident name) h rfl
    | named label => exact tokens_skipSpace (t := .ident label) h rfl
  have hts : test.tokens.head? ≠ some (.delim '|') := by cases test <;> exact nofun
  obtain ⟨d, hname, hd⟩ := attributeName_of_tokens hskip hts
  cases test with
  | present =>
    have hnone := token?_nil (rest_skipSpace_nil (List.map_eq_nil_iff.1 hd))
    simp only [attributeSelector, hname, hnone, bind, Except.bind]
    rfl
  | equals _ | matching _ _ =>
    have hskip := tokens_skipSpace hd rfl
    obtain ⟨hoperand, hend⟩ := operand_of_tokens (next_of_tokens hskip)
    simp only [attributeSelector, hname, token?_of_tokens hskip, valueTest?, hoperand, flags_nil hend,
      expectEnd_nil hend, bind, Except.bind]
    rfl

end Attribute

/-! ## Pseudo-classes -/

section Pseudo

variable {c : Cursor P} {n : Node P} {rest : List (Node P)} {name arguments : String}

theorem pseudo_ident (hc : c.rest = n :: rest) (hn : n.token = .ident name) (h : Simple.IsPseudoClass name) :
    c.pseudo = .ok (.simple (.pseudoClass name), c.next) := by
  simp only [pseudo, hc, hn, h.lower]
  rw [if_neg (by simpa using h.modern)]

theorem pseudo_function (hc : c.rest = n :: rest) (hn : n.token = .function name)
    (h : Simple.IsFunction name arguments) :
    c.pseudo = .ok (.simple (.function name (Cursor.arguments n)), c.next) := by
  have hnot : sameIgnoringCase name "not" = false := by
    rw [sameIgnoringCase, h.lower, show lower "not" = "not" by decide]
    exact beq_eq_false_iff_ne.2 h.ne_not
  simp only [pseudo, hc, hn, h.lower, hnot]
  rfl

theorem pseudo_not (hc : c.rest = n :: rest) (hn : n.token = .function "not") :
    c.pseudo = .ok (.negation (inside n).skipSpace, c.next) := by
  have hnot : sameIgnoringCase "not" "not" = true := by decide
  simp only [pseudo, hc, hn, hnot]
  rfl

end Pseudo

end Cursor

/-! ## Simple selectors -/

namespace Node

theorem pair_of_tokens {xs : List (Node P)} {t u : Token} (h : xs.map Node.token = [t, u]) :
    ∃ n m, xs = [n, m] ∧ n.token = t ∧ m.token = u := by
  obtain ⟨n, ys, rfl, hn, hys⟩ := List.map_eq_cons_iff.1 h
  obtain ⟨m, rfl, hm⟩ := List.map_eq_singleton_iff.1 hys
  exact ⟨n, m, rfl, hn, hm⟩

theorem triple_of_tokens {xs : List (Node P)} {t u v : Token} (h : xs.map Node.token = [t, u, v]) :
    ∃ n m k, xs = [n, m, k] ∧ n.token = t ∧ m.token = u ∧ k.token = v := by
  obtain ⟨n, ys, rfl, hn, hys⟩ := List.map_eq_cons_iff.1 h
  obtain ⟨m, k, rfl, hm, hk⟩ := pair_of_tokens hys
  exact ⟨n, m, k, rfl, hn, hm, hk⟩

end Node

theorem Simple.Spelt.head {s : Simple} {ns : List (Node P)} (h : s.Spelt ns) :
    ∃ n rest, ns = n :: rest ∧ s.tokens.head? = some n.token := by
  cases s with
  | function _ _ | negation _ | nothing =>
    obtain ⟨c, n, rfl, hc, -⟩ := h
    exact ⟨c, [n], rfl, by rw [hc]; rfl⟩
  | attr a =>
    obtain ⟨n, rfl, hn, -⟩ := h
    exact ⟨n, [], rfl, by rw [hn]; rfl⟩
  | universal | id _ | className _ | pseudoClass _ =>
    obtain ⟨n, rest, rfl, hn, -⟩ := List.map_eq_cons_iff.1 h
    exact ⟨n, rest, rfl, by rw [hn]; rfl⟩
  | type t =>
    have htokens : t.tokens ≠ [] := List.append_ne_nil_of_right_ne_nil _ (List.cons_ne_nil _ _)
    obtain ⟨u, us, hu⟩ := List.exists_cons_of_ne_nil htokens
    have h : ns.map Node.token = u :: us := Eq.trans h hu
    obtain ⟨n, rest, rfl, hn, -⟩ := List.map_eq_cons_iff.1 h
    exact ⟨n, rest, rfl, by rw [hn, tokens, hu]; rfl⟩

/-- What spells a simple selector starts as a part does. -/
theorem Simple.Spelt.startsPart {s : Simple} {ns : List (Node P)} (h : s.Spelt ns) :
    ∃ n rest, ns = n :: rest ∧ n.token.StartsPart := by
  obtain ⟨n, rest, rfl, hn⟩ := h.head
  obtain ⟨t, ts, htokens, ht⟩ := s.tokens_head
  rw [htokens] at hn
  cases hn
  exact ⟨n, rest, rfl, ht⟩

theorem Token.StartsPart.not_whitespace {t : Token} (h : t.StartsPart) : t.isWhitespace = false := by
  cases t with
  | whitespace _ => cases h
  | _ => rfl

namespace Cursor

/-- Whether reading from `c` gives `s`, and then what reading from `d` gives. -/
def Passes (c : Cursor P) (s : Simple) (d : Cursor P) : Prop :=
  c.simples .any = (d.simples .any).map fun (ss, e) => (s :: ss, e)

theorem passes_simple {c d : Cursor P} {s : Simple} {rest : List (Node P)}
    (h : c.item? .any = .ok (some (.simple s, d))) (hd : d.rest = rest) :
    ∃ d : Cursor P, d.rest = rest ∧ Passes c s d := ⟨d, hd, simples_simple h⟩

/-- A name after any sign of a namespace. -/
theorem passes_any {c : Cursor P} {n m k : Node P} {rest : List (Node P)} {name : String}
    (hc : c.rest = n :: m :: k :: rest) (hn : n.token = .delim '*') (hm : m.token = .delim '|')
    (hk : k.token = .ident name) :
    ∃ d : Cursor P, d.rest = rest ∧ Passes c (.type ⟨.any, name⟩) d := by
  have hbar := rest_next hc
  have hname := rest_next hbar
  refine passes_simple (d := c.next.next.next) ?_ (rest_next hname)
  rw [item?_star hc hn, typeAfter_bar hbar hm, qualified_ident hname hk]
  rfl

/-- A name after a namespace with a label. -/
theorem passes_named {c : Cursor P} {n m k : Node P} {rest : List (Node P)} {label name : String}
    (hc : c.rest = n :: m :: k :: rest) (hn : n.token = .ident label) (hm : m.token = .delim '|')
    (hk : k.token = .ident name) :
    ∃ d : Cursor P, d.rest = rest ∧ Passes c (.type ⟨.named label, name⟩) d := by
  have hbar := rest_next hc
  have hname := rest_next hbar
  refine passes_simple (d := c.next.next.next) ?_ (rest_next hname)
  rw [item?_ident hc hn, typeAfter_bar hbar hm, qualified_ident hname hk]
  rfl

/-- A type is passed, whatever its namespace, if no sign of one comes after it. -/
theorem passes_type {t : TypeName} {xs rest : List (Node P)} (hs : xs.map Node.token = t.tokens)
    (hbar : t.ns = .any → ∀ n ∈ rest.head?, n.token ≠ .delim '|') {c : Cursor P} (hc : c.rest = xs ++ rest) :
    ∃ d : Cursor P, d.rest = rest ∧ Passes c (.type t) d := by
  obtain ⟨ns, name⟩ := t
  cases ns with
  | any =>
    obtain ⟨n, rfl, hn⟩ := List.map_eq_singleton_iff.1 hs
    have hrest := rest_next hc
    refine passes_simple (d := c.next) ?_ hrest
    rw [item?_ident hc hn, typeAfter_of_ne (by rw [hrest]; exact hbar rfl)]
    rfl
  | absent =>
    obtain ⟨n, m, rfl, hn, hm⟩ := Node.pair_of_tokens (t := .delim '|') (u := .ident name) hs
    have hnext := rest_next hc
    refine passes_simple (d := c.next.next) ?_ (rest_next hnext)
    rw [item?_bar hc hn, qualified_ident hnext hm]
    rfl
  | named label =>
    obtain ⟨n, m, k, rfl, hn, hm, hk⟩ :=
      Node.triple_of_tokens (t := .ident label) (u := .delim '|') (v := .ident name) hs
    exact passes_named hc hn hm hk

theorem negationOf_single {d : Cursor P} (hd : d.rest = []) {s : Simple} (hs : s ≠ .nothing) (place : P) :
    negationOf (⟨place, s, []⟩, d) = .ok (.negation s) := by
  simp only [negationOf, expectEnd_nil (rest_skipSpace_nil hd)]
  rw [if_neg (by simp), if_neg hs]

/-- A negation is passed if what is inside is, up to its end. -/
theorem passes_negation {c e : Cursor P} {n m : Node P} {rest : List (Node P)} {s : Simple} (hs : s ≠ .nothing)
    (hc : c.rest = n :: m :: rest) (hn : n.token = .colon) (hm : m.token = .function "not") (he : e.rest = [])
    (hinside : Passes (inside m).skipSpace s e) :
    ∃ d : Cursor P, d.rest = rest ∧ Passes c (.negation s) d := by
  have hnext := rest_next hc
  have hitem : c.item? .any = .ok (some (.negation (inside m).skipSpace, c.next.next)) := by
    rw [item?_colon hc hn, pseudo_not hnext hm]
    rfl
  have hend : e.simples .any = .ok ([], e) := simples_none (item?_of_stops (by rw [he]; exact nofun))
  refine ⟨c.next.next, rest_next hnext, ?_⟩
  rw [Passes, hend] at hinside
  rw [Passes, simples_negation hitem, hinside]
  show ((Report.ok (⟨(inside m).skipSpace.here, s, []⟩, e)).bind negationOf).bind _ = _
  rw [Report.ok_bind, negationOf_single he hs, Report.ok_bind]

/-- Nodes that spell a simple selector are passed, and give it as it reads back. -/
theorem passes_spelt {s : Simple} (h : s.Legible) {xs rest : List (Node P)} (hs : s.Spelt xs)
    (hbar : s.takesBar = true → ∀ n ∈ rest.head?, n.token ≠ .delim '|') {c : Cursor P}
    (hc : c.rest = xs ++ rest) :
    ∃ d : Cursor P, d.rest = rest ∧ Passes c s.reread d := by
  induction s generalizing xs rest c with
  | universal =>
    obtain ⟨n, rfl, hn⟩ := List.map_eq_singleton_iff.1 hs
    have hrest := rest_next hc
    refine passes_simple (d := c.next) ?_ hrest
    rw [item?_star hc hn, typeAfter_of_ne (by rw [hrest]; exact hbar rfl)]
    rfl
  | type t => exact passes_type hs (fun h => hbar (beq_iff_eq.2 h)) hc
  | id name =>
    obtain ⟨n, rfl, hn⟩ := List.map_eq_singleton_iff.1 hs
    exact passes_simple (item?_idHash hc hn) (rest_next hc)
  | className name =>
    obtain ⟨n, m, rfl, hn, hm⟩ := Node.pair_of_tokens hs
    have hnext := rest_next hc
    refine passes_simple (d := c.next.next) ?_ (rest_next hnext)
    rw [item?_point hc hn, localName_ident hnext hm]
    rfl
  | pseudoClass name =>
    obtain ⟨n, m, rfl, hn, hm⟩ := Node.pair_of_tokens hs
    have hnext := rest_next hc
    refine passes_simple (d := c.next.next) ?_ (rest_next hnext)
    rw [item?_colon hc hn, pseudo_ident hnext hm h]
    rfl
  | function name arguments =>
    obtain ⟨n, m, rfl, hn, hm, harguments⟩ := hs
    have hnext := rest_next hc
    refine passes_simple (d := c.next.next) ?_ (rest_next hnext)
    rw [item?_colon hc hn, pseudo_function hnext hm h, harguments]
    rfl
  | negation inner ih =>
    obtain ⟨n, m, rfl, hn, hm, hinner⟩ := hs
    obtain ⟨k, ks, hks, hk⟩ := Simple.Spelt.startsPart (s := inner) hinner
    -- nothing comes after the argument, so no namespace sign does
    have hinside : (inside m).skipSpace.rest = (inside m).rest ++ [] := by
      rw [rest_skipSpace hks hk.not_whitespace, hks, List.append_nil]
    obtain ⟨e, he, hpasses⟩ := ih h hinner (fun _ n hn => by cases hn) hinside
    exact passes_negation inner.reread_ne_nothing hc hn hm he hpasses
  | attr a =>
    obtain ⟨n, rfl, hn, hinside⟩ := hs
    refine passes_simple (d := c.next) ?_ (rest_next hc)
    rw [item?_square hc hn, attributeSelector_of_tokens hinside]
    rfl
  | nothing =>
    obtain ⟨n, m, rfl, hn, hm, hinner⟩ := hs
    obtain ⟨k, hks, hk⟩ := List.map_eq_singleton_iff.1 hinner
    have hinside : (inside m).skipSpace.rest = [k] := rest_skipSpace hks (by rw [hk]; rfl)
    have hend : (inside m).skipSpace.next.rest = [] := rest_next hinside
    have hstar : (inside m).skipSpace.item? .any = .ok (some (.simple .universal, (inside m).skipSpace.next)) := by
      rw [item?_star hinside hk, typeAfter_of_ne (by rw [hend]; exact nofun)]
      rfl
    exact passes_negation nofun hc hn hm hend (simples_simple hstar)

/-- Two parts that join are passed at once. -/
theorem passes_joined {s t u : Simple} (h : s.joined? t = some u) {xs ys rest : List (Node P)} (hs : s.Spelt xs)
    (ht : t.Spelt ys) {c : Cursor P} (hc : c.rest = xs ++ (ys ++ rest)) :
    ∃ d : Cursor P, d.rest = rest ∧ Passes c u d := by
  unfold Simple.joined? at h
  split at h
  · next name =>
    cases h
    obtain ⟨n, rfl, hn⟩ := List.map_eq_singleton_iff.1 hs
    obtain ⟨m, k, rfl, hm, hk⟩ := Node.pair_of_tokens (t := .delim '|') (u := .ident name) ht
    exact passes_any hc hn hm hk
  · next label name =>
    cases h
    obtain ⟨n, rfl, hn⟩ := List.map_eq_singleton_iff.1 hs
    obtain ⟨m, k, rfl, hm, hk⟩ := Node.pair_of_tokens (t := .delim '|') (u := .ident name) ht
    exact passes_named hc hn hm hk
  · cases h

end Cursor

/-! ## Compounds -/

/-- Only a name without a namespace starts with its sign. -/
theorem Simple.startsBar_of_tokens {s : Simple} (h : s.tokens.head? = some (.delim '|')) : s.startsBar = true := by
  cases s with
  | type t =>
    obtain ⟨ns, name⟩ := t
    cases ns with
    | absent => rfl
    | any | named _ => cases h
  | universal | className _ => exact absurd (Option.some.inj h) (by decide)
  | _ => cases h

/-- Whether nodes spell simple selectors one after the other. -/
def Simple.SpeltAll : List Simple → List (Node P) → Prop
  | [], ns => ns = []
  | s :: ss, ns => ∃ xs ys, ns = xs ++ ys ∧ s.Spelt xs ∧ SpeltAll ss ys

theorem Selector.Spelt.parts {s : Selector} (hs : s.isCompound = true) {ns : List (Node P)} (h : s.Spelt ns) :
    Simple.SpeltAll s.parts ns := by
  induction s generalizing ns with
  | simple s => exact ⟨ns, [], (List.append_nil ns).symm, h, rfl⟩
  | both first second _ ih =>
    obtain ⟨xs, ys, rfl, hfirst, hsecond⟩ := h
    exact ⟨xs, ys, rfl, hfirst, ih hs hsecond⟩
  | related link first second _ => cases hs

namespace Cursor

theorem Stops.ne_bar {rest : List (Node P)} (h : Stops rest) : ∀ n ∈ rest.head?, n.token ≠ .delim '|' := by
  intro n hn hbar
  rcases h n hn with h | h | h | h <;> rw [hbar] at h
  · cases h
  all_goals exact absurd h (by decide)

/-- Nodes that spell simple selectors on the same element read as they read back. -/
theorem simples_of_spelt {ss : List Simple} (h : ∀ s ∈ ss, s.Legible) {xs rest : List (Node P)}
    (hs : Simple.SpeltAll ss xs) (hrest : Stops rest) {c : Cursor P} (hc : c.rest = xs ++ rest) :
    ∃ d : Cursor P, d.rest = rest ∧ c.simples .any = .ok (Simple.rereadAll ss, d) := by
  induction ss using Simple.rereadAll.induct generalizing xs c with
  | case1 s t ss u hjoined ih =>
    obtain ⟨xs, zs, rfl, hfirst, ys, zs, rfl, hsecond, hs⟩ := hs
    rw [List.append_assoc, List.append_assoc] at hc
    obtain ⟨e, he, hpasses⟩ := passes_joined hjoined hfirst hsecond hc
    obtain ⟨d, hd, hread⟩ := ih (fun r hr => h r (by simp [hr])) hs he
    refine ⟨d, hd, ?_⟩
    rw [hpasses, hread, Simple.rereadAll, hjoined]
    rfl
  | case2 s t ss hjoined ih =>
    obtain ⟨xs, ys, rfl, hfirst, hs⟩ := hs
    rw [List.append_assoc] at hc
    -- the next part does not start with a namespace sign that this one takes, or the two would join
    have hbar : s.takesBar = true → ∀ n ∈ (ys ++ rest).head?, n.token ≠ .delim '|' := by
      intro htakes n hn hbar
      obtain ⟨us, vs, rfl, hsecond, -⟩ := hs
      obtain ⟨k, ks, rfl, hk⟩ := hsecond.head
      cases hn
      rw [hbar] at hk
      have hapart := Simple.joined?_eq_none_iff.1 hjoined
      rw [htakes, Simple.startsBar_of_tokens hk] at hapart
      cases hapart
    obtain ⟨e, he, hpasses⟩ := passes_spelt (h s (by simp)) hfirst hbar hc
    obtain ⟨d, hd, hread⟩ := ih (fun r hr => h r (List.mem_cons_of_mem _ hr)) hs he
    refine ⟨d, hd, ?_⟩
    rw [hpasses, hread, Simple.rereadAll, hjoined]
    rfl
  | case3 s =>
    obtain ⟨xs, ys, rfl, hfirst, rfl⟩ := hs
    rw [List.append_nil] at hc
    obtain ⟨d, hd, hpasses⟩ := passes_spelt (h s (by simp)) hfirst (fun _ => hrest.ne_bar) hc
    refine ⟨d, hd, ?_⟩
    rw [hpasses, simples_none (item?_of_stops (by rw [hd]; exact hrest))]
    rfl
  | case4 =>
    cases hs
    exact ⟨c, hc, simples_none (item?_of_stops (by rw [hc]; exact hrest))⟩

/-! ## Complex selectors -/

/-- Whether a token is neither a blank nor a combinator. -/
def Begins (t : Token) : Prop := t.isWhitespace = false ∧ combinatorOf? t = none

theorem begins_of_startsPart {t : Token} (h : t.StartsPart) : Begins t := by
  refine ⟨h.not_whitespace, ?_⟩
  cases t with
  | delim _ => rcases h with rfl | rfl | rfl <;> rfl
  | _ => rfl

/-- What is written for a combinator, in front of a part, reads as it. -/
theorem combinator?_of_token {c : Cursor P} {n m : Node P} {rest : List (Node P)} {link : Combinator}
    (hc : c.rest = n :: m :: rest) (hn : n.token = link.token) (hm : Begins m.token) :
    ∃ d : Cursor P, c.combinator? = .ok (some (link, d)) ∧ d.rest = m :: rest := by
  cases link with
  | descendant =>
    have hskip : c.skipSpace.rest = m :: rest :=
      rest_skipSpace_cons hc (by rw [hn]; rfl) fun k hk => by cases hk; exact hm.1
    refine ⟨c.skipSpace, ?_, hskip⟩
    simp only [combinator?, token?_cons hskip, hm.2, token?_cons hc, hn]
    rfl
  | child | adjacentSibling | generalSibling =>
    have hskip : c.skipSpace.rest = n :: m :: rest := rest_skipSpace hc (by rw [hn]; rfl)
    refine ⟨c.skipSpace.next, ?_, rest_next hskip⟩
    simp only [combinator?, token?_cons hskip, hn]
    rfl

theorem stops_of_combinator {n : Node P} {rest : List (Node P)} {link : Combinator} (hn : n.token = link.token) :
    Stops (n :: rest) := by
  intro m hm
  cases hm
  rw [hn]
  cases link with
  | descendant => exact .inl rfl
  | child => exact .inr (.inl rfl)
  | adjacentSibling => exact .inr (.inr (.inl rfl))
  | generalSibling => exact .inr (.inr (.inr rfl))

end Cursor

theorem Simple.Spelt.begins {s : Simple} {ns : List (Node P)} (h : s.Spelt ns) :
    ∃ n rest, ns = n :: rest ∧ Cursor.Begins n.token := by
  obtain ⟨n, rest, rfl, hn⟩ := h.startsPart
  exact ⟨n, rest, rfl, Cursor.begins_of_startsPart hn⟩

theorem Selector.Spelt.begins {s : Selector} {ns : List (Node P)} (h : s.Spelt ns) :
    ∃ n rest, ns = n :: rest ∧ Cursor.Begins n.token := by
  cases s with
  | simple s => exact Simple.Spelt.begins h
  | both first second _ =>
    obtain ⟨xs, ys, rfl, hfirst, -⟩ := h
    obtain ⟨n, rest, rfl, hn⟩ := hfirst.begins
    exact ⟨n, rest ++ ys, rfl, hn⟩
  | related link first second _ =>
    obtain ⟨xs, m, ys, rfl, -, h⟩ := h
    split at h
    · obtain ⟨hxs, hm⟩ := h
      cases xs with
      | nil => exact ⟨m, ys, rfl, by rw [hm]; exact ⟨rfl, rfl⟩⟩
      | cons n rest =>
        obtain ⟨t, ts, htokens, ht⟩ := first.tokens_head
        rw [show first.tokens = t :: ts from htokens] at hxs
        cases ts with
        | nil => cases hxs
        | cons u us =>
          obtain ⟨hn, -⟩ : n.token = t ∧ rest.map Node.token = (u :: us).dropLast := List.cons.inj hxs
          exact ⟨n, rest ++ m :: ys, rfl, Cursor.begins_of_startsPart (hn ▸ ht)⟩
    · obtain ⟨n, rest, rfl, hn⟩ := h.1.begins
      exact ⟨n, rest ++ m :: ys, rfl, hn⟩

theorem Selector.closesMarkup_of_isCompound {s : Selector} (h : s.isCompound = true) : s.closesMarkup = false := by
  induction s with
  | simple s => rfl
  | both first second _ ih => exact ih h
  | related link first second _ => cases h

namespace Cursor

/-- Whether reading a selector from `c` comes to the tree `t`, locators aside. -/
def ReadsTree (c : Cursor P) (t : Selector) : Prop :=
  ∃ x, (c.complex .any).result = .ok x ∧ ∀ locate : P → Locator, ∃ u, x.tree locate = .ok u ∧ u.erase = t

theorem readsTree_of_compound {s : Selector} (h : s.Legible) (hcompound : s.isCompound = true) {c : Cursor P}
    (hs : s.Spelt c.rest) : c.ReadsTree s.reread := by
  obtain ⟨d, hd, hread⟩ :=
    simples_of_spelt h (hs.parts hcompound) (fun n hn => by cases hn) (List.append_nil c.rest).symm
  obtain ⟨t, ts, hts⟩ : ∃ t ts, Simple.rereadAll s.parts = t :: ts := by
    cases s <;> exact List.exists_cons_of_ne_nil (Simple.rereadAll_cons_ne_nil _ _)
  rw [hts] at hread
  refine ⟨_, complex_subject (compound_of_simples hread) (combinator?_nil hd), fun locate => ⟨_, rfl, ?_⟩⟩
  rw [Selector.erase_conjunction, Selector.reread_of_isCompound hcompound, hts]
  rfl

/-- The left operand of a combinator, and the combinator, are read. -/
theorem complex_of_related {first : Simple} (h : first.Legible) {xs ys : List (Node P)} (hxs : first.Spelt xs)
    {n : Node P} {link : Combinator} (hn : n.token = link.token)
    (hys : ∃ m rest, ys = m :: rest ∧ Begins m.token) {c : Cursor P} (hc : c.rest = xs ++ n :: ys) :
    ∃ d : Cursor P, d.rest = ys ∧
      (c.complex .any).result = (d.complex .any).result.map (.link ⟨c.here, first.reread, []⟩ link ·) := by
  obtain ⟨m, rest, rfl, hm⟩ := hys
  have hspelt : Simple.SpeltAll [first] xs := ⟨xs, [], (List.append_nil xs).symm, hxs, rfl⟩
  have hlegible : ∀ s ∈ [first], s.Legible := by
    intro s hs
    cases List.mem_singleton.1 hs
    exact h
  obtain ⟨d, hd, hread⟩ := simples_of_spelt hlegible hspelt (stops_of_combinator hn) hc
  obtain ⟨e, he, hrest⟩ := combinator?_of_token hd hn hm
  have hskip : e.skipSpace.rest = m :: rest := rest_skipSpace hrest hm.1
  refine ⟨e.skipSpace, hskip, complex_link (compound_of_simples hread) he ?_⟩
  rw [hskip]
  exact List.cons_ne_nil m rest

/-- Nodes that spell a selector read as it reads back, unless two dashes in it close markup. -/
theorem readsTree_of_spelt {s : Selector} (h : s.Legible) (hlayered : s.isLayered = true)
    (hopen : s.closesMarkup = false) {c : Cursor P} (hs : s.Spelt c.rest) : c.ReadsTree s.reread := by
  induction s generalizing c with
  | simple s => exact readsTree_of_compound h rfl hs
  | both first second _ => exact readsTree_of_compound h hlayered hs
  | related link first second _ ih =>
    obtain ⟨hfirst, hsecond⟩ := Selector.legible_related.1 h
    obtain ⟨xs, n, ys, hc, hys, hxs⟩ := hs
    rw [Selector.closesMarkup, Bool.or_eq_false_iff] at hopen
    rw [if_neg (by simp [hopen.1])] at hxs
    obtain ⟨d, rfl, hread⟩ := complex_of_related hfirst hxs.1 hxs.2 (hys.begins) hc
    obtain ⟨x, hx, htree⟩ := ih hsecond hlayered hopen.2 hys
    refine ⟨.link ⟨c.here, first.reread, []⟩ link x, by rw [hread, hx]; rfl, ?_⟩
    intro locate
    obtain ⟨t, ht, herase⟩ := htree locate
    refine ⟨.related link first.reread t (some (locate c.here)), ?_, ?_⟩
    · rw [Complex.tree, ht]
      rfl
    · rw [Selector.erase, herase, Selector.reread]

/-! ## Dashes that close markup -/

/-- What is before the end of markup starts no part, or breaks one off. -/
theorem compound_of_dashed {first : Simple} (hdashed : first.dashed = true) {xs ys : List (Node P)}
    (hxs : xs.map Node.token = first.tokens.dropLast) {n : Node P} (hn : n.token = .markupClose) {c : Cursor P}
    (hc : c.rest = xs ++ n :: ys) : ∃ f, (c.compound .any).result = .error f := by
  have herror (f : Failure P) (h : c.item? .any = .error f) : (c.compound .any).result = .error f := by
    rw [compound, simples_error h]
    rfl
  cases first with
  | type t =>
    obtain ⟨ns, name⟩ := t
    cases ns with
    | any =>
      -- the dashes were all of the type, so that no part is left of the end of markup
      obtain rfl := List.map_eq_nil_iff.1 hxs
      have hnone : c.item? .any = .ok none := by
        simp only [item?, show c.rest = n :: ys from hc, hn]
      rw [compound, simples_none hnone]
      exact ⟨_, rfl⟩
    | absent =>
      obtain ⟨k, rfl, hk⟩ := List.map_eq_singleton_iff.1 hxs
      have hnext := rest_next hc
      refine ⟨_, herror c.next.unexpected ?_⟩
      simp only [item?_bar hc hk, qualified, token?_cons hnext, hn]
      rfl
    | named label =>
      obtain ⟨k, m, rfl, hk, hm⟩ := Node.pair_of_tokens (t := .ident label) (u := .delim '|') hxs
      have hnext := rest_next hc
      have hnext' := rest_next hnext
      refine ⟨_, herror c.next.next.unexpected ?_⟩
      simp only [item?_ident hc hk, typeAfter_bar hnext hm, qualified, token?_cons hnext', hn]
      rfl
  | className name =>
    obtain ⟨k, rfl, hk⟩ := List.map_eq_singleton_iff.1 hxs
    have hnext := rest_next hc
    refine ⟨_, herror ⟨.expectedIdentifier, c.next.here⟩ ?_⟩
    simp only [item?_point hc hk, localName, token?_cons hnext, hn]
    rfl
  | pseudoClass name =>
    obtain ⟨k, rfl, hk⟩ := List.map_eq_singleton_iff.1 hxs
    have hnext : c.next.rest = n :: ys := rest_next hc
    refine ⟨_, herror c.next.unexpected ?_⟩
    simp only [item?_colon hc hk, pseudo, hnext, hn]
    rfl
  | _ => cases hdashed

/-- Nodes that spell a selector in which two dashes close markup are refused. -/
theorem complex_of_closesMarkup {s : Selector} (h : s.Legible) (hlayered : s.isLayered = true)
    (hclose : s.closesMarkup = true) {c : Cursor P} (hs : s.Spelt c.rest) :
    ∃ f, (c.complex .any).result = .error f := by
  induction s generalizing c with
  | simple s => cases hclose
  | both first second _ => cases hclose.symm.trans (Selector.closesMarkup_of_isCompound hlayered)
  | related link first second _ ih =>
    obtain ⟨hfirst, hsecond⟩ := Selector.legible_related.1 h
    obtain ⟨xs, n, ys, hc, hys, hxs⟩ := hs
    by_cases hdashed : (link == .child && first.dashed) = true
    · rw [if_pos hdashed] at hxs
      obtain ⟨f, hf⟩ := compound_of_dashed (Bool.and_eq_true_iff.1 hdashed).2 hxs.1 hxs.2 hc
      exact ⟨f, complex_error hf⟩
    · rw [if_neg hdashed] at hxs
      have hclose : second.closesMarkup = true := by
        rw [Selector.closesMarkup, Bool.or_eq_true] at hclose
        exact hclose.resolve_left hdashed
      obtain ⟨d, rfl, hread⟩ := complex_of_related hfirst hxs.1 hxs.2 (hys.begins) hc
      obtain ⟨f, hf⟩ := ih hsecond hlayered hclose hys
      exact ⟨f, by rw [hread, hf]; rfl⟩

end Cursor

end StyleSelectors
