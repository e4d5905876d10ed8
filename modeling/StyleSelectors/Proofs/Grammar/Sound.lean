/-
Whatever is read is a phrase of the grammar. Each reader takes a phrase off the front of the nodes
ahead and gives what the phrase denotes: `Cursor.leads_of_item?` for one part, `Cursor.parts_of_simples`
for a compound, and `Cursor.chain_of_complex` for a whole selector.
-/
import StyleSelectors.Proofs.Grammar.Parsed
import StyleSelectors.Proofs.Grammar.Rules
import StyleSelectors.Proofs.Grammar.Steps

namespace StyleSelectors

open Text Grammar

variable {P : Type}

namespace Cursor

variable {c d e : Cursor P} {ns : Namespace} {name : String}

/-! ## Moves -/

theorem exists_of_token? {t : Token} (h : c.token? = some t) : ∃ n, c.rest = n :: c.next.rest ∧ n.token = t := by
  cases hc : c.rest with
  | nil => rw [token?_nil hc] at h; cases h
  | cons n rest =>
    rw [token?_cons hc] at h
    exact ⟨n, by rw [rest_next hc], Option.some.inj h⟩

theorem tokens_of_token? {t : Token} (h : c.token? = some t) :
    c.rest.map Node.token = t :: c.next.rest.map Node.token := by
  obtain ⟨n, hc, rfl⟩ := exists_of_token? h
  rw [hc, List.map_cons]

theorem tokens_of_atBar (h : c.atBar = true) : c.rest.map Node.token = .delim '|' :: c.next.rest.map Node.token :=
  tokens_of_token? (beq_iff_eq.1 h)

theorem noBar_of_atBar (h : ¬ c.atBar = true) : NoBar c.rest := by
  intro n hn hbar
  apply h
  rw [atBar, token?, hn, Option.map_some, hbar]
  rfl

theorem rest_eq_nil_of_token? (h : c.token? = none) : c.rest = [] := by
  rwa [token?, Option.map_eq_none_iff, List.head?_eq_none_iff] at h

/-- What is ahead is blanks and then what is ahead past them. -/
theorem exists_blank_skipSpace (c : Cursor P) :
    ∃ a, Blank (a.map Node.token) ∧ c.rest = a ++ c.skipSpace.rest := by
  refine ⟨c.rest.takeWhile fun n => n.token.isWhitespace, ?_, List.takeWhile_append_dropWhile.symm⟩
  exact blank_iff.2 (List.forall_mem_map.2 fun n hn => List.all_eq_true.1 List.all_takeWhile n hn)

theorem exists_blank_tokens_skipSpace (c : Cursor P) :
    ∃ a, Blank a ∧ c.rest.map Node.token = a ++ c.skipSpace.rest.map Node.token := by
  obtain ⟨a, ha, hc⟩ := c.exists_blank_skipSpace
  exact ⟨a.map Node.token, ha, by rw [hc, List.map_append]⟩

theorem not_whitespace_of_skipSpace {t : Token} (h : c.skipSpace.token? = some t) : t.isWhitespace = false := by
  have hhead := List.head?_dropWhile_not (fun n : Node P => n.token.isWhitespace) c.rest
  obtain ⟨n, hn, rfl⟩ := exists_of_token? h
  rw [rest_skipSpace_eq] at hn
  rw [hn] at hhead
  simpa using hhead

theorem blank_of_token?_skipSpace (h : c.skipSpace.token? = none) : Blank (c.rest.map Node.token) := by
  obtain ⟨a, ha, hc⟩ := c.exists_blank_skipSpace
  rw [hc, rest_eq_nil_of_token? h, List.append_nil]
  exact ha

/-! ## Attributes -/

theorem exists_of_localName (h : c.localName = .ok (name, d)) : ∃ n, c.rest = n :: d.rest ∧ n.token = .ident name := by
  unfold localName at h
  split at h
  · next ht => cases h; exact exists_of_token? ht
  · cases h

theorem tokens_of_localName (h : c.localName = .ok (name, d)) :
    c.rest.map Node.token = .ident name :: d.rest.map Node.token := by
  obtain ⟨n, hc, hn⟩ := exists_of_localName h
  rw [hc, List.map_cons, hn]

theorem attributeName_sound (h : c.attributeName = .ok ((ns, name), d)) :
    ∃ ts, AttributeName ts ns name ∧ c.rest.map Node.token = ts ++ d.rest.map Node.token := by
  unfold attributeName at h
  split at h
  · next label ht =>
    split at h
    · next hbar =>
      obtain ⟨⟨found, e⟩, hfound, he⟩ := map_eq_ok h
      cases he
      refine ⟨_, .prefixed (.named label) name, ?_⟩
      rw [tokens_of_token? ht, tokens_of_atBar hbar, tokens_of_localName hfound]
      rfl
    · cases h
      exact ⟨_, .plain name, tokens_of_token? ht⟩
  · next ht =>
    split at h
    · next hbar =>
      obtain ⟨⟨found, e⟩, hfound, he⟩ := map_eq_ok h
      cases he
      refine ⟨_, .prefixed .any name, ?_⟩
      rw [tokens_of_token? ht, tokens_of_atBar hbar, tokens_of_localName hfound]
      rfl
    · cases h
  · next ht =>
    obtain ⟨⟨found, e⟩, hfound, he⟩ := map_eq_ok h
    cases he
    refine ⟨_, .prefixed .absent name, ?_⟩
    rw [tokens_of_token? ht, tokens_of_localName hfound]
    rfl
  · cases h

theorem operator_of_valueTest? {t : Token} {test : String → ValueTest} (h : valueTest? t = some test) :
    Operator t test := by
  unfold valueTest? at h
  split at h
  · cases h; exact .equals
  · next op => cases h; exact .matching op
  · cases h

theorem operand_sound {value : String} (h : c.operand = .ok (value, d)) :
    ∃ a t, Blank a ∧ Operand t value ∧ c.rest.map Node.token = a ++ t :: d.rest.map Node.token := by
  obtain ⟨a, ha, hc⟩ := c.exists_blank_tokens_skipSpace
  unfold operand at h
  split at h
  · next ht => cases h; exact ⟨a, _, ha, .ident value, by rw [hc, tokens_of_token? ht]⟩
  · next ht => cases h; exact ⟨a, _, ha, .string value, by rw [hc, tokens_of_token? ht]⟩
  · cases h
  · cases h

theorem flags_sound (c : Cursor P) :
    c.flags.1 = true ∧ (∃ a flag, Blank a ∧ c.rest.map Node.token = a ++ .ident flag :: c.flags.2.rest.map Node.token) ∨
      c.flags.1 = false ∧ c.flags.2 = c := by
  unfold flags
  split
  · next flag ht =>
    obtain ⟨a, ha, hc⟩ := c.exists_blank_tokens_skipSpace
    exact .inl ⟨rfl, a, flag, ha, by rw [hc, tokens_of_token? ht]⟩
  · exact .inr ⟨rfl, rfl⟩

theorem blank_of_expectEnd (h : c.expectEnd = .ok ()) : Blank (c.rest.map Node.token) := by
  unfold expectEnd at h
  split at h
  · cases h
  · next ht => exact blank_of_token?_skipSpace ht

theorem attributeSelector_sound {a : AttributeSelector} {flagged : Bool}
    (h : c.attributeSelector = .ok (a, flagged)) : AttributeBody (c.rest.map Node.token) a flagged := by
  obtain ⟨as, has, hc⟩ := c.exists_blank_tokens_skipSpace
  unfold attributeSelector at h
  obtain ⟨⟨⟨ns, name⟩, d⟩, hname, h⟩ := bind_eq_ok h
  obtain ⟨ts, hts, hd⟩ := attributeName_sound hname
  rw [hc, hd, ← List.append_assoc]
  dsimp only at h
  split at h
  · next hend =>
    cases h
    exact .present has hts (blank_of_token?_skipSpace hend)
  · next operator hoperator =>
    obtain ⟨bs, hbs, hd⟩ := d.exists_blank_tokens_skipSpace
    rw [hd, tokens_of_token? hoperator]
    split at h
    · cases h
    · next test htest =>
      obtain ⟨⟨value, e⟩, hvalue, h⟩ := bind_eq_ok h
      obtain ⟨cs, t, hcs, ht, he⟩ := operand_sound hvalue
      rw [he]
      obtain ⟨_, hend, h⟩ := bind_eq_ok h
      have hend : Blank (e.flags.2.rest.map Node.token) := blank_of_expectEnd hend
      cases h
      show AttributeBody _ _ e.flags.1
      rcases e.flags_sound with ⟨hflag, ds, flag, hds, he⟩ | ⟨hflag, he⟩
      · rw [he, hflag]
        exact .flagged has hts hbs (operator_of_valueTest? htest) hcs ht hds flag hend
      · rw [he] at hend
        rw [hflag]
        exact .test has hts hbs (operator_of_valueTest? htest) hcs ht hend

end Cursor

/-! ## Parts -/

/-- What a part that has been read stands for, unless its argument is still to be read. -/
def Item.simple? : Item P → Option Simple
  | .simple s => some s
  | .unsupported _ => some .nothing
  | .negation _ => none

/-- Whether an item is the part at the front of some nodes, with the others after it. -/
inductive Item.Leads (ns : Namespace) : Item P → List (Node P) → List (Node P) → Prop
  | bare {n : Node P} {s : Simple} {ys : List (Node P)} (hn : Bare ns n.token s) (hbar : NoBar ys) :
    Leads ns (.simple s) (n :: ys) ys
  | part {i : Item P} {s : Simple} (xs : List (Node P)) {ys : List (Node P)} (hi : i.simple? = some s)
    (hxs : Part xs s) : Leads ns i (xs ++ ys) ys
  | negation {k n : Node P} {name : String} {ys : List (Node P)} (hk : k.token = .colon)
    (hn : n.token = .function name) (hnot : name.toLower = "not") :
    Leads ns (.negation (Cursor.inside n).skipSpace) (k :: n :: ys) ys

namespace Cursor

variable {c d : Cursor P} {ns ms : Namespace} {i : Item P}

theorem qualified_sound (xs : List (Node P)) (hxs : Prefix (xs.map Node.token) ns)
    (h : c.qualified ns = .ok (i, d)) : i.Leads ms (xs ++ c.rest) d.rest := by
  unfold qualified at h
  split at h
  · next name ht =>
    cases h
    obtain ⟨m, hc, hm⟩ := exists_of_token? ht
    rw [hc, List.append_cons]
    exact .part _ rfl (.type hxs name (by rw [List.map_append, List.map_singleton, hm]))
  · next ht =>
    cases h
    obtain ⟨m, hc, hm⟩ := exists_of_token? ht
    rw [hc, List.append_cons]
    refine .part _ ?_ (.universal hxs (by rw [List.map_append, List.map_singleton, hm]))
    split <;> rfl
  · cases h

theorem typeAfter_sound {n : Node P} {written : Simple} (hns : Prefix [n.token, .delim '|'] ns)
    (hn : Bare ms n.token written) (h : c.typeAfter ns written = .ok (i, d)) :
    i.Leads ms (n :: c.rest) d.rest := by
  unfold typeAfter at h
  split at h
  · next hbar =>
    obtain ⟨b, hc, hb⟩ := exists_of_token? (beq_iff_eq.1 hbar)
    rw [hc]
    exact qualified_sound [n, b] (by rwa [List.map_cons, List.map_singleton, hb]) h
  · next hbar =>
    cases h
    exact .bare hn (noBar_of_atBar hbar)

theorem pseudoElement_sound {k j : Node P} (hk : k.token = .colon) (hj : j.token = .colon)
    (h : c.pseudoElement = .ok (i, d)) : i.Leads ns (k :: j :: c.rest) d.rest := by
  unfold pseudoElement at h
  split at h
  · next name ht =>
    cases h
    obtain ⟨m, hc, hm⟩ := exists_of_token? ht
    rw [hc]
    exact .part [k, j, m] rfl (.pseudoElement name (by simp [hk, hj, hm]))
  · next name ht =>
    cases h
    obtain ⟨m, hc, hm⟩ := exists_of_token? ht
    rw [hc]
    exact .part [k, j, m] rfl (.pseudoElementFunction name (by simp [hk, hj, hm]))
  · cases h

theorem pseudo_sound {k : Node P} (hk : k.token = .colon) (h : c.pseudo = .ok (i, d)) :
    i.Leads ns (k :: c.rest) d.rest := by
  unfold pseudo at h
  simp only [← toLower_eq_lower] at h
  split at h
  · cases h
  · next n rest hc =>
    have hnext := rest_next hc
    rw [hc]
    split at h
    · next name hn =>
      have hpart : Part [k, n] _ := .pseudoClass name (by simp [hk, hn])
      split at h
      · next hlegacy =>
        cases h
        rw [if_pos ((contains_legacyPseudoElements_iff _).1 hlegacy)] at hpart
        rw [hnext]
        exact .part [k, n] rfl hpart
      · next hmodern =>
        cases h
        rw [if_neg fun hlegacy => hmodern ((contains_legacyPseudoElements_iff _).2 hlegacy)] at hpart
        rw [hnext]
        exact .part [k, n] rfl hpart
    · next name hn =>
      split at h
      · next hnot =>
        cases h
        rw [hnext]
        exact .negation hk hn ((sameIgnoringCase_not_iff name).1 hnot)
      · next hnot =>
        cases h
        rw [hnext]
        refine .part [k, n] rfl (.function hk hn ?_ (trimmed_arguments n))
        exact fun heq => hnot ((sameIgnoringCase_not_iff name).2 heq)
    · next hn => exact hnext ▸ pseudoElement_sound hk hn h
    · cases h

/-- A part that is read is the part at the front. -/
theorem leads_of_item? (h : c.item? ns = .ok (some (i, d))) : i.Leads ns c.rest d.rest := by
  unfold item? at h
  split at h
  · cases h
  · next n rest hc =>
    have hnext := rest_next hc
    rw [hc, ← hnext]
    split at h
    · next name hn =>
      obtain ⟨_, ha, hs⟩ := map_eq_ok h
      cases hs
      exact typeAfter_sound (hn ▸ .named name) (hn ▸ .type name) ha
    · next hn =>
      obtain ⟨_, ha, hs⟩ := map_eq_ok h
      cases hs
      exact typeAfter_sound (hn ▸ .any) (hn ▸ .universal) ha
    · next hn =>
      obtain ⟨_, ha, hs⟩ := map_eq_ok h
      cases hs
      exact qualified_sound [n] (by rw [List.map_singleton, hn]; exact .absent) ha
    · next name hn =>
      cases h
      exact .part [n] rfl (.id name hn)
    · next hn =>
      obtain ⟨⟨name, e⟩, ha, hs⟩ := map_eq_ok h
      cases hs
      obtain ⟨m, hm, hname⟩ := exists_of_localName ha
      rw [hm]
      exact .part [n, m] rfl (.className name (by simp [hn, hname]))
    · next hn =>
      obtain ⟨⟨a, flagged⟩, ha, hs⟩ := map_eq_ok h
      cases hs
      have hbody := attributeSelector_sound ha
      rw [rest_inside] at hbody
      refine .part [n] ?_ (.attr hn hbody)
      cases flagged <;> rfl
    · next hn =>
      obtain ⟨_, ha, hs⟩ := map_eq_ok h
      cases hs
      exact pseudo_sound hn ha
    · cases h

/-! ## Compounds -/

theorem negationOf_sound {k : Compound P} {s : Simple} (h : (negationOf (k, d)).result = .ok s) :
    Blank (d.rest.map Node.token) ∧ s = negated (k.first :: k.others) := by
  unfold negationOf at h
  dsimp only at h
  split at h
  · cases h
  · next hend =>
    obtain ⟨a, ha, hd⟩ := d.exists_blank_tokens_skipSpace
    refine ⟨by rw [hd]; exact List.forall_mem_append.2 ⟨ha, blank_of_expectEnd hend⟩, ?_⟩
    cases hothers : k.others with
    | nil =>
      rw [hothers, if_neg (by simp)] at h
      split at h
      · next hnothing =>
        cases h
        rw [hnothing]
        rfl
      · next hsome =>
        cases h
        rw [negated, if_neg hsome]
    | cons t ts =>
      rw [hothers, if_pos (by simp)] at h
      cases h
      rfl

end Cursor

theorem Grammar.NoBar.of_append {xs ys : List (Node P)} (h : NoBar (xs ++ ys)) : NoBar xs := by
  cases xs with
  | nil => exact nofun
  | cons n xs => exact h

namespace Item.Leads

variable {ns : Namespace} {us xs ys : List (Node P)}

/-- A part that stands for something joins the parts after it. -/
theorem parts_cons {i : Item P} {s : Simple} {ss : List Simple} (h : i.Leads ns us (xs ++ ys))
    (hi : i.simple? = some s) (hxs : Parts ns xs ss) : ∃ zs, us = zs ++ ys ∧ Parts ns zs (s :: ss) := by
  generalize hrest : xs ++ ys = rest at h
  cases h with
  | bare hn hbar =>
    cases hi
    subst hrest
    exact ⟨_ :: xs, rfl, .bare hn hbar.of_append hxs⟩
  | part _ hi' hpart =>
    cases hi.symm.trans hi'
    subst hrest
    exact ⟨_ ++ xs, (List.append_assoc ..).symm, .part hpart hxs⟩
  | negation => cases hi

theorem of_negation {inside : Cursor P} (h : (Item.negation inside).Leads ns us ys) :
    ∃ k n name, us = k :: n :: ys ∧ k.token = .colon ∧ n.token = .function name ∧ name.toLower = "not" ∧
      inside = (Cursor.inside n).skipSpace := by
  cases h with
  | part _ hi => cases hi
  | negation hk hn hnot => exact ⟨_, _, _, rfl, hk, hn, hnot, rfl⟩

end Item.Leads

namespace Cursor

variable {c d : Cursor P} {ns : Namespace}

/-- A negation whose argument is read, between blanks, is a part before those after it. -/
theorem parts_of_argument {k n : Node P} {ys : List (Node P)} {s : Simple} {ss : List Simple} (hk : k.token = .colon)
    (hn : n.token = .function name) (hnot : name.toLower = "not")
    (hread : ∀ {ts d}, ((inside n).skipSpace.simples ns).result = .ok (ts, d) →
      ∃ xs, (inside n).skipSpace.rest = xs ++ d.rest ∧ Parts ns xs ts)
    (h : ((((inside n).skipSpace.simples ns).bind (inside n).skipSpace.compoundOf).bind negationOf).result = .ok s)
    (hys : Parts ns ys ss) : Parts ns (k :: n :: ys) (s :: ss) := by
  obtain ⟨⟨m, d⟩, hm, hs⟩ := Report.bind_eq_ok h
  obtain ⟨⟨ts, e⟩, hts, hm⟩ := Report.bind_eq_ok hm
  obtain ⟨rfl, rfl⟩ := compoundOf_eq_ok hm
  obtain ⟨hblank, rfl⟩ := negationOf_sound hs
  obtain ⟨xs, hinside, hxs⟩ := hread hts
  obtain ⟨a, ha, hskip⟩ := (inside n).exists_blank_skipSpace
  refine .negation hk hn hnot ?_ ha hxs hblank hys
  rw [← rest_inside, hskip, hinside, List.append_assoc]

/-- The parts that are read make up the front. -/
theorem parts_of_simples {ss : List Simple} (h : (c.simples ns).result = .ok (ss, d)) :
    ∃ xs, c.rest = xs ++ d.rest ∧ Parts ns xs ss := by
  fun_induction simples ns c generalizing ss d with
  | case1 => cases h
  | case2 c =>
    cases h
    exact ⟨[], rfl, .nil⟩
  | case3 c s e hi _ ih =>
    obtain ⟨rest, hrest, rfl⟩ := simples_result_cons h
    obtain ⟨xs, he, hxs⟩ := ih hrest
    exact Item.Leads.parts_cons (he ▸ leads_of_item? hi) rfl hxs
  | case4 c why e hi _ ih =>
    obtain ⟨rest, hrest, rfl⟩ := simples_result_cons h
    obtain ⟨xs, he, hxs⟩ := ih hrest
    exact Item.Leads.parts_cons (he ▸ leads_of_item? hi) rfl hxs
  | case5 c inside e hi _ _ ihInside ih =>
    obtain ⟨s, hs, hmore⟩ := Report.bind_eq_ok h
    obtain ⟨rest, hrest, rfl⟩ := simples_result_cons hmore
    obtain ⟨k, n, name, hc, hk, hn, hnot, rfl⟩ := (leads_of_item? hi).of_negation
    obtain ⟨ys, he, hys⟩ := ih hrest
    exact ⟨k :: n :: ys, by rw [hc, he]; rfl, parts_of_argument hk hn hnot ihInside hs hys⟩

theorem parts_of_compound {k : Compound P} (h : (c.compound ns).result = .ok (k, d)) :
    ∃ xs, c.rest = xs ++ d.rest ∧ Parts ns xs (k.first :: k.others) ∧ k.place = c.here := by
  obtain ⟨⟨ss, e⟩, hss, hk⟩ := Report.bind_eq_ok h
  obtain ⟨rfl, rfl⟩ := compoundOf_eq_ok hk
  obtain ⟨xs, hc, hxs⟩ := parts_of_simples hss
  exact ⟨xs, hc, hxs, congrArg (fun r => r.1.place) (Except.ok.inj hk).symm⟩

/-! ## Chains -/

theorem blank_of_combinator? (h : c.combinator? = .ok none) : Blank (c.rest.map Node.token) := by
  unfold combinator? at h
  split at h
  · next ht => exact blank_of_token?_skipSpace ht
  · split at h
    · cases h
    · split at h <;> cases h

theorem sign_of_combinatorOf? {t : Token} {link : Combinator} (h : combinatorOf? t = some link) : Sign t link := by
  unfold combinatorOf? at h
  split at h
  · cases h; exact .child
  · cases h; exact .adjacentSibling
  · cases h; exact .generalSibling
  · cases h

/-- A combinator that is read, with the blanks after it, makes up the front. -/
theorem link_of_combinator? {link : Combinator} (h : c.combinator? = .ok (some (link, d))) :
    ∃ xs, Link (xs.map Node.token) link ∧ c.rest = xs ++ d.skipSpace.rest := by
  obtain ⟨a, ha, hc⟩ := c.exists_blank_skipSpace
  unfold combinator? at h
  split at h
  · cases h
  · next t ht =>
    split at h
    · next found hfound =>
      cases h
      obtain ⟨n, hn, rfl⟩ := exists_of_token? ht
      obtain ⟨b, hb, hd⟩ := c.skipSpace.next.exists_blank_skipSpace
      refine ⟨a ++ n :: b, ?_, by rw [hc, hn, hd, List.append_assoc]; rfl⟩
      rw [List.map_append, List.map_cons]
      exact .sign ha (sign_of_combinatorOf? hfound) hb
    · split at h
      · next hblank =>
        cases h
        obtain ⟨n, hn, rfl⟩ := exists_of_token? ht
        have hn' := not_whitespace_of_skipSpace ht
        refine ⟨a, .blanks ha ?_, by rw [rest_skipSpace hn hn', ← hn]; exact hc⟩
        -- without a blank there would be no combinator
        rintro ha
        rw [List.map_eq_nil_iff.1 ha, List.nil_append, hn] at hc
        rw [token?_cons hc, Option.any_some, hn'] at hblank
        cases hblank
      · cases h

/-- What a cursor is at that stands where the node ahead starts. -/
def AtStart (c : Cursor P) : Prop := ∀ n ∈ c.rest.head?, c.here = n.start

theorem atStart_skipSpace (c : Cursor P) : c.skipSpace.AtStart := by
  intro n hn
  show (c.skipSpace.rest.head?.map Node.start).getD c.stop = n.start
  rw [hn]
  rfl

/-- A complex selector that is read is all that is ahead. -/
theorem chain_of_complex {x : Complex P} (hc : c.AtStart) (h : (c.complex ns).result = .ok x) :
    Chain ns c.rest x := by
  fun_induction complex ns c generalizing x with
  | case1 | case2 | case4 => cases h
  | case3 c k d hk hd =>
    cases h
    obtain ⟨xs, hrest, hxs, hplace⟩ := parts_of_compound hk
    obtain ⟨n, ys, rfl, -⟩ := hxs.startsPart
    have hn : k.place = n.start := by rw [hplace, hc n (by rw [hrest]; rfl)]
    rw [hrest]
    have := Chain.subject hxs (blank_of_combinator? hd)
    rwa [← hn] at this
  | case5 c k d hk link e hd hne =>
    rename_i ih
    obtain ⟨y, hy, rfl⟩ := map_eq_ok h
    obtain ⟨xs, hrest, hxs, hplace⟩ := parts_of_compound hk
    obtain ⟨ys, hys, hd⟩ := link_of_combinator? hd
    obtain ⟨n, zs, rfl, -⟩ := hxs.startsPart
    have hn : k.place = n.start := by rw [hplace, hc n (by rw [hrest]; rfl)]
    rw [hrest, hd]
    have := Chain.link hxs hys (ih e.atStart_skipSpace hy)
    rwa [← hn] at this

end Cursor

/-! ## Trees -/

/-- A complex selector has its nested combinators as its tree, or none if a compound is on the left. -/
theorem Complex.tree_eq (locate : P → Locator) (x : Complex P) :
    (x.simpleOnLeft = true → x.tree locate = .ok (x.nested locate)) ∧
      (x.simpleOnLeft = false → ∃ why, x.tree locate = .error why) := by
  induction x with
  | subject k =>
    refine ⟨fun _ => ?_, fun h => Bool.noConfusion h⟩
    rw [tree, conjunction_eq_joined, nested]
  | link k combinator rest ih =>
    rw [simpleOnLeft, tree]
    cases hrest : rest.simpleOnLeft with
    | false =>
      obtain ⟨why, hwhy⟩ := ih.2 hrest
      rw [hwhy, Bool.and_false]
      exact ⟨fun h => Bool.noConfusion h, fun _ => ⟨why, rfl⟩⟩
    | true =>
      rw [ih.1 hrest, Bool.and_true]
      cases hothers : k.others.isEmpty with
      | true => exact ⟨fun _ => rfl, fun h => Bool.noConfusion h⟩
      | false => exact ⟨fun h => Bool.noConfusion h, fun _ => ⟨_, rfl⟩⟩

theorem Complex.result_selector (locate : P → Locator) (x : Complex P) :
    (x.selector locate).result = .ok (x.denoted locate) := by
  rw [selector, denoted]
  cases hleft : x.simpleOnLeft with
  | true =>
    rw [(x.tree_eq locate).1 hleft]
    rfl
  | false =>
    obtain ⟨why, hwhy⟩ := (x.tree_eq locate).2 hleft
    rw [hwhy]
    rfl

/-- A selector that is read is what the nodes ahead denote. -/
theorem Cursor.denotes_of_selector {c : Cursor P} {ns : Namespace} {locate : P → Locator} {s : Selector}
    (h : (c.selector locate ns).result = .ok s) : Denotes ns locate c.rest s := by
  obtain ⟨x, hx, hs⟩ := Report.bind_eq_ok h
  rw [x.result_selector locate] at hs
  obtain ⟨a, ha, hc⟩ := c.exists_blank_skipSpace
  exact ⟨a, _, x, hc, ha, chain_of_complex c.atStart_skipSpace hx, Except.ok.inj hs⟩

end StyleSelectors
