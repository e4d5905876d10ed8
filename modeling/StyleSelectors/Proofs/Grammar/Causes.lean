/-
Why reading a selector fails. A failure is told of a token, or of the end, unless a selector is missing
(`Cursor.missing_of_complex`): there is none where nothing is ahead, or where the first thing wrong is a
negation of nothing (`Grammar.HollowChain`); and none comes after a combinator where a selector ends with
the sign of one (`Grammar.Dangles`). Where it is so, reading does fail for this cause.
-/
import StyleSelectors.Proofs.Grammar.Complete

namespace StyleSelectors

open Text Grammar

variable {P : Type}

/-! ## Failures at a token -/

/-- Whether a cause is about a token that is there, or about the end, and not about a missing selector. -/
def Cause.OfToken : Cause → Prop
  | .emptySelector | .danglingCombinator => False
  | _ => True

def FailsAtToken {α : Type} (x : Except (Failure P) α) : Prop := ∀ f, x = .error f → f.cause.OfToken

namespace FailsAtToken

variable {α β : Type} {x : Except (Failure P) α}

theorem ok (a : α) : FailsAtToken (P := P) (.ok a) := nofun

theorem error {f : Failure P} (h : f.cause.OfToken) : FailsAtToken (α := α) (.error f) := by
  rintro _ ⟨⟩
  exact h

theorem map (h : FailsAtToken x) (g : α → β) : FailsAtToken (x.map g) := by
  cases x with
  | error f => exact error (h f rfl)
  | ok a => exact ok (g a)

theorem bind (h : FailsAtToken x) {g : α → Except (Failure P) β} (hg : ∀ a, FailsAtToken (g a)) :
    FailsAtToken (x >>= g) := by
  cases x with
  | error f => exact error (h f rfl)
  | ok a => exact hg a

end FailsAtToken

namespace Cursor

variable {c d : Cursor P} {ns : Namespace}

theorem ofToken_unexpected (c : Cursor P) : c.unexpected.cause.OfToken := by
  unfold unexpected
  split <;> trivial

theorem ofToken_unexpectedPast (c : Cursor P) : c.unexpectedPast.cause.OfToken := by
  unfold unexpectedPast
  split <;> trivial

theorem failsAtToken_localName (c : Cursor P) : FailsAtToken c.localName := by
  unfold localName
  split
  · exact .ok _
  · exact .error trivial

theorem failsAtToken_attributeName (c : Cursor P) : FailsAtToken c.attributeName := by
  unfold attributeName
  split
  · split
    · exact (failsAtToken_localName _).map _
    · exact .ok _
  · split
    · exact (failsAtToken_localName _).map _
    · exact .error (ofToken_unexpected _)
  · exact (failsAtToken_localName _).map _
  · exact .error (ofToken_unexpected _)

theorem failsAtToken_operand (c : Cursor P) : FailsAtToken c.operand := by
  unfold operand
  split
  · exact .ok _
  · exact .ok _
  · exact .error trivial
  · exact .error trivial

theorem failsAtToken_expectEnd (c : Cursor P) : FailsAtToken c.expectEnd := by
  unfold expectEnd
  split
  · exact .error trivial
  · exact .ok _

theorem failsAtToken_attributeSelector (c : Cursor P) : FailsAtToken c.attributeSelector := by
  unfold attributeSelector
  refine (failsAtToken_attributeName _).bind fun ⟨⟨ns, name⟩, d⟩ => ?_
  dsimp only
  split
  · exact .ok _
  · split
    · exact .error trivial
    · exact (failsAtToken_operand _).bind fun _ => (failsAtToken_expectEnd _).bind fun _ => .ok _

theorem failsAtToken_qualified (c : Cursor P) : FailsAtToken (c.qualified ns) := by
  unfold qualified
  split
  · exact .ok _
  · exact .ok _
  · exact .error (ofToken_unexpected c)

theorem failsAtToken_typeAfter (written : Simple) (c : Cursor P) : FailsAtToken (c.typeAfter ns written) := by
  unfold typeAfter
  split
  · exact failsAtToken_qualified _
  · exact .ok _

theorem failsAtToken_pseudoElement (c : Cursor P) : FailsAtToken c.pseudoElement := by
  unfold pseudoElement
  split
  · exact .ok _
  · exact .ok _
  · exact .error (ofToken_unexpected c)

theorem failsAtToken_pseudo (c : Cursor P) : FailsAtToken c.pseudo := by
  unfold pseudo
  split
  · exact .error (ofToken_unexpected c)
  · split
    · split <;> exact .ok _
    · split <;> exact .ok _
    · exact failsAtToken_pseudoElement _
    · exact .error (ofToken_unexpected c)

theorem failsAtToken_item? (c : Cursor P) : FailsAtToken (c.item? ns) := by
  unfold item?
  split
  · exact .ok _
  · split
    · exact (failsAtToken_typeAfter _ _).map _
    · exact (failsAtToken_typeAfter _ _).map _
    · exact (failsAtToken_qualified _).map _
    · exact .ok _
    · exact (failsAtToken_localName _).map _
    · exact (failsAtToken_attributeSelector _).map _
    · exact (failsAtToken_pseudo _).map _
    · exact .ok _

theorem failsAtToken_combinator? (c : Cursor P) : FailsAtToken c.combinator? := by
  unfold combinator?
  split
  · exact .ok _
  · split
    · exact .ok _
    · split
      · exact .ok _
      · exact .error (ofToken_unexpectedPast c)

end Cursor

/-! ## Negations of nothing -/

namespace Grammar

/-- A colon and a function, which make a negation. -/
structure Negates (k n : Node P) : Prop where
  colon : k.token = .colon
  function : ∃ name, n.token = .function name ∧ name.toLower = "not"

/-- Whether there are parts up to a negation whose contents are blank, or start in this way themselves.
The place is where the blanks end. -/
inductive HollowParts (ns : Namespace) : List (Node P) → P → Prop
  | blank {k n : Node P} {xs ys : List (Node P)} {ss : List Simple} (hxs : Parts ns xs ss) (hn : Negates k n)
    (hinside : Blank (n.inside.map Node.token)) : HollowParts ns (xs ++ k :: n :: ys) (Cursor.inside n).stop
  | within {k n : Node P} {xs ys a zs : List (Node P)} {ss : List Simple} {p : P} (hxs : Parts ns xs ss)
    (hn : Negates k n) (hinside : n.inside = a ++ zs) (ha : Blank (a.map Node.token)) (hzs : HollowParts ns zs p) :
    HollowParts ns (xs ++ k :: n :: ys) p

/-- Whether there are compounds and combinators up to such parts. -/
inductive HollowChain (ns : Namespace) : List (Node P) → P → Prop
  | compound {xs : List (Node P)} {p : P} (hxs : HollowParts ns xs p) : HollowChain ns xs p
  | link {xs ys zs : List (Node P)} {s : Simple} {ss : List Simple} {link : Combinator} {p : P}
    (hxs : Parts ns xs (s :: ss)) (hys : Link (ys.map Node.token) link) (hzs : HollowChain ns zs p) :
    HollowChain ns (xs ++ (ys ++ zs)) p

variable {ns : Namespace} {us xs ys : List (Node P)} {k n : Node P} {p : P}

theorem startsPart_append_negation {ss : List Simple} (h : Parts ns xs ss) (hk : k.token = .colon) :
    ∃ m rest, xs ++ k :: ys = m :: rest ∧ m.token.StartsPart := by
  cases ss with
  | nil =>
    cases h
    exact ⟨k, ys, rfl, by rw [hk]; trivial⟩
  | cons s ss =>
    obtain ⟨m, rest, rfl, hm⟩ := h.startsPart
    exact ⟨m, rest ++ k :: ys, rfl, hm⟩

theorem HollowParts.startsPart (h : HollowParts ns xs p) : ∃ m rest, xs = m :: rest ∧ m.token.StartsPart := by
  cases h with
  | blank hxs hn | within hxs hn => exact startsPart_append_negation hxs hn.colon

theorem HollowChain.startsPart (h : HollowChain ns xs p) : ∃ m rest, xs = m :: rest ∧ m.token.StartsPart := by
  cases h with
  | compound hxs => exact hxs.startsPart
  | link hxs =>
    obtain ⟨m, rest, rfl, hm⟩ := hxs.startsPart
    exact ⟨m, _, rfl, hm⟩

/-- What makes parts of more parts joins those before a negation of nothing. -/
theorem HollowParts.prepend (h : HollowParts ns ys p)
    (hcons : ∀ {xs zs ss}, ys = xs ++ zs → Parts ns xs ss → ∃ vs ts, us = vs ++ zs ∧ Parts ns vs ts) :
    HollowParts ns us p := by
  cases h with
  | blank hxs hn hinside =>
    obtain ⟨vs, ts, rfl, hvs⟩ := hcons rfl hxs
    exact .blank hvs hn hinside
  | within hxs hn hinside ha hzs =>
    obtain ⟨vs, ts, rfl, hvs⟩ := hcons rfl hxs
    exact .within hvs hn hinside ha hzs

end Grammar

namespace Cursor

variable {c d : Cursor P} {ns : Namespace} {xs ys : List (Node P)} {k n : Node P} {p : P}

/-- Where no part is read, the cursor is left where it was. -/
theorem eq_of_simples_nil (h : (c.simples ns).result = .ok ([], d)) : d = c := by
  fun_induction simples ns c with
  | case1 => cases h
  | case2 =>
    cases h
    rfl
  | case3 | case4 =>
    obtain ⟨rest, -, hne⟩ := simples_result_cons h
    cases hne
  | case5 =>
    obtain ⟨s, -, h⟩ := Report.bind_eq_ok h
    obtain ⟨rest, -, hne⟩ := simples_result_cons h
    cases hne

theorem compoundOf_eq_error {ss : List Simple} {f : Failure P} (h : (c.compoundOf (ss, d)).result = .error f) :
    ss = [] ∧ (f.cause.OfToken ∨ d.rest = [] ∧ f = ⟨.emptySelector, d.here⟩) := by
  cases ss with
  | nil =>
    refine ⟨rfl, ?_⟩
    cases h
    split
    · next hend => exact .inr ⟨List.isEmpty_iff.1 hend, rfl⟩
    · exact .inl (ofToken_unexpectedPast d)
  | cons s ss => cases h

theorem failsAtToken_negationOf (k : Compound P) (d : Cursor P) : FailsAtToken (negationOf (k, d)).result := by
  unfold negationOf
  dsimp only
  split
  · next hend => exact .error (failsAtToken_expectEnd _ _ hend)
  · split
    · exact .ok _
    · split <;> exact .ok _

theorem here_skipSpace_of_nil (h : c.skipSpace.rest = []) : c.skipSpace.here = c.stop := by
  show (c.skipSpace.rest.head?.map Node.start).getD c.stop = c.stop
  rw [h]
  rfl

/-- Reading the argument of a negation fails at a token, where there is none, or in the argument. -/
theorem hollow_of_argument {f : Failure P} (hn : Negates k n)
    (hread : ((inside n).skipSpace.simples ns).result = .error f →
      f.cause.OfToken ∨ f.cause = .emptySelector ∧ HollowParts ns (inside n).skipSpace.rest f.place)
    (h : ((((inside n).skipSpace.simples ns).bind (inside n).skipSpace.compoundOf).bind negationOf).result = .error f) :
    f.cause.OfToken ∨ f.cause = .emptySelector ∧ HollowParts ns (k :: n :: ys) f.place := by
  obtain ⟨a, ha, hskip⟩ := (inside n).exists_blank_skipSpace
  rcases Report.bind_eq_error h with h | ⟨⟨m, d⟩, -, h⟩
  · rcases Report.bind_eq_error h with h | ⟨⟨ts, d⟩, hts, h⟩
    · exact (hread h).imp_right (And.imp_right (.within .nil hn ((rest_inside n).symm.trans hskip) ha))
    · obtain ⟨rfl, h | ⟨hd, rfl⟩⟩ := compoundOf_eq_error h
      · exact .inl h
      · obtain rfl := eq_of_simples_nil hts
        rw [hd, List.append_nil] at hskip
        rw [here_skipSpace_of_nil hd]
        exact .inr ⟨rfl, .blank .nil hn (by rwa [← rest_inside, hskip])⟩
  · exact .inl (failsAtToken_negationOf _ _ _ h)

/-- Reading parts fails at a token, or at a negation of nothing. -/
theorem hollow_of_simples {f : Failure P} (h : (c.simples ns).result = .error f) :
    f.cause.OfToken ∨ f.cause = .emptySelector ∧ HollowParts ns c.rest f.place := by
  fun_induction simples ns c with
  | case1 c f hi =>
    cases h
    exact .inl (failsAtToken_item? _ _ hi)
  | case2 => cases h
  | case3 c s e hi _ ih | case4 c why e hi _ ih =>
    refine (ih (Report.map_eq_error h)).imp_right (And.imp_right fun hhollow => hhollow.prepend ?_)
    intro xs zs ss hxs hparts
    obtain ⟨vs, hvs, hmore⟩ := Item.Leads.parts_cons (hxs ▸ leads_of_item? hi) rfl hparts
    exact ⟨vs, _, hvs, hmore⟩
  | case5 c inside e hi _ _ ihInside ih =>
    obtain ⟨k, n, name, hc, hk, hn, hnot, rfl⟩ := (leads_of_item? hi).of_negation
    rw [hc]
    rcases Report.bind_eq_error h with h | ⟨s, hs, h⟩
    · exact hollow_of_argument ⟨hk, name, hn, hnot⟩ ihInside h
    · refine (ih (Report.map_eq_error h)).imp_right (And.imp_right fun hhollow => hhollow.prepend ?_)
      intro us zs ss hus hparts
      exact ⟨k :: n :: us, _, by rw [hus]; rfl, parts_of_argument hk hn hnot parts_of_simples hs hparts⟩

/-- Where the argument of a negation fails, so does the negation. -/
theorem simples_error_of_argument (hn : Negates k n) (hc : c.rest = k :: n :: ys) {f : Failure P}
    (h : (((inside n).skipSpace.simples ns).bind (inside n).skipSpace.compoundOf).result = .error f) :
    (c.simples ns).result = .error f := by
  obtain ⟨name, hname, hnot⟩ := hn.function
  have hargument := congrArg Report.result (Report.bind_of_error (f := negationOf) h)
  rw [simples_negation (item?_negation hn.colon hname hnot hc), Report.bind_of_error hargument]

/-- What fails after parts that were read fails with them in front. -/
theorem simples_append_error {ss : List Simple} (hxs : Parts ns xs ss) (hk : k.token = .colon)
    (hc : c.rest = xs ++ k :: ys) {f : Failure P}
    (h : ∀ d : Cursor P, d.rest = k :: ys → (d.simples ns).result = .error f) : (c.simples ns).result = .error f := by
  obtain ⟨d, hd, hread⟩ := simples_append hxs hc fun m hm hbar => by
    cases hm
    rw [hk] at hbar
    cases hbar
  rw [hread, h d hd]
  rfl

/-- At a negation of nothing, there is an empty selector. -/
theorem simples_of_hollow (h : HollowParts ns xs p) (hc : c.rest = xs) :
    (c.simples ns).result = .error ⟨.emptySelector, p⟩ := by
  induction h generalizing c with
  | @blank k n _ _ _ hxs hn hinside =>
    refine simples_append_error hxs hn.colon hc fun d hd => simples_error_of_argument hn hd ?_
    have hnil : (inside n).skipSpace.rest = [] := rest_skipSpace_eq_nil (by rwa [rest_inside])
    rw [simples_none (item?_nil hnil), Report.ok_bind, compoundOf, hnil, here_skipSpace_of_nil hnil]
    rfl
  | @within k n _ _ a zs _ p hxs hn hinside ha hzs ih =>
    refine simples_append_error hxs hn.colon hc fun d hd => simples_error_of_argument hn hd ?_
    obtain ⟨m, rest, rfl, hm⟩ := hzs.startsPart
    have hskip : (inside n).skipSpace.rest = m :: rest :=
      rest_skipSpace_of_blank_cons ((rest_inside n).trans hinside) ha hm.not_whitespace
    rw [Report.bind_of_error (ih hskip)]

end Cursor

/-! ## Signs at the end -/

namespace Grammar

/-- Whether there is a selector with the sign of a combinator after it, and then blanks. -/
def Dangles (ns : Namespace) (xs : List (Node P)) : Prop :=
  ∃ ys x n link b, xs = ys ++ n :: b ∧ Chain ns ys x ∧ Sign n.token link ∧ Blank (b.map Node.token)

variable {ns : Namespace} {xs ys zs : List (Node P)}

theorem Dangles.link {n : Node P} {s : Simple} {ss : List Simple} {link : Combinator} (hxs : Parts ns (n :: xs) (s :: ss))
    (hys : Link (ys.map Node.token) link) (hzs : Dangles ns zs) : Dangles ns (n :: xs ++ (ys ++ zs)) := by
  obtain ⟨us, x, m, sign, b, rfl, hx, hm, hb⟩ := hzs
  exact ⟨_, _, m, sign, b, by simp, .link hxs hys hx, hm, hb⟩

end Grammar

namespace Cursor

variable {c d : Cursor P} {ns : Namespace} {xs ys : List (Node P)} {p : P}

/-- A combinator that nothing comes after is the sign of one. -/
theorem sign_of_combinator? {link : Combinator} (h : c.combinator? = .ok (some (link, d))) (hd : d.skipSpace.rest = []) :
    ∃ a n b, c.rest = a ++ n :: b ∧ Blank (a.map Node.token) ∧ Sign n.token link ∧ Blank (b.map Node.token) := by
  obtain ⟨xs, hxs, hc⟩ := link_of_combinator? h
  rw [hd, List.append_nil] at hc
  subst hc
  generalize hts : c.rest.map Node.token = ts at hxs
  cases hxs with
  | blanks ha =>
    -- at the end, blanks are no combinator
    simp only [combinator?, token?_skipSpace_of_blank (hts ▸ ha)] at h
    cases h
  | sign ha ht hb =>
    obtain ⟨a, bs, hc, rfl, hbs⟩ := List.map_eq_append_iff.1 hts
    obtain ⟨n, b, rfl, rfl, rfl⟩ := List.map_eq_cons_iff.1 hbs
    exact ⟨a, n, b, hc, ha, ht, hb⟩

/-- Reading a complex selector fails at a token, where there is none, at a negation of nothing, or at the
sign of a combinator at the end. -/
theorem missing_of_complex {f : Failure P} (h : (c.complex ns).result = .error f) :
    f.cause.OfToken ∨ f.cause = .emptySelector ∧ (c.rest = [] ∨ HollowChain ns c.rest f.place) ∨
      f.cause = .danglingCombinator ∧ Dangles ns c.rest := by
  fun_induction complex ns c with
  | case1 c f hk =>
    cases h
    rcases Report.bind_eq_error hk with h | ⟨⟨ss, d⟩, hss, h⟩
    · rcases hollow_of_simples h with htoken | ⟨hcause, hhollow⟩
      · exact .inl htoken
      · exact .inr (.inl ⟨hcause, .inr (.compound hhollow)⟩)
    · obtain ⟨rfl, h | ⟨hd, rfl⟩⟩ := compoundOf_eq_error h
      · exact .inl h
      · obtain rfl := eq_of_simples_nil hss
        exact .inr (.inl ⟨rfl, .inl hd⟩)
  | case2 c k d hk f hd =>
    cases h
    exact .inl (failsAtToken_combinator? d _ hd)
  | case3 => cases h
  | case4 c k d hk link e hd hend =>
    cases h
    obtain ⟨xs, hc, hxs, -⟩ := parts_of_compound hk
    obtain ⟨n, us, rfl, -⟩ := hxs.startsPart
    obtain ⟨a, m, b, hrest, ha, hm, hb⟩ := sign_of_combinator? hd (List.isEmpty_iff.1 hend)
    exact .inr (.inr ⟨rfl, n :: us ++ a, _, m, link, b, by simp [hc, hrest], .subject hxs ha, hm, hb⟩)
  | case5 c k d hk link e hd hne =>
    rename_i ih
    obtain ⟨xs, hc, hxs, -⟩ := parts_of_compound hk
    obtain ⟨n, us, rfl, -⟩ := hxs.startsPart
    obtain ⟨ys, hys, hrest⟩ := link_of_combinator? hd
    rw [hc, hrest]
    rcases ih (Report.map_eq_error (r := e.skipSpace.complex ns) h) with h | ⟨hcause, hend | hhollow⟩ | ⟨hcause, hdangles⟩
    · exact .inl h
    · exact absurd (List.isEmpty_iff.2 hend) hne
    · exact .inr (.inl ⟨hcause, .inr (.link hxs hys hhollow)⟩)
    · exact .inr (.inr ⟨hcause, hdangles.link hxs hys⟩)

theorem complex_of_nil (h : c.rest = []) : (c.complex ns).result = .error ⟨.emptySelector, c.here⟩ := by
  have hcompound : (c.compound ns).result = .error ⟨.emptySelector, c.here⟩ := by
    rw [compound, simples_none (item?_nil h), Report.ok_bind, compoundOf, h]
    rfl
  exact complex_error hcompound

/-- A compound with a combinator and more after it is read before what comes then. -/
theorem complex_append {n : Node P} {zs : List (Node P)} {s : Simple} {ss : List Simple} {link : Combinator}
    (hxs : Parts ns xs (s :: ss)) (hys : Link (ys.map Node.token) link) (hn : n.token.StartsPart)
    (hc : c.rest = xs ++ (ys ++ n :: zs)) :
    ∃ (d : Cursor P) (k : Compound P), d.rest = n :: zs ∧
      (c.complex ns).result = (d.complex ns).result.map (.link k link ·) := by
  obtain ⟨d, hread, hd⟩ := compound_of_parts hxs hc (stops_of_link hys)
  obtain ⟨e, hlink, he⟩ := combinator?_of_link hys hn hd
  exact ⟨e.skipSpace, _, he, complex_link hread hlink (by rw [he]; exact List.cons_ne_nil _ _)⟩

theorem complex_of_hollow (h : HollowChain ns xs p) (hc : c.rest = xs) :
    (c.complex ns).result = .error ⟨.emptySelector, p⟩ := by
  induction h generalizing c with
  | compound hxs => exact complex_error (congrArg Report.result (Report.bind_of_error (simples_of_hollow hxs hc)))
  | link hxs hys hzs ih =>
    obtain ⟨n, zs, rfl, hn⟩ := hzs.startsPart
    obtain ⟨d, k, hd, hread⟩ := complex_append hxs hys hn hc
    rw [hread, ih hd]
    rfl

theorem complex_of_dangles (h : Dangles ns c.rest) : ∃ p, (c.complex ns).result = .error ⟨.danglingCombinator, p⟩ := by
  obtain ⟨ys, x, m, link, b, hc, hx, hm, hb⟩ := h
  induction hx generalizing c with
  | @subject n xs a s ss hxs ha =>
    rw [List.append_assoc] at hc
    obtain ⟨d, hread, hd⟩ := compound_of_parts hxs hc (stops_of_sign ha rfl hm)
    obtain ⟨e, hlink, he⟩ := combinator?_of_sign ha rfl hm hd
    exact ⟨_, complex_dangling hread hlink (List.isEmpty_iff.2 (rest_skipSpace_eq_nil (he.symm ▸ hb)))⟩
  | @link k xs ys _ _ _ _ _ hxs hys hzs ih =>
    obtain ⟨n, zs, rfl, hn⟩ := hzs.startsPart
    have hc : c.rest = k :: xs ++ (ys ++ n :: (zs ++ m :: b)) := hc.trans (by simp)
    obtain ⟨d, k, hd, hread⟩ := complex_append hxs hys hn hc
    obtain ⟨p, hp⟩ := ih hd
    exact ⟨p, by rw [hread, hp]; rfl⟩

end Cursor

end StyleSelectors
