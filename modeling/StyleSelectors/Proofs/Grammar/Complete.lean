/-
Whatever is a phrase of the grammar is read. A phrase at the front is taken off, and what comes after
it stays ahead, if no further part starts there (`Cursor.simples_of_parts`). With soundness, the
texts that are accepted are those that the grammar describes, and each gives the tree that it denotes.
-/
import StyleSelectors.Proofs.Component.Closers
import StyleSelectors.Proofs.Component.Flat
import StyleSelectors.Proofs.Component.Nested
import StyleSelectors.Proofs.Grammar.ReadBack
import StyleSelectors.Proofs.Grammar.Sound

namespace StyleSelectors

open Text Grammar

variable {P : Type}

namespace Cursor

variable {c d e : Cursor P} {ns : Namespace} {name : String}

/-! ## Moves -/

theorem rest_skipSpace_of_blank {a xs : List (Node P)} (hc : c.rest = a ++ xs) (ha : Blank (a.map Node.token))
    (hxs : ∀ n ∈ xs.head?, n.token.isWhitespace = false) : c.skipSpace.rest = xs := by
  have ha : ∀ n ∈ a, n.token.isWhitespace = true := List.forall_mem_map.1 (blank_iff.1 ha)
  rw [rest_skipSpace_eq, hc, List.dropWhile_append_of_pos ha]
  cases xs with
  | nil => rfl
  | cons n xs => rw [List.dropWhile_cons_of_neg (by simp [hxs n rfl])]

theorem rest_skipSpace_of_blank_cons {a xs : List (Node P)} {n : Node P} (hc : c.rest = a ++ n :: xs)
    (ha : Blank (a.map Node.token)) (hn : n.token.isWhitespace = false) : c.skipSpace.rest = n :: xs := by
  refine rest_skipSpace_of_blank hc ha fun m hm => ?_
  cases hm
  exact hn

theorem tokens_skipSpace_of_blank {a ts : List Token} (hc : c.rest.map Node.token = a ++ ts) (ha : Blank a)
    (hts : ∀ t ∈ ts.head?, t.isWhitespace = false) : c.skipSpace.rest.map Node.token = ts := by
  obtain ⟨as, xs, hrest, rfl, rfl⟩ := List.map_eq_append_iff.1 hc
  rw [rest_skipSpace_of_blank hrest ha]
  intro n hn
  exact hts n.token (by rw [List.head?_map, hn]; rfl)

theorem tokens_skipSpace_cons {a ts : List Token} {t : Token} (hc : c.rest.map Node.token = a ++ t :: ts)
    (ha : Blank a) (ht : t.isWhitespace = false) : c.skipSpace.rest.map Node.token = t :: ts :=
  tokens_skipSpace_of_blank hc ha fun u hu => by cases hu; exact ht

theorem rest_skipSpace_eq_nil (h : Blank (c.rest.map Node.token)) : c.skipSpace.rest = [] :=
  rest_skipSpace_of_blank (List.append_nil _).symm h nofun

theorem token?_skipSpace_of_blank (h : Blank (c.rest.map Node.token)) : c.skipSpace.token? = none :=
  token?_nil (rest_skipSpace_eq_nil h)

/-! ## Attributes -/

theorem attributeName_complete {ts us : List Token} (h : AttributeName ts ns name)
    (hc : c.rest.map Node.token = ts ++ us) (hus : us.head? ≠ some (.delim '|')) :
    ∃ d, c.attributeName = .ok ((ns, name), d) ∧ d.rest.map Node.token = us := by
  cases h with
  | plain =>
    have hc : c.rest.map Node.token = Namespace.absent.tokens .absent ++ .ident name :: us := hc
    exact attributeName_of_tokens hc hus
  | prefixed h =>
    cases h with
    | any =>
      have hc : c.rest.map Node.token = Namespace.any.tokens .absent ++ .ident name :: us := hc
      exact attributeName_of_tokens hc hus
    | named label =>
      have hc : c.rest.map Node.token = (Namespace.named label).tokens .absent ++ .ident name :: us := hc
      exact attributeName_of_tokens hc hus
    | absent =>
      have hc : c.rest.map Node.token = .delim '|' :: .ident name :: us := hc
      have hname := next_of_tokens hc
      refine ⟨c.next.next, ?_, next_of_tokens hname⟩
      simp only [attributeName, token?_of_tokens hc, localName_of_tokens hname]
      rfl

theorem valueTest?_of_operator {t : Token} {test : String → ValueTest} (h : Operator t test) :
    valueTest? t = some test := by
  cases h <;> rfl

theorem operand_complete {a ts : List Token} {t : Token} {value : String} (ha : Blank a) (ht : Operand t value)
    (hc : c.rest.map Node.token = a ++ t :: ts) : ∃ d, c.operand = .ok (value, d) ∧ d.rest.map Node.token = ts := by
  have hskip := tokens_skipSpace_cons hc ha (by cases ht <;> rfl)
  refine ⟨c.skipSpace.next, ?_, next_of_tokens hskip⟩
  cases ht <;> simp only [operand, token?_of_tokens hskip]

theorem flags_of_blank (h : Blank (c.rest.map Node.token)) : c.flags = (false, c) := by
  simp only [flags, token?_skipSpace_of_blank h]

theorem flags_of_ident {a ts : List Token} {flag : String} (ha : Blank a)
    (hc : c.rest.map Node.token = a ++ .ident flag :: ts) :
    ∃ d, c.flags = (true, d) ∧ d.rest.map Node.token = ts := by
  have hskip := tokens_skipSpace_cons hc ha rfl
  exact ⟨c.skipSpace.next, by simp only [flags, token?_of_tokens hskip], next_of_tokens hskip⟩

theorem expectEnd_of_blank (h : Blank (c.rest.map Node.token)) : c.expectEnd = .ok () := by
  simp only [expectEnd, token?_skipSpace_of_blank h]

theorem not_whitespace_of_attributeName {ts us : List Token} (h : AttributeName ts ns name) :
    ∀ t ∈ (ts ++ us).head?, t.isWhitespace = false := by
  intro t ht
  cases h with
  | plain => cases ht; rfl
  | prefixed h => cases h <;> (cases ht; rfl)

theorem head?_ne_bar_of_blank {a ts : List Token} (ha : Blank a) (hts : ts.head? ≠ some (.delim '|')) :
    (a ++ ts).head? ≠ some (.delim '|') := by
  cases a with
  | nil => exact hts
  | cons t a =>
    rintro ⟨⟩
    cases blank_iff.1 ha (.delim '|') (List.mem_cons_self ..)

theorem attributeSelector_of_test {f : Cursor P} {op : Token} {test : String → ValueTest} {value : String}
    {flagged : Bool} (hname : c.skipSpace.attributeName = .ok ((ns, name), d)) (htoken : d.skipSpace.token? = some op)
    (hop : Operator op test) (hoperand : d.skipSpace.next.operand = .ok (value, e)) (hflags : e.flags = (flagged, f))
    (hend : Blank (f.rest.map Node.token)) : c.attributeSelector = .ok (⟨ns, name, test value⟩, flagged) := by
  simp only [attributeSelector, hname, htoken, valueTest?_of_operator hop, hoperand, hflags, expectEnd_of_blank hend,
    bind, Except.bind]
  rfl

/-- A name, an operator and an operand are read, with flags or without. -/
theorem attributeSelector_of_tail {a xs b cs tail : List Token} {op operand : Token} {test : String → ValueTest}
    {value : String} {flagged : Bool} (ha : Blank a) (hname : AttributeName xs ns name) (hb : Blank b)
    (hop : Operator op test) (hcs : Blank cs) (hoperand : Operand operand value)
    (htail : ∀ e : Cursor P, e.rest.map Node.token = tail →
      ∃ f, e.flags = (flagged, f) ∧ Blank (f.rest.map Node.token))
    (hc : c.rest.map Node.token = a ++ xs ++ (b ++ op :: (cs ++ operand :: tail))) :
    c.attributeSelector = .ok (⟨ns, name, test value⟩, flagged) := by
  have hopToken : op.isWhitespace = false ∧ op ≠ .delim '|' := by cases hop <;> exact ⟨rfl, nofun⟩
  rw [List.append_assoc] at hc
  have hskip := tokens_skipSpace_of_blank hc ha (not_whitespace_of_attributeName hname)
  have hbar : (b ++ op :: (cs ++ operand :: tail)).head? ≠ some (.delim '|') :=
    head?_ne_bar_of_blank hb (by simpa using hopToken.2)
  obtain ⟨d, hread, hd⟩ := attributeName_complete hname hskip hbar
  have hskip := tokens_skipSpace_cons hd hb hopToken.1
  obtain ⟨e, hvalue, he⟩ := operand_complete hcs hoperand (next_of_tokens hskip)
  obtain ⟨f, hflags, hend⟩ := htail e he
  exact attributeSelector_of_test hread (token?_of_tokens hskip) hop hvalue hflags hend

/-- Whatever stands between brackets as the grammar has it is read. -/
theorem attributeSelector_complete {a : AttributeSelector} {flagged : Bool}
    (h : AttributeBody (c.rest.map Node.token) a flagged) : c.attributeSelector = .ok (a, flagged) := by
  generalize hc : c.rest.map Node.token = ts at h
  cases h with
  | @present _ _ b _ _ ha hname hb =>
    rw [List.append_assoc] at hc
    have hskip := tokens_skipSpace_of_blank hc ha (not_whitespace_of_attributeName hname)
    have hbar : b.head? ≠ some (.delim '|') := by
      rw [← List.append_nil b]
      exact head?_ne_bar_of_blank hb nofun
    obtain ⟨d, hread, rfl⟩ := attributeName_complete hname hskip hbar
    simp only [attributeSelector, hread, token?_skipSpace_of_blank hb, bind, Except.bind]
    rfl
  | test ha hname hb hop hcs hoperand hd =>
    refine attributeSelector_of_tail ha hname hb hop hcs hoperand (fun e he => ?_) hc
    rw [← he] at hd
    exact ⟨e, flags_of_blank hd, hd⟩
  | flagged ha hname hb hop hcs hoperand hd flag he =>
    refine attributeSelector_of_tail ha hname hb hop hcs hoperand (fun e hrest => ?_) hc
    obtain ⟨f, hflags, rfl⟩ := flags_of_ident hd hrest
    exact ⟨f, hflags, he⟩

/-! ## Parts -/

variable {ms : Namespace} {s : Simple} {xs ys : List (Node P)}

/-- Whether the part right ahead is read, stands for `s`, and leaves `ys` ahead. -/
def TakesPart (ns : Namespace) (c : Cursor P) (s : Simple) (ys : List (Node P)) : Prop :=
  ∃ i d, c.item? ns = .ok (some (i, d)) ∧ i.simple? = some s ∧ d.rest = ys

/-- After a prefix, what comes next is read in its namespace. -/
theorem item?_of_prefix (ms : Namespace) {ts : List Token} (h : Prefix ts ns) (hxs : xs.map Node.token = ts)
    (hc : c.rest = xs ++ ys) :
    ∃ d : Cursor P, c.item? ms = (d.qualified ns).map some ∧ d.rest = ys := by
  cases h with
  | absent =>
    obtain ⟨n, rfl, hn⟩ := List.map_eq_singleton_iff.1 hxs
    exact ⟨c.next, item?_bar hc hn, rest_next hc⟩
  | named label =>
    obtain ⟨n, b, rfl, hn, hb⟩ := Node.pair_of_tokens hxs
    have hnext := rest_next hc
    exact ⟨c.next.next, by rw [item?_ident hc hn, typeAfter_bar hnext hb], rest_next hnext⟩
  | any =>
    obtain ⟨n, b, rfl, hn, hb⟩ := Node.pair_of_tokens hxs
    have hnext := rest_next hc
    exact ⟨c.next.next, by rw [item?_star hc hn, typeAfter_bar hnext hb], rest_next hnext⟩

theorem takesPart_prefixed (name : String) {ts : List Token} {t : Token} (h : Prefix ts ns)
    (hxs : xs.map Node.token = ts ++ [t]) (hc : c.rest = xs ++ ys) (ht : t = .ident name ∧ s = .type ⟨ns, name⟩ ∨
      t = .delim '*' ∧ s = if ns = .any then .universal else .nothing) : c.TakesPart ms s ys := by
  obtain ⟨as, bs, rfl, has, hbs⟩ := List.map_eq_append_iff.1 hxs
  obtain ⟨m, rfl, hm⟩ := List.map_eq_singleton_iff.1 hbs
  obtain ⟨d, hitem, hd⟩ := item?_of_prefix ms h has (hc.trans (List.append_assoc ..))
  rcases ht with ⟨rfl, rfl⟩ | ⟨rfl, rfl⟩
  · exact ⟨_, d.next, by rw [hitem, qualified_ident hd hm]; rfl, rfl, rest_next hd⟩
  · refine ⟨if ns = .any then .simple .universal else .unsupported (.universalIn ns), d.next, ?_, ?_, rest_next hd⟩
    · rw [hitem, qualified, token?_cons hd, hm]
      rfl
    · split <;> rfl

theorem takesPart_colon {k : Node P} {zs : List (Node P)} (hk : k.token = .colon) (hc : c.rest = k :: zs) {i : Item P}
    (h : c.next.pseudo = .ok (i, d)) (hi : i.simple? = some s) (hd : d.rest = ys) : c.TakesPart ns s ys :=
  ⟨i, d, by rw [item?_colon hc hk, h]; rfl, hi, hd⟩

theorem pseudo_second_colon {j : Node P} {zs : List (Node P)} (hc : c.rest = j :: zs) (hj : j.token = .colon) :
    c.pseudo = c.next.pseudoElement := by
  simp only [pseudo, hc, hj]

/-- Every part is read. -/
theorem takesPart_of_part (ms : Namespace) (h : Part xs s) (hc : c.rest = xs ++ ys) : c.TakesPart ms s ys := by
  cases h with
  | type hns name hxs => exact takesPart_prefixed name hns hxs hc (.inl ⟨rfl, rfl⟩)
  | universal hns hxs => exact takesPart_prefixed "" hns hxs hc (.inr ⟨rfl, rfl⟩)
  | id name hn => exact ⟨_, c.next, item?_idHash hc hn, rfl, rest_next hc⟩
  | className name hxs =>
    obtain ⟨n, m, rfl, hn, hm⟩ := Node.pair_of_tokens hxs
    have hnext := rest_next hc
    exact ⟨_, c.next.next, by rw [item?_point hc hn, localName_ident hnext hm]; rfl, rfl, rest_next hnext⟩
  | @attr n a flagged hn hbody =>
    rw [← rest_inside] at hbody
    refine ⟨_, c.next, by rw [item?_square hc hn, attributeSelector_complete hbody]; rfl, ?_, rest_next hc⟩
    cases flagged <;> rfl
  | pseudoClass name hxs =>
    obtain ⟨k, n, rfl, hk, hn⟩ := Node.pair_of_tokens hxs
    have hnext : c.next.rest = n :: ys := rest_next hc
    rw [toLower_eq_lower]
    by_cases hlegacy : lower name ∈ legacyNames
    · refine takesPart_colon hk hc (i := .unsupported (.legacyPseudoElement (lower name))) ?_ ?_ (rest_next hnext)
      · simp only [pseudo, hnext, hn]
        rw [if_pos ((contains_legacyPseudoElements_iff _).2 hlegacy)]
      · rw [if_pos hlegacy]
        rfl
    · refine takesPart_colon hk hc (i := .simple (.pseudoClass (lower name))) ?_ ?_ (rest_next hnext)
      · simp only [pseudo, hnext, hn]
        rw [if_neg fun h => hlegacy ((contains_legacyPseudoElements_iff _).1 h)]
      · rw [if_neg hlegacy]
        rfl
  | @function k n name arguments hk hn hnot harguments =>
    have hnext : c.next.rest = n :: ys := rest_next hc
    rw [toLower_eq_lower]
    refine takesPart_colon hk hc (i := .simple (.function (lower name) arguments)) ?_ rfl (rest_next hnext)
    simp only [pseudo, hnext, hn, arguments_of_trimmed harguments]
    rw [if_neg fun h => hnot ((sameIgnoringCase_not_iff name).1 h)]
  | pseudoElement name hxs =>
    obtain ⟨k, j, n, rfl, hk, hj, hn⟩ := Node.triple_of_tokens hxs
    have hnext : c.next.rest = j :: n :: ys := rest_next hc
    have hlast := rest_next hnext
    refine takesPart_colon hk hc (i := .unsupported (.pseudoElement name)) ?_ rfl (rest_next hlast)
    simp only [pseudo_second_colon hnext hj, pseudoElement, token?_cons hlast, hn]
  | pseudoElementFunction name hxs =>
    obtain ⟨k, j, n, rfl, hk, hj, hn⟩ := Node.triple_of_tokens hxs
    have hnext : c.next.rest = j :: n :: ys := rest_next hc
    have hlast := rest_next hnext
    refine takesPart_colon hk hc (i := .unsupported (.pseudoElementFunction name)) ?_ rfl (rest_next hlast)
    simp only [pseudo_second_colon hnext hj, pseudoElement, token?_cons hlast, hn]

theorem takesPart_of_bare {n : Node P} (hn : Bare ns n.token s) (hbar : NoBar ys) (hc : c.rest = n :: ys) :
    c.TakesPart ns s ys := by
  have hnext := rest_next hc
  have htype {ms : Namespace} {written : Simple} : c.next.typeAfter ms written = .ok (.simple written, c.next) :=
    typeAfter_of_ne (by rw [hnext]; exact hbar)
  generalize ht : n.token = t at hn
  cases hn with
  | type name => exact ⟨_, c.next, by rw [item?_ident hc ht, htype]; rfl, rfl, hnext⟩
  | universal => exact ⟨_, c.next, by rw [item?_star hc ht, htype]; rfl, rfl, hnext⟩

/-! ## Compounds -/

/-- A part that stands for something comes before those after it. -/
theorem simples_of_takesPart (h : c.TakesPart ns s ys) :
    ∃ d : Cursor P, d.rest = ys ∧
      (c.simples ns).result = (d.simples ns).result.map fun (rest, e) => (s :: rest, e) := by
  obtain ⟨i, d, hitem, hi, hd⟩ := h
  refine ⟨d, hd, ?_⟩
  cases i with
  | simple t =>
    cases hi
    rw [simples_simple hitem]
    rfl
  | unsupported why =>
    cases hi
    rw [simples_unsupported hitem]
    rfl
  | negation inside => cases hi

theorem negationOf_complete {place : P} {t : Simple} {ts : List Simple} (h : Blank (d.rest.map Node.token)) :
    (negationOf (⟨place, t, ts⟩, d)).result = .ok (negated (t :: ts)) := by
  have hskip : Blank (d.skipSpace.rest.map Node.token) := by
    rw [rest_skipSpace_eq_nil h]
    exact nofun
  simp only [negationOf, expectEnd_of_blank hskip]
  cases ts with
  | nil =>
    rw [if_neg (by simp), negated]
    split <;> rfl
  | cons u ts => rfl

theorem item?_negation {k n : Node P} {name : String} (hk : k.token = .colon) (hn : n.token = .function name)
    (hnot : name.toLower = "not") (hc : c.rest = k :: n :: ys) :
    c.item? ns = .ok (some (.negation (inside n).skipSpace, c.next.next)) := by
  have hnext := rest_next hc
  rw [item?_colon hc hk]
  simp only [pseudo, hnext, hn]
  rw [if_pos ((sameIgnoringCase_not_iff name).2 hnot)]
  rfl

theorem simples_of_negation {inside : Cursor P} (h : c.item? ns = .ok (some (.negation inside, d))) {t : Simple}
    {ts : List Simple} (hinside : (inside.simples ns).result = .ok (t :: ts, e)) (he : Blank (e.rest.map Node.token)) :
    (c.simples ns).result = (d.simples ns).result.map fun (rest, f) => (negated (t :: ts) :: rest, f) := by
  have hcompound : ((inside.simples ns).bind inside.compoundOf).result = .ok (⟨inside.here, t, ts⟩, e) :=
    Report.bind_ok hinside
  have hnegated : (((inside.simples ns).bind inside.compoundOf).bind negationOf).result = .ok (negated (t :: ts)) :=
    (Report.bind_ok hcompound).trans (negationOf_complete he)
  rw [simples_negation h, Report.bind_ok hnegated]
  rfl

theorem noBar_append (hxs : NoBar xs) (hys : NoBar ys) : NoBar (xs ++ ys) := by
  cases xs with
  | cons n xs => exact hxs
  | nil => exact hys

theorem Stops.noBar (h : Stops ys) : NoBar ys := by
  intro n hn hbar
  rcases h n hn with h | h | h | h <;> (rw [hbar] at h; cases h)

theorem stops_of_blank {b : List (Node P)} (h : Blank (b.map Node.token)) : Stops b := by
  cases b with
  | nil => exact nofun
  | cons n b =>
    intro m hm
    cases hm
    exact .inl (blank_iff.1 h n.token (List.mem_cons_self ..))

/-- Parts that are read before no further part starts are all the parts. -/
theorem simples_of_append {ss : List Simple} (hd : Stops d.rest)
    (h : (c.simples ns).result = (d.simples ns).result.map fun (rest, e) => (ss ++ rest, e)) :
    (c.simples ns).result = .ok (ss, d) := by
  rw [h, simples_none (item?_of_stops hd)]
  exact congrArg (fun rest => Except.ok (rest, d)) (List.append_nil ss)

theorem map_append_simples {x : Except (Failure P) (List Simple × Cursor P)} (ss : List Simple) :
    (x.map fun (rest, e) => (ss ++ rest, e)).map (fun (rest, e) => (s :: rest, e)) =
      x.map fun (rest, e) => (s :: ss ++ rest, e) := by
  cases x <;> rfl

/-- Parts at the front are read, and then what comes after them, if this does not go on with a name. -/
theorem simples_append {ss : List Simple} (h : Parts ns xs ss) (hc : c.rest = xs ++ ys) (hys : NoBar ys) :
    ∃ d : Cursor P, d.rest = ys ∧
      (c.simples ns).result = (d.simples ns).result.map fun (rest, e) => (ss ++ rest, e) := by
  induction h generalizing c ys with
  | nil => exact ⟨c, hc, by cases (c.simples ns).result <;> rfl⟩
  | bare hn hbar hxs ih =>
    obtain ⟨d, hd, hcons⟩ := simples_of_takesPart (takesPart_of_bare hn (noBar_append hbar hys) hc)
    obtain ⟨e, he, hread⟩ := ih hd hys
    exact ⟨e, he, by rw [hcons, hread, map_append_simples]⟩
  | part hpart hxs ih =>
    obtain ⟨d, hd, hcons⟩ := simples_of_takesPart (takesPart_of_part ns hpart (hc.trans (List.append_assoc ..)))
    obtain ⟨e, he, hread⟩ := ih hd hys
    exact ⟨e, he, by rw [hcons, hread, map_append_simples]⟩
  | @negation k n _ a xs b _ _ _ _ hk hn hnot hinside ha hxs hb _ ihInside ih =>
    obtain ⟨m, rest, rfl, hm⟩ := hxs.startsPart
    have hskip : (inside n).skipSpace.rest = m :: rest ++ b :=
      rest_skipSpace_of_blank_cons ((rest_inside n).trans (hinside.trans (List.append_assoc ..))) ha hm.not_whitespace
    have hstops := stops_of_blank hb
    obtain ⟨d, rfl, hargument⟩ := ihInside hskip hstops.noBar
    have hcons := simples_of_negation (item?_negation hk hn hnot hc) (simples_of_append hstops hargument) hb
    obtain ⟨e, he, hread⟩ := ih (rest_next (rest_next hc)) hys
    exact ⟨e, he, by rw [hcons, hread, map_append_simples]⟩

/-- Parts at the front are read, up to where no further part starts. -/
theorem simples_of_parts {ss : List Simple} (h : Parts ns xs ss) (hc : c.rest = xs ++ ys) (hys : Stops ys) :
    ∃ d : Cursor P, (c.simples ns).result = .ok (ss, d) ∧ d.rest = ys := by
  obtain ⟨d, rfl, hread⟩ := simples_append h hc hys.noBar
  exact ⟨d, simples_of_append hys hread, rfl⟩

theorem compound_of_parts {ss : List Simple} (h : Parts ns xs (s :: ss)) (hc : c.rest = xs ++ ys) (hys : Stops ys) :
    ∃ d : Cursor P, (c.compound ns).result = .ok (⟨c.here, s, ss⟩, d) ∧ d.rest = ys := by
  obtain ⟨d, hread, hd⟩ := simples_of_parts h hc hys
  exact ⟨d, Report.bind_ok hread, hd⟩

/-! ## Chains -/

theorem combinatorOf?_of_sign {t : Token} {link : Combinator} (h : Sign t link) : combinatorOf? t = some link := by
  cases h <;> rfl

theorem not_whitespace_of_sign {t : Token} {link : Combinator} (h : Sign t link) : t.isWhitespace = false := by
  cases h <;> rfl

theorem stops_of_sign {t : Token} {link : Combinator} {a zs : List (Node P)} {m : Node P}
    (ha : Blank (a.map Node.token)) (hm : m.token = t) (ht : Sign t link) : Stops (a ++ m :: zs) := by
  cases a with
  | nil =>
    intro u hu
    cases hu
    rw [hm]
    cases ht with
    | child => exact .inr (.inl rfl)
    | adjacentSibling => exact .inr (.inr (.inl rfl))
    | generalSibling => exact .inr (.inr (.inr rfl))
  | cons u a =>
    intro v hv
    cases hv
    exact .inl (blank_iff.1 ha u.token (List.mem_cons_self ..))

/-- Nodes between two compounds are blanks, or a sign between blanks. -/
theorem nodes_of_link {link : Combinator} (h : Link (ys.map Node.token) link) :
    (∃ n rest, ys = n :: rest ∧ Blank ((n :: rest).map Node.token) ∧ link = .descendant) ∨
      ∃ a m b, ys = a ++ m :: b ∧ Blank (a.map Node.token) ∧ Sign m.token link ∧ Blank (b.map Node.token) := by
  generalize hts : ys.map Node.token = ts at h
  cases h with
  | blanks ha hne =>
    obtain ⟨t, ts, rfl⟩ := List.exists_cons_of_ne_nil hne
    obtain ⟨n, rest, rfl, rfl, rfl⟩ := List.map_eq_cons_iff.1 hts
    exact .inl ⟨n, rest, rfl, ha, rfl⟩
  | sign ha ht hb =>
    obtain ⟨as, bs, rfl, rfl, hbs⟩ := List.map_eq_append_iff.1 hts
    obtain ⟨m, bs, rfl, rfl, rfl⟩ := List.map_eq_cons_iff.1 hbs
    exact .inr ⟨as, m, bs, rfl, ha, ht, hb⟩

theorem stops_of_link {link : Combinator} {zs : List (Node P)} (h : Link (ys.map Node.token) link) :
    Stops (ys ++ zs) := by
  obtain ⟨n, rest, rfl, hblank, -⟩ | ⟨a, m, b, rfl, ha, ht, -⟩ := nodes_of_link h
  · intro m hm
    cases hm
    exact .inl (blank_iff.1 hblank n.token (List.mem_cons_self ..))
  · rw [List.append_assoc]
    exact stops_of_sign ha rfl ht

/-- The sign of a combinator is read, and the blanks in front of it. -/
theorem combinator?_of_sign {t : Token} {link : Combinator} {a zs : List (Node P)} {m : Node P}
    (ha : Blank (a.map Node.token)) (hm : m.token = t) (ht : Sign t link) (hc : c.rest = a ++ m :: zs) :
    ∃ d, c.combinator? = .ok (some (link, d)) ∧ d.rest = zs := by
  have hskip : c.skipSpace.rest = m :: zs :=
    rest_skipSpace_of_blank_cons hc ha (by rw [hm]; exact not_whitespace_of_sign ht)
  refine ⟨c.skipSpace.next, ?_, rest_next hskip⟩
  simp only [combinator?, token?_cons hskip, hm, combinatorOf?_of_sign ht]

/-- What stands between two compounds is read, up to where the second starts. -/
theorem combinator?_of_link {link : Combinator} {n : Node P} {zs : List (Node P)}
    (h : Link (ys.map Node.token) link) (hn : n.token.StartsPart) (hc : c.rest = ys ++ n :: zs) :
    ∃ d, c.combinator? = .ok (some (link, d)) ∧ d.skipSpace.rest = n :: zs := by
  have hbegins := begins_of_startsPart hn
  obtain ⟨m, rest, rfl, hblank, rfl⟩ | ⟨a, m, b, rfl, ha, ht, hb⟩ := nodes_of_link h
  · have hskip := rest_skipSpace_of_blank_cons hc hblank hbegins.1
    refine ⟨c.skipSpace, ?_, rest_skipSpace hskip hbegins.1⟩
    have hm : m.token.isWhitespace = true := blank_iff.1 hblank m.token (List.mem_cons_self ..)
    simp only [combinator?, token?_cons hskip, hbegins.2, token?_cons hc, Option.any_some, hm]
    rfl
  · obtain ⟨d, hread, hd⟩ := combinator?_of_sign ha rfl ht (hc.trans (List.append_assoc ..))
    exact ⟨d, hread, rest_skipSpace_of_blank_cons hd hb hbegins.1⟩

/-- A whole chain is read. -/
theorem complex_of_chain {x : Complex P} (h : Chain ns xs x) (hc : c.rest = xs) (hstart : c.AtStart) :
    (c.complex ns).result = .ok x := by
  induction h generalizing c with
  | @subject n xs b s ss hxs hb =>
    obtain ⟨d, hread, rfl⟩ := compound_of_parts hxs hc (stops_of_blank hb)
    rw [hstart n (by rw [hc]; rfl)] at hread
    refine complex_subject hread ?_
    simp only [combinator?, token?_skipSpace_of_blank hb]
  | @link n xs ys zs s ss link x hxs hys hzs ih =>
    obtain ⟨d, hread, hd⟩ := compound_of_parts hxs hc (stops_of_link hys)
    rw [hstart n (by rw [hc]; rfl)] at hread
    obtain ⟨m, rest, rfl, hm⟩ := hzs.startsPart
    obtain ⟨e, hlink, he⟩ := combinator?_of_link hys hm hd
    rw [complex_link hread hlink (by rw [he]; exact List.cons_ne_nil _ _), ih he e.atStart_skipSpace]
    rfl

/-- What denotes a tree is read, and gives this tree. -/
theorem selector_of_denotes {locate : P → Locator} {s : Selector} (h : Denotes ns locate c.rest s) :
    (c.selector locate ns).result = .ok s := by
  obtain ⟨a, ys, x, hc, ha, hys, rfl⟩ := h
  obtain ⟨n, rest, rfl, hn⟩ := hys.startsPart
  have hskip := rest_skipSpace_of_blank_cons hc ha hn.not_whitespace
  exact (Report.bind_ok (complex_of_chain hys hskip c.atStart_skipSpace)).trans (x.result_selector locate)

end Cursor

theorem Selector.parse_result (text : String) :
    (Selector.parse text).result =
      ((Cursor.ofChars text.toList).selector (Options.locate {}) .any).result.mapError
        (Failure.toError {} text.toList) :=
  rfl

/-- A text is accepted as the grammar has it, and gives the tree that it denotes. What the grammar is about
are the nodes of the text, block by block: they stand for its tokens without the comments, and with what
closes the blocks that are open at the end. -/
theorem Selector.parse_eq_ok_iff_denotes (text : String) (s : Selector) :
    (∃ cs, Component.Reads none (Lexeme.ofChars text.toList) cs [] ∧ Component.chars cs = text.toList ∧
        Node.Mirrors cs (Cursor.ofChars text.toList).rest) ∧
      Node.tokensOf (Cursor.ofChars text.toList).rest =
        ((Token.ofChars text.toList ++ (Token.unclosed (Token.ofChars text.toList)).map Token.closing).filter
          fun t => !t.isComment) ∧
      ((Selector.parse text).result = .ok s ↔
        Denotes .any (Options.told {}) (Cursor.ofChars text.toList).rest s) := by
  refine ⟨⟨Component.ofChars text.toList, ?_, ?_, ?_⟩, ?_, ?_, ?_⟩
  · exact Component.ofLexemes_eq_iff.1 rfl
  · exact Component.chars_ofChars text.toList
  · exact Node.mirrors_ofComponents .start _
  · rw [Node.tokensOf_ofChars, Component.tokensOf_ofChars]
  · intro h
    exact Cursor.denotes_of_selector (Report.result_of_toParsed h)
  · intro h
    rw [parse_result, Options.locate_eq_told, Cursor.selector_of_denotes h]
    rfl

end StyleSelectors
