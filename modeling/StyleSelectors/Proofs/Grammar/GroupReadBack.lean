/-
Reading back whole groups. No part of a selector is a comma, so a printed group falls apart into its
members, and reading it comes down to reading each of them: `Group.parse_css` gives the members read
back, and `Group.parse_css_of_closesMarkup` a failure.
-/
import StyleSelectors.Grammar.Parser
import StyleSelectors.Proofs.Grammar.ReadBack

namespace StyleSelectors

open Text

variable {P : Type}

/-! ## Commas -/

theorem Simple.comma_not_mem_tokens {s : Simple} (h : s.isFlat = true) : Token.comma ∉ s.tokens := by
  cases s with
  | universal | id _ | className _ | pseudoClass _ => simp [tokens]
  | type t =>
    obtain ⟨ns, name⟩ := t
    cases ns <;> simp [tokens, TypeName.tokens, Namespace.tokens]
  | _ => cases h

theorem ne_comma_of_tokens {ns : List (Node P)} (h : Token.comma ∉ ns.map Node.token) :
    ∀ n ∈ ns, n.token ≠ .comma := by
  intro n hn hcomma
  apply h
  rw [← hcomma]
  exact List.mem_map_of_mem hn

/-- No part of a selector is a comma. -/
theorem Simple.Spelt.ne_comma {s : Simple} {ns : List (Node P)} (h : s.Spelt ns) : ∀ n ∈ ns, n.token ≠ .comma := by
  apply ne_comma_of_tokens
  cases s with
  | function _ _ | negation _ | nothing =>
    obtain ⟨c, m, rfl, hc, hm, -⟩ := h
    simp [hc, hm]
  | attr a =>
    obtain ⟨m, rfl, hm, -⟩ := h
    simp [hm]
  | universal | id _ | className _ | pseudoClass _ | type _ =>
    rw [show ns.map Node.token = _ from h]
    exact comma_not_mem_tokens rfl

theorem Selector.Spelt.ne_comma {s : Selector} {ns : List (Node P)} (h : s.Spelt ns) :
    ∀ n ∈ ns, n.token ≠ .comma := by
  induction s generalizing ns with
  | simple s => exact Simple.Spelt.ne_comma h
  | both first second _ ih =>
    obtain ⟨xs, ys, rfl, hfirst, hsecond⟩ := h
    exact List.forall_mem_append.2 ⟨hfirst.ne_comma, ih hsecond⟩
  | related link first second _ ih =>
    obtain ⟨xs, n, ys, rfl, hsecond, h⟩ := h
    refine List.forall_mem_append.2 ⟨?_, List.forall_mem_cons.2 ⟨?_, ih hsecond⟩⟩
    · split at h
      · next hdashed =>
        have hflat := Simple.isFlat_of_dashed (Bool.and_eq_true_iff.1 hdashed).2
        apply ne_comma_of_tokens
        rw [h.1]
        exact fun hmem => Simple.comma_not_mem_tokens hflat (List.dropLast_subset _ hmem)
      · exact h.1.ne_comma
    · split at h
      · rw [h.2]
        exact nofun
      · rw [h.2]
        cases link <;> exact nofun

namespace Cursor

/-- What stands before the first comma belongs to the first stretch. -/
theorem pieces_append {xs : List (Node P)} (h : ∀ n ∈ xs, n.token ≠ .comma) (here stop : P) (ys : List (Node P)) :
    pieces here stop (xs ++ ys) =
      ({ (pieces here stop ys).1 with rest := xs ++ (pieces here stop ys).1.rest }, (pieces here stop ys).2) := by
  induction xs with
  | nil => rfl
  | cons n xs ih =>
    obtain ⟨hn, hxs⟩ := List.forall_mem_cons.1 h
    rw [List.cons_append, pieces]
    split
    · next hcomma => exact absurd hcomma hn
    · rw [ih hxs]
      rfl

theorem pieces_more {ss : List Selector} {ys : List (Node P)} (h : Group.SpeltMore ss ys) (here stop : P) :
    (pieces here stop ys).1.rest = [] := by
  cases ss with
  | nil =>
    cases h
    rfl
  | cons s ss =>
    obtain ⟨m, w, xs, zs, rfl, hm, -⟩ := h
    rw [pieces, hm]

section Members

variable (locate : P → Locator)

theorem selector_of_spelt {s : Selector} (h : s.Legible) (hlayered : s.isLayered = true)
    (hopen : s.closesMarkup = false) {c : Cursor P} (hs : s.Spelt c.skipSpace.rest) :
    ∃ t, (c.selector locate .any).result = .ok t ∧ t.erase = s.reread := by
  obtain ⟨x, hx, htree⟩ := readsTree_of_spelt h hlayered hopen hs
  obtain ⟨t, ht, herase⟩ := htree locate
  refine ⟨t, ?_, herase⟩
  rw [selector, Report.bind_ok hx, Complex.selector, ht]
  rfl

theorem selector_of_closesMarkup {s : Selector} (h : s.Legible) (hlayered : s.isLayered = true)
    (hclose : s.closesMarkup = true) {c : Cursor P} (hs : s.Spelt c.skipSpace.rest) :
    ∃ f, (c.selector locate .any).result = .error f :=
  Report.bind_error (.inl (complex_of_closesMarkup h hlayered hclose hs))

/-- The members after the first: what the stretches between commas are. -/
theorem selectors_more {s : Selector} {ss : List Selector} {ys : List (Node P)}
    (hs : Group.SpeltMore (s :: ss) ys) (here stop : P) :
    ∃ (c : Cursor P) (there : P) (zs : List (Node P)), s.Spelt c.skipSpace.rest ∧ Group.SpeltMore ss zs ∧
      selectors locate .any (pieces here stop ys).2 =
        (c.selector locate .any).bind fun t =>
          (selectors locate .any (pieces there stop zs).2).map (t :: ·) := by
  obtain ⟨m, w, xs, zs, rfl, hm, hw, hxs, hzs⟩ := hs
  have hcomma : ∀ n ∈ w :: xs, n.token ≠ .comma := by
    refine List.forall_mem_cons.2 ⟨?_, hxs.ne_comma⟩
    rw [hw]
    exact nofun
  have hpieces := pieces_append hcomma m.finish stop zs
  have hothers := congrArg Prod.snd hpieces
  have hrest : (pieces m.finish stop (w :: xs ++ zs)).1.rest = w :: xs := by
    rw [hpieces, pieces_more hzs, List.append_nil]
  -- of what is between two commas, the blank before a member is skipped
  obtain ⟨k, ks, rfl, hk⟩ := hxs.begins
  have hskip : (pieces m.finish stop (w :: k :: ks ++ zs)).1.skipSpace.rest = k :: ks :=
    rest_skipSpace_cons hrest (by rw [hw]; rfl) fun n hn => by cases hn; exact hk.1
  refine ⟨(pieces m.finish stop (w :: k :: ks ++ zs)).1, m.finish, zs, by rw [hskip]; exact hxs, hzs, ?_⟩
  rw [pieces, hm, ← hothers]
  rfl

theorem selectors_of_spelt {ss : List Selector} (h : ∀ s ∈ ss, s.Legible)
    (hlayered : ∀ s ∈ ss, s.isLayered = true) (hopen : ∀ s ∈ ss, s.closesMarkup = false) {ys : List (Node P)}
    (hs : Group.SpeltMore ss ys) (here stop : P) :
    ∃ ts, (selectors locate .any (pieces here stop ys).2).result = .ok ts ∧
      ts.map Selector.erase = ss.map Selector.reread := by
  induction ss generalizing ys here with
  | nil =>
    cases hs
    exact ⟨[], rfl, rfl⟩
  | cons s ss ih =>
    obtain ⟨h, hmore⟩ := List.forall_mem_cons.1 h
    obtain ⟨hlayered, hlayeredMore⟩ := List.forall_mem_cons.1 hlayered
    obtain ⟨hopen, hopenMore⟩ := List.forall_mem_cons.1 hopen
    obtain ⟨c, there, zs, hc, hzs, hselectors⟩ := selectors_more locate hs here stop
    obtain ⟨t, ht, herase⟩ := selector_of_spelt locate h hlayered hopen hc
    obtain ⟨ts, hts, heraseMore⟩ := ih hmore hlayeredMore hopenMore hzs there
    refine ⟨t :: ts, ?_, by rw [List.map_cons, herase, heraseMore]; rfl⟩
    rw [hselectors, Report.bind_ok ht, Report.map, hts]
    rfl

theorem selectors_of_closesMarkup {ss : List Selector} (h : ∀ s ∈ ss, s.Legible)
    (hlayered : ∀ s ∈ ss, s.isLayered = true) (hclose : ∃ s ∈ ss, s.closesMarkup = true) {ys : List (Node P)}
    (hs : Group.SpeltMore ss ys) (here stop : P) :
    ∃ f, (selectors locate .any (pieces here stop ys).2).result = .error f := by
  induction ss generalizing ys here with
  | nil =>
    obtain ⟨s, hs, -⟩ := hclose
    cases hs
  | cons s ss ih =>
    obtain ⟨h, hmore⟩ := List.forall_mem_cons.1 h
    obtain ⟨hlayered, hlayeredMore⟩ := List.forall_mem_cons.1 hlayered
    obtain ⟨c, there, zs, hc, hzs, hselectors⟩ := selectors_more locate hs here stop
    rw [hselectors]
    obtain ⟨u, hu, hclose⟩ := hclose
    rcases List.mem_cons.1 hu with rfl | hu
    · exact Report.bind_error (.inl (selector_of_closesMarkup locate h hlayered hclose hc))
    · obtain ⟨f, hf⟩ := ih hmore hlayeredMore ⟨u, hu, hclose⟩ hzs there
      refine Report.bind_error (.inr fun t => ⟨f, ?_⟩)
      rw [Report.map, hf]
      rfl

end Members

end Cursor

namespace Group

variable {g : Group}

/-- Whether all members are as they are read: legible as they are printed, with combinators outside. -/
structure Readable (g : Group) : Prop where
  legible : ∀ s ∈ g.members, s.printed.Legible
  isLayered : ∀ s ∈ g.members, s.isLayered = true

/-- What the members have to be like holds of them as they are printed. -/
theorem Readable.printed (h : g.Readable) :
    ∀ s ∈ g.members.map Selector.printed, s.Legible ∧ s.isLayered = true := by
  intro s hs
  obtain ⟨t, ht, rfl⟩ := List.mem_map.1 hs
  exact ⟨h.legible t ht, (t.isLayered_map _).trans (h.isLayered t ht)⟩

/-- How reading the text of a group starts: with its first member, and then come the others. -/
theorem group_ofChars_css (h : g.Readable) (locate : Position → Locator) :
    ∃ (c : Cursor Position) (here : Position) (ys : List (Node Position)),
      g.first.printed.Spelt c.skipSpace.rest ∧ SpeltMore (g.others.map Selector.printed) ys ∧
        (Cursor.ofChars g.css.toList).group locate .any =
          (c.selector locate .any).bind fun s =>
            (Cursor.selectors locate .any (Cursor.pieces here (Cursor.ofChars g.css.toList).stop ys).2).map
              fun rest => ⟨s, rest, some (locate (Cursor.ofChars g.css.toList).here)⟩ := by
  obtain ⟨xs, ys, hrest, hxs, hys⟩ := spelt_ofChars h.legible
  have hpieces := Cursor.pieces_append hxs.ne_comma (Cursor.ofChars g.css.toList).here
    (Cursor.ofChars g.css.toList).stop ys
  have hothers := congrArg Prod.snd hpieces
  have hfirst :
      (Cursor.pieces (Cursor.ofChars g.css.toList).here (Cursor.ofChars g.css.toList).stop (xs ++ ys)).1.rest = xs := by
    rw [hpieces, Cursor.pieces_more hys, List.append_nil]
  obtain ⟨k, ks, rfl, hk⟩ := hxs.begins
  refine ⟨(Cursor.pieces (Cursor.ofChars g.css.toList).here (Cursor.ofChars g.css.toList).stop (k :: ks ++ ys)).1,
    (Cursor.ofChars g.css.toList).here, ys, ?_, hys, ?_⟩
  · rw [Cursor.rest_skipSpace hfirst hk.1]
    exact hxs
  · rw [Cursor.group, hrest, hothers]

theorem parse_result (text : String) (o : Options) :
    (Group.parse text o).result =
      ((Cursor.ofChars text.toList).group o.locate o.defaultNamespace).result.mapError
        (Failure.toError o text.toList) :=
  rfl

/-- The text of a group reads as the group read back, if no dashes in it close markup. -/
theorem parse_css (h : g.Readable) (hopen : ∀ s ∈ g.members, s.closesMarkup = false) :
    ∃ r, (Group.parse g.css).result = .ok r ∧
      r.members.map Selector.erase = g.members.map fun s => s.printed.reread := by
  have hopen : ∀ s ∈ g.members.map Selector.printed, s.closesMarkup = false :=
    List.forall_mem_map.2 fun s hs => s.closesMarkup_printed.trans (hopen s hs)
  obtain ⟨c, here, ys, hfirst, hothers, hgroup⟩ := group_ofChars_css h (Options.locate {})
  obtain ⟨⟨hlegible, hlayered⟩, hmore⟩ := List.forall_mem_cons.1 h.printed
  obtain ⟨hopen, hopenMore⟩ := List.forall_mem_cons.1 hopen
  obtain ⟨s, hs, herase⟩ := Cursor.selector_of_spelt (Options.locate {}) hlegible hlayered hopen hfirst
  obtain ⟨ss, hss, heraseMore⟩ := Cursor.selectors_of_spelt (Options.locate {}) (fun t ht => (hmore t ht).1)
    (fun t ht => (hmore t ht).2) hopenMore hothers here (Cursor.ofChars g.css.toList).stop
  refine ⟨⟨s, ss, some (Options.locate {} (Cursor.ofChars g.css.toList).here)⟩, ?_, ?_⟩
  · rw [parse_result, hgroup, Report.bind_ok hs, Report.map, hss]
    rfl
  · rw [members, members, List.map_cons, List.map_cons, herase, heraseMore, List.map_map]
    rfl

/-- The text of a group is refused if dashes in it close markup. -/
theorem parse_css_of_closesMarkup (h : g.Readable) (hclose : ∃ s ∈ g.members, s.closesMarkup = true) :
    ∃ e, (Group.parse g.css).result = .error e := by
  obtain ⟨c, here, ys, hfirst, hothers, hgroup⟩ := group_ofChars_css h (Options.locate {})
  obtain ⟨⟨hlegible, hlayered⟩, hmore⟩ := List.forall_mem_cons.1 h.printed
  have hfail : ∃ f, ((Cursor.ofChars g.css.toList).group (Options.locate {}) .any).result = .error f := by
    rw [hgroup]
    obtain ⟨s, hs, hclose⟩ := hclose
    rw [← s.closesMarkup_printed] at hclose
    rcases List.mem_cons.1 hs with rfl | hs
    · have herror := Cursor.selector_of_closesMarkup (Options.locate {}) hlegible hlayered hclose hfirst
      exact Report.bind_error (.inl herror)
    · obtain ⟨f, hf⟩ := Cursor.selectors_of_closesMarkup (Options.locate {}) (fun t ht => (hmore t ht).1)
        (fun t ht => (hmore t ht).2) ⟨s.printed, List.mem_map_of_mem hs, hclose⟩ hothers here
        (Cursor.ofChars g.css.toList).stop
      refine Report.bind_error (.inr fun s => ⟨f, ?_⟩)
      rw [Report.map, hf]
      rfl
  obtain ⟨f, hf⟩ := hfail
  exact ⟨f.toError {} g.css.toList, by rw [parse_result, hf]; rfl⟩

end Group

end StyleSelectors
