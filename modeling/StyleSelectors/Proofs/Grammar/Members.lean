/-
Reading a group as reading its pieces. The stretches between the commas of a text are, but for their
places, what the pieces of the text read as by themselves (`Cursor.outcomes_stretches`), so that what
comes of a group is what comes of its pieces, one after the other (`Group.outcome_parse`). No selector
has a comma in it, so that reading a text as one selector is reading it as a group of one.
-/
import StyleSelectors.Proofs.Component.Flat
import StyleSelectors.Proofs.Component.Pieces
import StyleSelectors.Proofs.Grammar.Complete
import StyleSelectors.Proofs.Grammar.GroupReadBack
import StyleSelectors.Proofs.Grammar.Places
import Mathlib.Data.List.Forall2

namespace StyleSelectors

open Text Grammar

variable {P : Type}

/-! ## Commas -/

namespace Node

/-- Where components start has no effect on their nodes but for the places. -/
theorem map_ofComponents (p q : Position) (cs : List Component) :
    (ofComponents p cs).1.map (map fun _ => ()) = (ofComponents q cs).1.map (map fun _ => ()) := by
  fun_induction ofComponents p cs generalizing q with
  | case1 => rw [ofComponents]
  | case2 p x rest r more ih =>
    rw [ofComponents]
    dsimp only
    split
    · exact ih _
    · exact congrArg (_ :: ·) (ih _)
  | case3 p head inside close rest r within t more _ ihInside ih =>
    rw [ofComponents]
    simp only [List.map_cons, map, mapAll_eq]
    rw [ih, ihInside]

/-- Where no component is a comma, no node is one. -/
theorem ne_comma_ofComponents (p : Position) {cs : List Component} (hheaded : Component.HeadedAll cs)
    (h : ∀ c ∈ cs, c.isComma = false) : ∀ n ∈ (ofComponents p cs).1, n.token ≠ .comma := by
  induction cs generalizing p with
  | nil =>
    rw [ofComponents]
    exact List.forall_mem_nil _
  | cons c cs ih =>
    obtain ⟨hc, hcs⟩ := List.forall_mem_cons.1 h
    rw [Component.HeadedAll] at hheaded
    cases c with
    | leaf x =>
      rw [ofComponents]
      dsimp only
      split
      · exact ih _ hheaded.2 hcs
      · exact List.forall_mem_cons.2 ⟨beq_eq_false_iff_ne.1 hc, ih _ hheaded.2 hcs⟩
    | block head inside close =>
      rw [ofComponents]
      -- a comma opens no block
      refine List.forall_mem_cons.2 ⟨fun hcomma => ?_, ih _ hheaded.2 hcs⟩
      have hopen := hheaded.1
      rw [Component.Headed, show head.token = .comma from hcomma] at hopen
      cases hopen.1

end Node

namespace Grammar

theorem Blank.comma_not_mem {ts : List Token} (h : Blank ts) : Token.comma ∉ ts := fun hmem => by
  cases blank_iff.1 h _ hmem

theorem Prefix.comma_not_mem {ts : List Token} {ns : Namespace} (h : Prefix ts ns) : Token.comma ∉ ts := by
  cases h <;> simp

theorem Part.ne_comma {xs : List (Node P)} {s : Simple} (h : Part xs s) : ∀ n ∈ xs, n.token ≠ .comma := by
  apply ne_comma_of_tokens
  cases h with
  | type h _ hxs | universal h hxs =>
    rw [hxs]
    simp [h.comma_not_mem]
  | className _ hxs | pseudoClass _ hxs | pseudoElement _ hxs | pseudoElementFunction _ hxs =>
    rw [hxs]
    simp
  | id _ hn | attr hn => simp [hn]
  | function hc hn => simp [hc, hn]

theorem Parts.ne_comma {ns : Namespace} {xs : List (Node P)} {ss : List Simple} (h : Parts ns xs ss) :
    ∀ n ∈ xs, n.token ≠ .comma := by
  induction h with
  | nil => exact nofun
  | @bare n s ys ss hn _ _ ih =>
    refine List.forall_mem_cons.2 ⟨fun hcomma => ?_, ih⟩
    rw [hcomma] at hn
    cases hn
  | part hxs _ ih => exact List.forall_mem_append.2 ⟨hxs.ne_comma, ih⟩
  | negation hc hn _ _ _ _ _ _ _ ih =>
    refine List.forall_mem_cons.2 ⟨?_, List.forall_mem_cons.2 ⟨?_, ih⟩⟩
    · rw [hc]
      exact nofun
    · rw [hn]
      exact nofun

theorem Link.comma_not_mem {ts : List Token} {link : Combinator} (h : Link ts link) : Token.comma ∉ ts := by
  cases h with
  | blanks ha _ => exact ha.comma_not_mem
  | sign ha ht hb =>
    simp only [List.mem_append, List.mem_cons, not_or]
    refine ⟨ha.comma_not_mem, ?_, hb.comma_not_mem⟩
    cases ht <;> exact nofun

theorem Chain.ne_comma {ns : Namespace} {xs : List (Node P)} {x : Complex P} (h : Chain ns xs x) :
    ∀ n ∈ xs, n.token ≠ .comma := by
  induction h with
  | subject hxs hb => exact List.forall_mem_append.2 ⟨hxs.ne_comma, ne_comma_of_tokens hb.comma_not_mem⟩
  | link hxs hys _ ih =>
    exact List.forall_mem_append.2
      ⟨hxs.ne_comma, List.forall_mem_append.2 ⟨ne_comma_of_tokens hys.comma_not_mem, ih⟩⟩

/-- There is no comma in a selector. -/
theorem Denotes.ne_comma {ns : Namespace} {locate : P → Locator} {xs : List (Node P)} {s : Selector}
    (h : Denotes ns locate xs s) : ∀ n ∈ xs, n.token ≠ .comma := by
  obtain ⟨a, ys, x, rfl, ha, hys, -⟩ := h
  exact List.forall_mem_append.2 ⟨ne_comma_of_tokens ha.comma_not_mem, hys.ne_comma⟩

end Grammar

/-! ## Stretches -/

namespace Cursor

variable {xs ys : List (Node P)} {here stop : P} {locate : P → Locator} {ns : Namespace}

theorem pieces_of_ne_comma (h : ∀ n ∈ xs, n.token ≠ .comma) : pieces here stop xs = (⟨here, xs, stop⟩, []) := by
  have := pieces_append h here stop []
  rwa [pieces, List.append_nil] at this

theorem pieces_of_comma {n : Node P} (h : ∀ m ∈ xs, m.token ≠ .comma) (hn : n.token = .comma) :
    pieces here stop (xs ++ n :: ys) =
      (⟨here, xs, n.start⟩, (pieces n.finish stop ys).1 :: (pieces n.finish stop ys).2) := by
  rw [pieces_append h, pieces, hn]
  simp

/-- Where there is but one stretch, it is all that is ahead. -/
theorem pieces_of_snd (h : (pieces here stop xs).2 = []) : pieces here stop xs = (⟨here, xs, stop⟩, []) := by
  induction xs with
  | nil => rfl
  | cons n xs ih =>
    rw [pieces] at h ⊢
    split
    · next hcomma => simp [hcomma] at h
    · next hcomma =>
      simp only at h
      rw [ih h]

/-- All stretches between commas, the first included. -/
def stretches (c : Cursor P) : List (Cursor P) :=
  (pieces c.here c.stop c.rest).1 :: (pieces c.here c.stop c.rest).2

/-- The outcome of nodes that start anywhere is that of the text they were read from. -/
theorem outcome_ofComponents {cs : List Component} (hcs : Component.ofChars (Component.chars cs) = cs) (p : Position)
    {here stop : Position} {locate locate' : Position → Locator} {ns : Namespace} :
    outcome locate ns ⟨here, (Node.ofComponents p cs).1, stop⟩ =
      (ofChars (Component.chars cs)).outcome locate' ns := by
  refine outcome_eq_of_map ?_
  show ((Node.ofComponents p cs).1).map _ = ((Node.ofComponents .start _).1).map _
  rw [hcs]
  exact Node.map_ofComponents p .start cs

/-- The stretches of a text come to what its pieces come to by themselves. -/
theorem outcomes_stretches (text : List Char) (locate locate' : Position → Locator) (ns : Namespace) :
    (ofChars text).stretches.map (outcome locate ns) =
      (StyleSelectors.pieces text).map fun piece => (ofChars piece).outcome locate' ns := by
  suffices hall : ∀ p here stop,
      (stretches ⟨here, (Node.ofComponents p (Component.ofChars text)).1, stop⟩).map (outcome locate ns) =
        ((Component.ofChars text).splitOnP Component.isComma).map fun cs =>
          (ofChars (Component.chars cs)).outcome locate' ns by
    rw [StyleSelectors.pieces, List.map_map]
    exact hall _ _ _
  refine Component.comma_induction (motive := fun cs => ∀ p here stop,
    (stretches ⟨here, (Node.ofComponents p cs).1, stop⟩).map (outcome locate ns) =
      (cs.splitOnP Component.isComma).map fun cs => (ofChars (Component.chars cs)).outcome locate' ns) ?_ ?_ text
  · intro cs hread hnone p here stop
    have hnodes := Node.ne_comma_ofComponents p (Component.headedAll_of_ofChars hread) hnone
    rw [List.splitOnP_eq_singleton hnone, stretches, pieces_of_ne_comma hnodes, List.map_singleton,
      List.map_singleton, outcome_ofComponents hread]
  · intro front x back hx hread hfront _ ih p here stop
    have hnodes := Node.ne_comma_ofComponents p (Component.headedAll_of_ofChars hread) hfront
    have hcomment : x.token.isComment = false := by rw [hx]; rfl
    have hcomma (q r : Position) : (Node.leaf x.token q r).token = .comma := hx
    rw [pieces_cons hx hfront, List.map_cons, ← ih ((Node.ofComponents p front).2.advance x.text)
      ((Node.ofComponents p front).2.advance x.text) stop, stretches, Node.ofComponents_append,
      Node.ofComponents_cons hcomment, pieces_of_comma hnodes (hcomma _ _), List.map_cons, outcome_ofComponents hread]
    rfl

/-! ## Outcomes -/

/-- The selectors of stretches come to what each stretch comes to, up to the first failure. -/
theorem outcome_selectors (locate : P → Locator) (ns : Namespace) (cs : List (Cursor P)) :
    ((selectors locate ns cs).result.map (List.map Selector.erase)).mapError Failure.cause =
      cs.mapM (outcome locate ns) := by
  induction cs with
  | nil => rfl
  | cons c cs ih =>
    rw [List.mapM_cons, ← ih, outcome, selectors, Report.bind]
    cases (c.selector locate ns).result with
    | error e => rfl
    | ok s =>
      simp only [Report.map]
      cases (selectors locate ns cs).result <;> rfl

theorem group_members (c : Cursor P) :
    (c.group locate ns).result.map Group.members = (selectors locate ns c.stretches).result := by
  rw [group, stretches, selectors, Report.bind, Report.bind]
  cases ((pieces c.here c.stop c.rest).1.selector locate ns).result with
  | error e => rfl
  | ok s =>
    simp only [Report.map]
    cases (selectors locate ns (pieces c.here c.stop c.rest).2).result <;> rfl

theorem selectors_eq_nil {cs : List (Cursor P)} (h : (selectors locate ns cs).result = .ok []) : cs = [] := by
  cases cs with
  | nil => rfl
  | cons c cs =>
    obtain ⟨s, -, hmore⟩ := Report.bind_eq_ok h
    obtain ⟨ss, -, hss⟩ := Report.map_eq_ok hmore
    cases hss

/-- A group of one is read from one stretch. -/
theorem pieces_of_group {c : Cursor P} {g : Group} {s : Selector} (h : (c.group locate ns).result = .ok g)
    (hg : g.members = [s]) : pieces c.here c.stop c.rest = (c, []) := by
  obtain ⟨t, -, hmore⟩ := Report.bind_eq_ok h
  obtain ⟨ss, hss, rfl⟩ := Report.map_eq_ok hmore
  cases hg
  exact pieces_of_snd (selectors_eq_nil hss)

theorem group_of_pieces (locate : P → Locator) (ns : Namespace) {c : Cursor P}
    (h : pieces c.here c.stop c.rest = (c, [])) :
    (c.group locate ns).result =
      (c.selector locate ns).result.map fun s => ⟨s, [], some (locate c.here)⟩ := by
  rw [group, h, Report.bind]
  cases (c.selector locate ns).result <;> rfl

end Cursor

/-! ## Texts -/

section MapM

variable {ε α β : Type} {f : α → Except ε β}

/-- What comes of all when it comes of each. -/
theorem forall₂_of_mapM {xs : List α} {ys : List β} (h : xs.mapM f = .ok ys) :
    List.Forall₂ (fun x y => f x = .ok y) xs ys := by
  induction xs generalizing ys with
  | nil =>
    cases h
    exact .nil
  | cons x xs ih =>
    rw [List.mapM_cons] at h
    obtain ⟨y, hx, hmore⟩ := Cursor.bind_eq_ok h
    obtain ⟨zs, hxs, hys⟩ := Cursor.bind_eq_ok hmore
    cases hys
    exact .cons hx (ih hxs)

/-- What fails fails for the first that does. -/
theorem first_error_of_mapM {xs : List α} {e : ε} (h : xs.mapM f = .error e) :
    ∃ front x back, xs = front ++ x :: back ∧ (∀ z ∈ front, ∃ y, f z = .ok y) ∧ f x = .error e := by
  induction xs with
  | nil => cases h
  | cons x xs ih =>
    rw [List.mapM_cons] at h
    cases hx : f x with
    | error e' =>
      rw [hx] at h
      cases h
      exact ⟨[], x, xs, rfl, nofun, hx⟩
    | ok y =>
      cases hxs : xs.mapM f with
      | ok zs => rw [hx, hxs] at h; cases h
      | error e' =>
        rw [hx, hxs] at h
        cases h
        obtain ⟨front, z, back, rfl, hfront, hz⟩ := ih hxs
        exact ⟨x :: front, z, back, rfl, List.forall_mem_cons.2 ⟨⟨y, hx⟩, hfront⟩, hz⟩

end MapM

namespace Selector

/-- What comes of reading a text as one selector, locators aside. -/
def outcome (text : String) : Except Cause Selector :=
  ((Selector.parse text).result.map erase).mapError ParseError.cause

theorem outcome_eq_ok {text : String} {t : Selector} :
    outcome text = .ok t ↔ ∃ s, (Selector.parse text).result = .ok s ∧ s.erase = t := by
  rw [outcome]
  cases (Selector.parse text).result <;> simp [Except.map, Except.mapError]

theorem outcome_eq_error {text : String} {cause : Cause} :
    outcome text = .error cause ↔ ∃ e, (Selector.parse text).result = .error e ∧ e.cause = cause := by
  rw [outcome]
  cases (Selector.parse text).result <;> simp [Except.map, Except.mapError]

theorem outcome_ofList (piece : List Char) :
    outcome (String.ofList piece) = (Cursor.ofChars piece).outcome (Options.locate {}) .any := by
  rw [outcome, parse_result, String.toList_ofList, Cursor.outcome]
  cases ((Cursor.ofChars piece).selector (Options.locate {}) .any).result <;> rfl

end Selector

namespace Group

/-- What comes of reading a text as a group is what comes of reading each of its pieces as a selector,
up to the first that fails. -/
theorem outcome_parse (text : String) :
    ((Group.parse text).result.map fun g => g.members.map Selector.erase).mapError ParseError.cause =
      (pieces text.toList).mapM fun piece => Selector.outcome (String.ofList piece) := by
  have hmembers : ((Group.parse text).result.map fun g => g.members.map Selector.erase).mapError ParseError.cause =
      ((Cursor.selectors (Options.locate {}) .any (Cursor.ofChars text.toList).stretches).result.map
        (List.map Selector.erase)).mapError Failure.cause := by
    rw [← Cursor.group_members, parse_result]
    show ((((Cursor.ofChars text.toList).group (Options.locate {}) .any).result.mapError _).map _).mapError _ = _
    cases ((Cursor.ofChars text.toList).group (Options.locate {}) .any).result <;> rfl
  have hpieces := Cursor.outcomes_stretches text.toList (Options.locate {}) (Options.locate {}) .any
  simp only [Selector.outcome_ofList]
  calc _ = (Cursor.ofChars text.toList).stretches.mapM (Cursor.outcome (Options.locate {}) .any) :=
        hmembers.trans (Cursor.outcome_selectors ..)
    _ = ((Cursor.ofChars text.toList).stretches.map (Cursor.outcome (Options.locate {}) .any)).mapM id := by
        rw [List.mapM_map]; rfl
    _ = _ := by rw [hpieces, List.mapM_map]; rfl

/-- A text is a selector if it is a group of this selector alone. -/
theorem parse_eq_singleton (text : String) (s : Selector) :
    (Selector.parse text).result = .ok s ↔ ∃ g, (Group.parse text).result = .ok g ∧ g.members = [s] := by
  constructor
  · intro h
    have hread := Report.result_of_toParsed h
    have hgroup := Cursor.group_of_pieces (Options.locate {}) .any
      (Cursor.pieces_of_ne_comma (Cursor.denotes_of_selector hread).ne_comma)
    rw [hread] at hgroup
    exact ⟨_, by rw [parse_result, hgroup]; rfl, rfl⟩
  · rintro ⟨g, h, hmembers⟩
    have hread := Report.result_of_toParsed h
    rw [Cursor.group_of_pieces _ _ (Cursor.pieces_of_group hread hmembers)] at hread
    obtain ⟨t, ht, rfl⟩ := Cursor.map_eq_ok hread
    cases hmembers
    rw [Selector.parse_result, ht]
    rfl

/-- Reading a text as a group is reading each piece of it as a selector: the group has the selectors of
the pieces, in order, and where a piece is refused, it is refused for the same cause as the first such
piece. A text is a selector if it is a group of this selector alone. -/
theorem parse_iff_pieces (text : String) :
    ((∃ g, (Group.parse text).result = .ok g) ↔
        ∀ piece ∈ pieces text.toList, ∃ s, (Selector.parse (String.ofList piece)).result = .ok s) ∧
      (∀ g, (Group.parse text).result = .ok g →
        List.Forall₂ (fun piece s => ∃ t, (Selector.parse (String.ofList piece)).result = .ok t ∧ t.erase = s.erase)
          (pieces text.toList) g.members) ∧
      (∀ e, (Group.parse text).result = .error e →
        ∃ front piece back, pieces text.toList = front ++ piece :: back ∧
          (∀ before ∈ front, ∃ s, (Selector.parse (String.ofList before)).result = .ok s) ∧
          ∃ f, (Selector.parse (String.ofList piece)).result = .error f ∧ f.cause = e.cause) ∧
      ∀ s, (Selector.parse text).result = .ok s ↔ ∃ g, (Group.parse text).result = .ok g ∧ g.members = [s] := by
  have houtcome := outcome_parse text
  have hmembers : ∀ g, (Group.parse text).result = .ok g →
      List.Forall₂ (fun piece s => ∃ t, (Selector.parse (String.ofList piece)).result = .ok t ∧ t.erase = s.erase)
        (pieces text.toList) g.members := by
    intro g hg
    rw [hg] at houtcome
    exact (List.forall₂_map_right_iff.1 (forall₂_of_mapM houtcome.symm)).imp fun _ _ => Selector.outcome_eq_ok.1
  have hrefused : ∀ e, (Group.parse text).result = .error e →
      ∃ front piece back, pieces text.toList = front ++ piece :: back ∧
        (∀ before ∈ front, ∃ s, (Selector.parse (String.ofList before)).result = .ok s) ∧
        ∃ f, (Selector.parse (String.ofList piece)).result = .error f ∧ f.cause = e.cause := by
    intro e he
    rw [he] at houtcome
    obtain ⟨front, piece, back, heq, hfront, hpiece⟩ := first_error_of_mapM houtcome.symm
    refine ⟨front, piece, back, heq, fun before hbefore => ?_, Selector.outcome_eq_error.1 hpiece⟩
    obtain ⟨t, ht⟩ := hfront before hbefore
    obtain ⟨s, hs, -⟩ := Selector.outcome_eq_ok.1 ht
    exact ⟨s, hs⟩
  refine ⟨⟨?_, ?_⟩, hmembers, hrefused, parse_eq_singleton text⟩
  · rintro ⟨g, hg⟩
    have hboth : List.Forall₂
        (fun piece _ => (∃ s, (Selector.parse (String.ofList piece)).result = Except.ok s) ∧ True)
        (pieces text.toList) g.members :=
      (hmembers g hg).imp fun _ _ ⟨t, ht, _⟩ => ⟨⟨t, ht⟩, trivial⟩
    exact ((List.forall₂_and_left _ _).1 hboth).1
  · intro hall
    cases hresult : (Group.parse text).result with
    | ok g => exact ⟨g, rfl⟩
    | error e =>
      obtain ⟨front, piece, back, heq, -, f, hf, -⟩ := hrefused e hresult
      obtain ⟨s, hs⟩ := hall piece (by rw [heq]; exact List.mem_append_right _ (List.mem_cons_self ..))
      cases hs.symm.trans hf

end Group

end StyleSelectors
