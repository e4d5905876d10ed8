/-
The tokens that a group is printed from, and those that its text splits into. Between two parts there
may be a comment that keeps them apart; all other tokens come back as they were, unless two dashes
come before `>`, which are one token then (`Selector.uncommented_components`). So a group that was
read splits into its own tokens exactly if no dashes in it close markup: `Group.splits_iff_of_parse`.
-/
import StyleSelectors.Proofs.Grammar.Denoted
import StyleSelectors.Proofs.Grammar.RoundTrip

namespace StyleSelectors

open Token

/-! ## Tokens of components -/

namespace Token

/-- Tokens without the comments among them. -/
def uncommented (ts : List Token) : List Token := ts.filter fun t => !t.isComment

theorem uncommented_append (xs ys : List Token) : uncommented (xs ++ ys) = uncommented xs ++ uncommented ys :=
  List.filter_append ..

theorem uncommented_cons {t : Token} (h : t.isComment = false) (ts : List Token) :
    uncommented (t :: ts) = t :: uncommented ts :=
  List.filter_cons_of_pos (by rw [h]; rfl)

/-- What keeps two parts apart is a comment. -/
theorem uncommented_between (xs ys : List Token) : uncommented (between xs ys) = [] := by
  unfold between
  split
  · split <;> rfl
  · rfl

/-- Comments and the end of markup, of which no part of a selector is made. -/
def isMark : Token → Bool
  | .comment _ | .markupClose => true
  | _ => false

theorem uncommented_of_not_mark {ts : List Token} (h : ∀ t ∈ ts, t.isMark = false) : uncommented ts = ts := by
  refine List.filter_eq_self.2 fun t ht => ?_
  have hmark := h t ht
  cases t with
  | comment _ => cases hmark
  | _ => rfl

end Token

namespace Component

/-- The tokens of components as they were read, without their nesting. -/
def flat (cs : List Component) : List Token := (lexemesOf cs).map Lexeme.token

theorem flat_append (cs ds : List Component) : flat (cs ++ ds) = flat cs ++ flat ds := by
  rw [flat, lexemesOf_append, List.map_append]
  rfl

theorem flat_cons_ofToken (t : Token) (cs : List Component) : flat (ofToken t :: cs) = t :: flat cs := rfl

theorem flat_map_ofToken (ts : List Token) : flat (ts.map ofToken) = ts := by
  induction ts with
  | nil => rfl
  | cons t ts ih => rw [List.map_cons, flat_cons_ofToken, ih]

theorem flat_enclose (head : Token) (cs : List Component) :
    flat [enclose head cs] = head :: flat cs ++ [closer head] := by
  simp [flat, enclose, lexemesOf, lexemes, lexeme]

/-- The tokens of a text are those of its components. -/
theorem flat_ofChars (cs : List Char) : flat (ofChars cs) = (Lexeme.ofChars cs).map Lexeme.token := by
  rw [flat, ofChars, lexemesOf_ofLexemes]

end Component

/-! ## Parts -/

theorem Namespace.not_mark_of_mem_tokens {ns implicit : Namespace} {t : Token} (h : t ∈ ns.tokens implicit) :
    t.isMark = false := by
  unfold tokens at h
  split at h
  · cases h
  · split at h <;> (simp only [List.mem_cons, List.not_mem_nil, or_false] at h; rcases h with rfl | rfl <;> rfl)

namespace Simple

/-- Whether a simple selector is a function, or the negation of one. -/
def hasFunction : Simple → Bool
  | .function _ _ => true
  | .negation inner => inner.hasFunction
  | _ => false

theorem isClosed_of_hasFunction {s : Simple} (h : s.hasFunction = false) : s.isClosed = true := by
  induction s with
  | negation inner ih => exact ih h
  | function _ _ => cases h
  | _ => rfl

theorem not_mark_of_mem_tokens {s : Simple} (h : s.hasFunction = false) : ∀ t ∈ s.tokens, t.isMark = false := by
  induction s with
  | function _ _ => cases h
  | negation inner ih =>
    rw [tokens, List.forall_mem_append, List.forall_mem_cons, List.forall_mem_cons]
    exact ⟨⟨rfl, rfl, ih h⟩, List.forall_mem_singleton.2 rfl⟩
  | type t =>
    rw [tokens, TypeName.tokens, List.forall_mem_append]
    exact ⟨fun _ => Namespace.not_mark_of_mem_tokens, List.forall_mem_singleton.2 rfl⟩
  | attr a =>
    have htest : ∀ t ∈ a.test.tokens, t.isMark = false := by
      cases a.test <;> simp [ValueTest.tokens, isMark]
    rw [tokens, AttributeSelector.tokens, List.forall_mem_append, List.forall_mem_append, List.forall_mem_cons,
      List.forall_mem_cons]
    exact ⟨⟨⟨rfl, fun _ => Namespace.not_mark_of_mem_tokens⟩, rfl, htest⟩, List.forall_mem_singleton.2 rfl⟩
  | _ => simp [tokens, isMark]

theorem flat_components {s : Simple} (h : s.hasFunction = false) : Component.flat s.components = s.tokens := by
  induction s with
  | function _ _ => cases h
  | negation inner ih => rw [components, Component.flat_cons_ofToken, Component.flat_enclose, ih h]; rfl
  | attr a => rw [components, Component.flat_enclose, Component.flat_map_ofToken]; rfl
  | nothing => rfl
  | _ => exact Component.flat_map_ofToken _

theorem uncommented_components {s : Simple} (h : s.hasFunction = false) :
    uncommented (Component.flat s.components) = s.tokens := by
  rw [flat_components h, uncommented_of_not_mark (not_mark_of_mem_tokens h)]

end Simple

/-! ## Selectors -/

namespace Selector

/-- Whether no part has arguments, and every part is printed as it is. -/
def IsPlain (s : Selector) : Prop := ∀ p ∈ s.parts, p.hasFunction = false ∧ p.printed = p

theorem isPlain_cons {first : Simple} {second : Selector}
    (h : ∀ p ∈ first :: second.parts, p.hasFunction = false ∧ p.printed = p) :
    first.hasFunction = false ∧ first.printed = first ∧ second.IsPlain := by
  obtain ⟨⟨hfirst, hprinted⟩, hsecond⟩ := List.forall_mem_cons.1 h
  exact ⟨hfirst, hprinted, hsecond⟩

theorem not_mark_of_mem_tokens {s : Selector} (h : s.IsPlain) : ∀ t ∈ s.tokens, t.isMark = false := by
  induction s with
  | simple s => exact Simple.not_mark_of_mem_tokens (h s (List.mem_singleton_self s)).1
  | both first second _ ih =>
    obtain ⟨hfirst, -, hsecond⟩ := isPlain_cons h
    exact List.forall_mem_append.2 ⟨Simple.not_mark_of_mem_tokens hfirst, ih hsecond⟩
  | related link first second _ ih =>
    obtain ⟨hfirst, -, hsecond⟩ := isPlain_cons h
    have hlink : link.token.isMark = false := by cases link <;> rfl
    exact List.forall_mem_append.2
      ⟨Simple.not_mark_of_mem_tokens hfirst, List.forall_mem_cons.2 ⟨hlink, ih hsecond⟩⟩

/-- Where no dashes close markup, a selector splits into its tokens, apart from comments. -/
theorem uncommented_components {s : Selector} (h : s.IsPlain) (hopen : s.closesMarkup = false) :
    uncommented (Component.flat s.components) = s.tokens := by
  induction s with
  | simple s =>
    obtain ⟨hs, hprinted⟩ := h s (List.mem_singleton_self s)
    rw [components, hprinted, Simple.uncommented_components hs, tokens]
  | both first second _ ih =>
    obtain ⟨hfirst, hprinted, hsecond⟩ := isPlain_cons h
    rw [components, hprinted, Component.flat_append, Component.flat_append, Component.flat_map_ofToken,
      uncommented_append, uncommented_append, uncommented_between, ih hsecond hopen,
      Simple.uncommented_components hfirst, tokens, List.nil_append]
  | related link first second _ ih =>
    obtain ⟨hfirst, hprinted, hsecond⟩ := isPlain_cons h
    obtain ⟨hlink, hopen⟩ := Bool.or_eq_false_iff.1 hopen
    have hcomment : link.token.isComment = false := by cases link <;> rfl
    rw [components, hlink, if_neg Bool.false_ne_true, hprinted, Component.flat_append, Component.flat_cons_ofToken,
      uncommented_append, uncommented_cons hcomment, ih hsecond hopen, Simple.uncommented_components hfirst, tokens]

/-- Where dashes close markup, this is one of the tokens that a selector splits into. -/
theorem markupClose_mem_components {s : Selector} (hclose : s.closesMarkup = true) :
    .markupClose ∈ Component.flat s.components := by
  induction s with
  | simple s => cases hclose
  | both first second _ ih =>
    rw [components, Component.flat_append, Component.flat_append]
    exact List.mem_append_right _ (List.mem_append_right _ (ih hclose))
  | related link first second _ ih =>
    rw [components]
    split
    · rw [Component.flat_append, Component.flat_cons_ofToken]
      exact List.mem_append_right _ (List.mem_cons_self ..)
    · next hnot =>
      have hsecond : second.closesMarkup = true := by simpa [closesMarkup, hnot] using hclose
      rw [Component.flat_append, Component.flat_cons_ofToken]
      exact List.mem_append_right _ (List.mem_cons_of_mem _ (ih hsecond))

end Selector

/-! ## Groups -/

namespace Group

theorem uncommented_more {ss : List Selector} (h : ∀ s ∈ ss, s.IsPlain) (hopen : ∀ s ∈ ss, s.closesMarkup = false) :
    uncommented (Component.flat (moreComponents ss)) = moreTokens ss := by
  induction ss with
  | nil => rfl
  | cons s ss ih =>
    obtain ⟨hs, hss⟩ := List.forall_mem_cons.1 h
    obtain ⟨hsopen, hssopen⟩ := List.forall_mem_cons.1 hopen
    show uncommented (Component.flat
      (Component.ofToken .comma :: Component.ofToken (.whitespace " ") :: (s.components ++ moreComponents ss))) = _
    rw [Component.flat_cons_ofToken, Component.flat_cons_ofToken, Component.flat_append, uncommented_cons rfl,
      uncommented_cons rfl, uncommented_append, ih hss hssopen, s.uncommented_components hs hsopen]
    rfl

theorem markupClose_not_mem_tokens {g : Group} (h : ∀ s ∈ g.members, s.IsPlain) : .markupClose ∉ g.tokens := by
  obtain ⟨hfirst, hothers⟩ := List.forall_mem_cons.1 h
  rw [tokens, List.mem_append, List.mem_flatMap]
  rintro (hmem | ⟨s, hs, hmem⟩)
  · cases Selector.not_mark_of_mem_tokens hfirst _ hmem
  · simp only [List.mem_cons, reduceCtorEq, false_or] at hmem
    cases Selector.not_mark_of_mem_tokens (hothers s hs) _ hmem

theorem markupClose_mem_components {g : Group} {s : Selector} (hs : s ∈ g.members) (hclose : s.closesMarkup = true) :
    .markupClose ∈ Component.flat g.components := by
  have hmem := Selector.markupClose_mem_components hclose
  rw [components, Component.flat_append, List.mem_append]
  rcases List.mem_cons.1 hs with rfl | hs
  · exact .inl hmem
  · right
    obtain ⟨front, back, hothers⟩ := List.append_of_mem hs
    rw [hothers, moreComponents, List.flatMap_append, List.flatMap_cons, Component.flat_append, Component.flat_append,
      Component.flat_cons_ofToken, Component.flat_cons_ofToken]
    exact List.mem_append_right _
      (List.mem_append_left _ (List.mem_cons_of_mem _ (List.mem_cons_of_mem _ hmem)))

/-- A plain group that can be told from its text splits into its own tokens if no dashes close markup,
and otherwise has the end of markup among its tokens. -/
theorem splits_iff {g : Group} (h : ∀ s ∈ g.members, s.IsPlain) (hlegible : ∀ s ∈ g.members, s.printed.Legible) :
    uncommented ((Lexeme.ofChars g.css.toList).map Lexeme.token) = g.tokens ↔
      ∀ s ∈ g.members, s.closesMarkup = false := by
  rw [← Component.flat_ofChars, ofChars_css hlegible]
  constructor
  · intro hsplits s hs
    cases hclose : s.closesMarkup with
    | false => rfl
    | true =>
      refine absurd ?_ (markupClose_not_mem_tokens h)
      rw [← hsplits]
      exact List.mem_filter.2 ⟨markupClose_mem_components hs hclose, rfl⟩
  · intro hopen
    obtain ⟨hfirst, hothers⟩ := List.forall_mem_cons.1 h
    obtain ⟨hfirstOpen, hothersOpen⟩ := List.forall_mem_cons.1 hopen
    rw [components, Component.flat_append, uncommented_append, g.first.uncommented_components hfirst hfirstOpen,
      uncommented_more hothers hothersOpen]
    rfl

end Group

/-! ## Groups that were read -/

theorem Grammar.Prefix.printed {ts : List Token} {ns : Namespace} (h : Prefix ts ns) (hts : ∀ t ∈ ts, t.Clean) :
    ns.printed = ns := by
  cases h with
  | absent | any => rfl
  | named label =>
    have hlabel : IsName label := hts _ (List.mem_cons_self ..)
    exact (show (Namespace.named label).Legible from hlabel).printed

/-- Where types are in any namespace unless one is written, a part is printed as it is. -/
theorem Grammar.hereditary_printed {P : Type} :
    Hereditary .any (Node.Clean (P := P)) fun s => s.printed = s where
  inside := by
    intro n name hn _
    rw [← Cursor.rest_inside]
    exact Node.cleanAll_iff.1 (Cursor.clean_inside hn)
  bare := by
    intro n s _ hs
    generalize n.token = t at hs
    cases hs <;> rfl
  part := by
    intro xs s hxs hs
    cases hs with
    | type hns name htokens =>
      have hclean : ∀ t ∈ xs.map Node.token, t.Clean := List.forall_mem_map.2 fun n hn => (hxs n hn).token
      rw [htokens] at hclean
      rw [Simple.printed, hns.printed (List.forall_mem_append.1 hclean).1]
    | universal | pseudoClass | attr => split <;> rfl
    | _ => rfl
  nothing := rfl
  negation := fun hs _ => congrArg Simple.negation hs

namespace Group

/-- A group that was read and has no arguments in it splits into its own tokens exactly if no two dashes
in it come before `>`. -/
theorem splits_iff_of_parse {text : String} {g : Group} (h : (Group.parse text).result = .ok g)
    (hplain : ∀ s ∈ g.members, ∀ p ∈ s.parts, p.hasFunction = false) :
    uncommented ((Lexeme.ofChars g.css.toList).map Lexeme.token) = g.tokens ↔
      ∀ s ∈ g.members, s.closesMarkup = false := by
  have hclean := Node.cleanAll_iff.1 (Cursor.clean_ofChars text.toList)
  have hprinted := Grammar.hereditary_printed.of_group (Report.result_of_toParsed h) hclean
  have hreadable := readable_of_parse h fun s hs p hp => Simple.isClosed_of_hasFunction (hplain s hs p hp)
  exact splits_iff (fun s hs p hp => ⟨hplain s hs p hp, hprinted s hs p hp⟩) hreadable.legible

theorem splits_iff_dashedParent :
    (Group.parse "-- > a").result = .ok dashedParent ∧
      (uncommented ((Lexeme.ofChars dashedParent.css.toList).map Lexeme.token) = dashedParent.tokens ↔
        ∀ s ∈ dashedParent.members, s.closesMarkup = false) :=
  ⟨parse_dashedParent, splits_iff_of_parse parse_dashedParent (by decide)⟩

/-- `-- > a` has three tokens, and its text `-->a` two. -/
theorem not_splits_dashedParent :
    (Group.parse "-- > a").result = .ok dashedParent ∧
      (∀ s ∈ dashedParent.members, ∀ p ∈ s.parts, p.hasFunction = false) ∧
      dashedParent.tokens = [.ident "--", .delim '>', .ident "a"] ∧
      uncommented ((Lexeme.ofChars dashedParent.css.toList).map Lexeme.token) = [.markupClose, .ident "a"] ∧
      uncommented ((Lexeme.ofChars dashedParent.css.toList).map Lexeme.token) ≠ dashedParent.tokens :=
  ⟨parse_dashedParent, by decide, by decide, by decide +kernel, by decide +kernel⟩

end Group

end StyleSelectors
