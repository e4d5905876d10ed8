/-
What is missing in a text that is refused. A combinator is without a right operand exactly where a piece
has the tokens of a selector and then the sign of one; and a selector is empty exactly where a piece is
blank, or where it is read up to a negation of nothing (`Group.missing_of_parse`).
-/
import StyleSelectors.Proofs.Grammar.Causes
import StyleSelectors.Proofs.Grammar.Denoted
import StyleSelectors.Proofs.Grammar.ErrorPlaces
import StyleSelectors.Proofs.Grammar.Shape
import StyleSelectors.Proofs.Token.Sign

namespace StyleSelectors

open Text Grammar

/-! ## Before a sign -/

namespace Component

/-- What comes before the sign of a combinator outside all blocks reads by itself as within the text. -/
theorem ofChars_before_sign {text : List Char} {front back : List Component} {x : Lexeme} {link : Combinator}
    (h : ofChars text = front ++ .leaf x :: back) (hx : Sign x.token link) : ofChars (chars front) = front := by
  obtain ⟨c, hc, htoken⟩ : ∃ c ∈ ['>', '+', '~'], x.token = .delim c := by
    generalize x.token = t at hx
    cases hx <;> exact ⟨_, by decide, rfl⟩
  rw [ofChars, chars, Lexeme.ofChars_before_sign hc htoken (lexemes_of_leaf h),
    ofLexemes_lexemesOf (wholeAll_of_append h)]

end Component

namespace Node

theorem not_opens_of_sign {t : Token} {link : Combinator} (h : Sign t link) : t.opens?.isSome = false := by
  cases h <;> rfl

/-- A component is at most one node, and only a leaf is one with the token of a sign. -/
theorem ofComponents_singleton (p : Position) {c : Component} (hc : c.Headed) :
    (ofComponents p [c]).1 = [] ∨ ∃ n, (ofComponents p [c]).1 = [n] ∧
      ∀ link, Sign n.token link → ∃ x, c = .leaf x ∧ x.token = n.token := by
  cases c with
  | leaf x =>
    simp only [ofComponents]
    split
    · exact .inl rfl
    · exact .inr ⟨_, rfl, fun _ _ => ⟨x, rfl, rfl⟩⟩
  | block head inside close =>
    simp only [ofComponents]
    refine .inr ⟨_, rfl, fun link hsign => ?_⟩
    have hopen : head.token.opens?.isSome = false := not_opens_of_sign hsign
    rw [Component.Headed, hopen] at hc
    cases hc.1

/-- The nodes before a sign are those of the components before it. -/
theorem exists_components_before_sign {p : Position} {cs : List Component} {xs ys : List (Node Position)}
    {n : Node Position} {link : Combinator} (hn : Sign n.token link) (hheaded : Component.HeadedAll cs)
    (h : (ofComponents p cs).1 = xs ++ n :: ys) :
    ∃ front x back, cs = front ++ .leaf x :: back ∧ x.token = n.token ∧ (ofComponents p front).1 = xs := by
  induction cs generalizing p xs with
  | nil =>
    rw [ofComponents] at h
    cases xs <;> cases h
  | cons c cs ih =>
    rw [Component.HeadedAll] at hheaded
    have hfirst (ds : List Component) : ofComponents p (c :: ds) = _ := ofComponents_append p [c] ds
    rw [hfirst] at h
    rcases ofComponents_singleton p hheaded.1 with hnone | ⟨m, hm, hsign⟩
    · rw [hnone] at h
      obtain ⟨front, x, back, rfl, hx, hfront⟩ := ih hheaded.2 h
      exact ⟨c :: front, x, back, rfl, hx, by rw [hfirst, hnone, hfront]; rfl⟩
    · rw [hm] at h
      cases xs with
      | nil =>
        obtain ⟨rfl, -⟩ := List.cons.inj h
        obtain ⟨x, rfl, hx⟩ := hsign link hn
        exact ⟨[], x, cs, rfl, hx, by rw [ofComponents]⟩
      | cons k xs =>
        obtain ⟨rfl, hmore⟩ := List.cons.inj h
        obtain ⟨front, x, back, rfl, hx, hfront⟩ := ih hheaded.2 hmore
        exact ⟨c :: front, x, back, rfl, hx, by rw [hfirst, hm, hfront]; rfl⟩

/-- Nodes are blank where all that they were read from is blanks and comments. -/
theorem blank_ofComponents_iff (p : Position) {cs : List Component} (hheaded : Component.HeadedAll cs) :
    Blank ((ofComponents p cs).1.map token) ↔
      ∀ x ∈ Component.lexemesOf cs, x.token.isWhitespace = true ∨ x.token.isComment = true := by
  fun_induction ofComponents p cs with
  | case1 => exact iff_of_true (List.forall_mem_nil _) (List.forall_mem_nil _)
  | case2 p x rest q more ih =>
    rw [Component.HeadedAll] at hheaded
    rw [Component.lexemesOf, Component.lexemes, List.singleton_append, List.forall_mem_cons, ← ih hheaded.2]
    split
    · next hcomment => exact (and_iff_right (.inr hcomment)).symm
    · next hcomment =>
      rw [List.map_cons, blank_iff, List.forall_mem_cons, or_iff_left hcomment, ← blank_iff]
      rfl
  | case3 p head inside close rest q within r more _ _ ih =>
    rw [Component.HeadedAll, Component.Headed] at hheaded
    -- what opens a block is neither
    have hhead : ¬ (head.token.isWhitespace = true ∨ head.token.isComment = true) := by
      rintro hneither
      cases htoken : head.token with
      | whitespace text | comment text =>
        rw [htoken] at hheaded
        cases hheaded.1.1
      | _ =>
        rw [htoken] at hneither
        rcases hneither with h | h <;> cases h
    refine iff_of_false (fun h => hhead (.inl ?_)) fun h => hhead ?_
    · exact blank_iff.1 h head.token (List.mem_cons_self ..)
    · exact h head (List.mem_cons_self ..)

end Node

/-! ## Texts -/

namespace Cursor

variable {text : List Char} {f : Failure Position}

/-- Whether a text, its comments aside, has the tokens of a selector that is read, blocks with all that is
in them, then the sign of a combinator, and then blanks. -/
def EndsInSign (text : List Char) : Prop :=
  ∃ (accepted : String) (s : Selector) (xs : List (Node Position)) (n : Node Position) (link : Combinator)
    (b : List (Node Position)), (Selector.parse accepted).result = .ok s ∧
      (ofChars text).rest = xs ++ n :: b ∧ Node.shapes xs = Node.shapes (ofChars accepted.toList).rest ∧
      Sign n.token link ∧ Blank (b.map Node.token)

/-- Whether a text is read up to a negation of nothing, whose blanks end at a place. -/
def HollowAt (text : List Char) (p : Position) : Prop :=
  ∃ a xs, (ofChars text).rest = a ++ xs ∧ Blank (a.map Node.token) ∧ HollowChain .any xs p

/-- What is before a sign is a text of its own. -/
theorem exists_ofChars_before_sign {xs ys : List (Node Position)} {n : Node Position} {link : Combinator}
    (h : (ofChars text).rest = xs ++ n :: ys) (hn : Sign n.token link) : ∃ u : List Char, (ofChars u).rest = xs := by
  obtain ⟨front, x, back, htext, hx, hfront⟩ :=
    Node.exists_components_before_sign hn (Component.headedAll_ofChars text) h
  refine ⟨Component.chars front, ?_⟩
  rw [ofChars, Component.ofChars_before_sign htext (hx.symm ▸ hn)]
  exact hfront

theorem dangles_iff_endsInSign (text : List Char) :
    Dangles .any (ofChars text).skipSpace.rest ↔ EndsInSign text := by
  obtain ⟨a, ha, hskip⟩ := (ofChars text).exists_blank_skipSpace
  constructor
  · rintro ⟨ys, x, n, link, b, hrest, hx, hn, hb⟩
    rw [hrest, ← List.append_assoc] at hskip
    obtain ⟨u, hu⟩ := exists_ofChars_before_sign hskip hn
    have hread : ((ofChars u).selector (Options.locate {}) .any).result = .ok (x.denoted (Options.locate {})) :=
      selector_of_denotes ⟨a, ys, x, hu, ha, hx, rfl⟩
    have hparse : (Selector.parse (String.ofList u)).result = .ok (x.denoted (Options.locate {})) := by
      rw [Selector.parse_result, String.toList_ofList, hread]
      rfl
    exact ⟨_, _, a ++ ys, n, link, b, hparse, hskip, by rw [String.toList_ofList, hu], hn, hb⟩
  · rintro ⟨accepted, s, xs, n, link, b, hs, htext, hshapes, hn, hb⟩
    obtain ⟨c, ys, x, haccepted, hc, hx, -⟩ := denotes_of_selector (Report.result_of_toParsed hs)
    rw [haccepted] at hshapes
    obtain ⟨c', ys', rfl, hc', hys⟩ := Node.of_shapes_append hshapes
    obtain ⟨y, hy⟩ := hx.of_shape hys
    obtain ⟨m, rest, rfl, hm⟩ := hy.startsPart
    have htext : (ofChars text).rest = c' ++ m :: (rest ++ n :: b) := htext.trans (List.append_assoc ..)
    exact ⟨_, y, n, link, b, rest_skipSpace_of_blank_cons htext (blank_of_shape hc hc') hm.not_whitespace, hy, hn, hb⟩

theorem blank_iff (text : List Char) :
    (ofChars text).skipSpace.rest = [] ↔
      ∀ x ∈ Lexeme.ofChars text, x.token.isWhitespace = true ∨ x.token.isComment = true := by
  rw [← Component.lexemesOf_ofLexemes (Lexeme.ofChars text), ← Component.ofChars,
    ← Node.blank_ofComponents_iff .start (Component.headedAll_ofChars text)]
  obtain ⟨a, ha, hskip⟩ := (ofChars text).exists_blank_skipSpace
  constructor
  · intro h
    rw [h, List.append_nil] at hskip
    rw [← hskip] at ha
    exact ha
  · intro h
    exact rest_skipSpace_eq_nil h

theorem hollowChain_iff_hollowAt (text : List Char) (p : Position) :
    HollowChain .any (ofChars text).skipSpace.rest p ↔ HollowAt text p := by
  constructor
  · intro h
    obtain ⟨a, ha, hskip⟩ := (ofChars text).exists_blank_skipSpace
    exact ⟨a, _, hskip, ha, h⟩
  · rintro ⟨a, xs, htext, ha, hxs⟩
    obtain ⟨m, rest, rfl, hm⟩ := hxs.startsPart
    rw [rest_skipSpace_of_blank_cons htext ha hm.not_whitespace]
    exact hxs

/-- What is missing in a text that is refused as a selector. -/
theorem missing_of_selector (h : ((ofChars text).selector (Options.locate {}) .any).result = .error f) :
    (f.cause = .danglingCombinator ↔ EndsInSign text) ∧
      (f.cause = .emptySelector ↔
        (∀ x ∈ Lexeme.ofChars text, x.token.isWhitespace = true ∨ x.token.isComment = true) ∨ HollowAt text f.place) := by
  have hread := complex_of_selector_error h
  rw [← dangles_iff_endsInSign, ← blank_iff, ← hollowChain_iff_hollowAt]
  constructor
  · constructor
    · intro hcause
      rcases missing_of_complex hread with htoken | ⟨hempty, -⟩ | ⟨-, hdangles⟩
      · rw [hcause] at htoken
        cases htoken
      · cases hcause.symm.trans hempty
      · exact hdangles
    · intro hdangles
      obtain ⟨p, hp⟩ := complex_of_dangles hdangles
      cases hread.symm.trans hp
      rfl
  · constructor
    · intro hcause
      rcases missing_of_complex hread with htoken | ⟨-, hempty⟩ | ⟨hdangling, -⟩
      · rw [hcause] at htoken
        cases htoken
      · exact hempty
      · cases hcause.symm.trans hdangling
    · rintro (hnil | hhollow)
      · cases hread.symm.trans (complex_of_nil hnil)
        rfl
      · rw [← Except.error.inj ((complex_of_hollow hhollow rfl).symm.trans hread)]

end Cursor

/-! ## Groups -/

/-- A group is refused for its first piece that is no selector, and what is missing, if something is, can
be seen from this piece: the right operand of a combinator where the piece is a selector with a sign
after it, and a selector where the piece is blank, or where it is read up to a negation of nothing. -/
theorem Group.missing_of_parse {text : String} {e : ParseError} (h : (Group.parse text).result = .error e) :
    ∃ front piece back f, pieces text.toList = front ++ piece :: back ∧
      (∀ before ∈ front, ∃ s, (Selector.parse (String.ofList before)).result = .ok s) ∧
      ((Cursor.ofChars piece).selector (Options.locate {}) .any).result = .error f ∧
      (Selector.parse (String.ofList piece)).result = .error (f.toError {} piece) ∧
      f.cause = e.cause ∧
      (e.cause = .danglingCombinator ↔ Cursor.EndsInSign piece) ∧
      (e.cause = .emptySelector ↔
        (∀ x ∈ Lexeme.ofChars piece, x.token.isWhitespace = true ∨ x.token.isComment = true) ∨
          Cursor.HollowAt piece f.place) := by
  have houtcome := outcome_parse text
  rw [h] at houtcome
  obtain ⟨front, piece, back, hpieces, hfront, hpiece⟩ := first_error_of_mapM houtcome.symm
  obtain ⟨e', he', hcause⟩ := Selector.outcome_eq_error.1 hpiece
  obtain ⟨f, hf, rfl⟩ := Report.exists_failure_of_toParsed he'
  rw [String.toList_ofList] at hf he'
  have hmissing := Cursor.missing_of_selector hf
  rw [show f.cause = e.cause from hcause] at hmissing
  refine ⟨front, piece, back, f, hpieces, fun before hbefore => ?_, hf, he', hcause, hmissing.1, hmissing.2⟩
  obtain ⟨t, ht⟩ := hfront before hbefore
  obtain ⟨s, hs, -⟩ := Selector.outcome_eq_ok.1 ht
  exact ⟨s, hs⟩

namespace Group

/-- The nodes of `a`, and after a comma those of `b>`, of `:not(:not(/**/ ))`, and of ` +`. -/
def hollowNodes : List (Node Position) × List (Node Position) × List (Node Position) × List (Node Position) :=
  ([.leaf (.ident "a") ⟨0, 0, 1⟩ ⟨1, 0, 2⟩],
    [.leaf (.ident "b") ⟨2, 0, 3⟩ ⟨3, 0, 4⟩, .leaf (.delim '>') ⟨3, 0, 4⟩ ⟨4, 0, 5⟩],
    [.leaf .colon ⟨4, 0, 5⟩ ⟨5, 0, 6⟩,
      .block (.function "not") ⟨5, 0, 6⟩ ⟨9, 0, 10⟩
        [.leaf .colon ⟨9, 0, 10⟩ ⟨10, 0, 11⟩,
          .block (.function "not") ⟨10, 0, 11⟩ ⟨14, 0, 15⟩ [.leaf (.whitespace " ") ⟨18, 0, 19⟩ ⟨19, 0, 20⟩]
            ⟨19, 0, 20⟩ ⟨20, 0, 21⟩ [.leaf ⟨.comment "", ['/', '*', '*', '/']⟩, .leaf ⟨.whitespace " ", [' ']⟩]]
        ⟨20, 0, 21⟩ ⟨21, 0, 22⟩
        [.leaf ⟨.colon, [':']⟩,
          .block ⟨.function "not", ['n', 'o', 't', '(']⟩
            [.leaf ⟨.comment "", ['/', '*', '*', '/']⟩, .leaf ⟨.whitespace " ", [' ']⟩]
            (some ⟨.closing .round, [')']⟩)]],
    [.leaf (.whitespace " ") ⟨21, 0, 22⟩ ⟨22, 0, 23⟩, .leaf (.delim '+') ⟨22, 0, 23⟩ ⟨23, 0, 24⟩])

theorem parse_hollow :
    (Group.parse "a,b>:not(:not(/**/ )) +").result = .error ⟨.emptySelector, ⟨19, 1, 20, none⟩⟩ := by
  have hlexemes : Lexeme.ofChars "a,b>:not(:not(/**/ )) +".toList =
      [⟨.ident "a", ['a']⟩, ⟨.comma, [',']⟩, ⟨.ident "b", ['b']⟩, ⟨.delim '>', ['>']⟩, ⟨.colon, [':']⟩,
        ⟨.function "not", ['n', 'o', 't', '(']⟩, ⟨.colon, [':']⟩, ⟨.function "not", ['n', 'o', 't', '(']⟩,
        ⟨.comment "", ['/', '*', '*', '/']⟩, ⟨.whitespace " ", [' ']⟩, ⟨.closing .round, [')']⟩,
        ⟨.closing .round, [')']⟩, ⟨.whitespace " ", [' ']⟩, ⟨.delim '+', ['+']⟩] := by
    decide +kernel
  have hnodes : Cursor.ofChars "a,b>:not(:not(/**/ )) +".toList =
      ⟨.start, hollowNodes.1 ++ .leaf .comma ⟨1, 0, 2⟩ ⟨2, 0, 3⟩ ::
        (hollowNodes.2.1 ++ hollowNodes.2.2.1 ++ hollowNodes.2.2.2), ⟨23, 0, 24⟩⟩ :=
    Cursor.ofChars_of_lexemes hlexemes
      (show _ = [.leaf _, .leaf _, .leaf _, .leaf _, .leaf _, .block _ [.leaf _, .block _ [.leaf _, .leaf _] _] _,
        .leaf _, .leaf _] from rfl)
      (by simp only [Node.ofComponents]; rfl)
  have hfirst : Denotes .any (Options.locate {}) hollowNodes.1 (.simple (.type ⟨.any, "a"⟩)) :=
    denotes_of_parts (.bare (.type "a") .nil .nil)
  have hinner : HollowParts .any (Node.inside hollowNodes.2.2.1[1]) (⟨19, 0, 20⟩ : Position) :=
    .blank .nil ⟨rfl, "not", rfl, toLower_not⟩ (List.forall_mem_singleton.2 ⟨" ", rfl⟩)
  have hparts : HollowParts .any ([] ++ hollowNodes.2.2.1[0] :: hollowNodes.2.2.1[1] :: hollowNodes.2.2.2)
      (⟨19, 0, 20⟩ : Position) :=
    .within (a := []) .nil ⟨rfl, "not", rfl, toLower_not⟩ rfl (List.forall_mem_nil _) hinner
  have hparent : Parts .any (hollowNodes.2.1.take 1) [.type ⟨.any, "b"⟩] := .bare (.type "b") .nil .nil
  have hsign : Link ((hollowNodes.2.1.drop 1).map Node.token) .child :=
    .sign (a := []) (b := []) (List.forall_mem_nil _) .child (List.forall_mem_nil _)
  have hsecond : (Cursor.selector (Options.locate {}) .any
      ⟨⟨2, 0, 3⟩, hollowNodes.2.1 ++ hollowNodes.2.2.1 ++ hollowNodes.2.2.2, ⟨23, 0, 24⟩⟩).result =
        .error ⟨.emptySelector, ⟨19, 0, 20⟩⟩ :=
    congrArg Report.result (Report.bind_of_error (Cursor.complex_of_hollow (.link hparent hsign (.compound hparts)) rfl))
  exact parse_of_failure (o := {}) hnodes (show _ = [_] ++ _ :: [] from rfl)
    (List.forall_mem_singleton.2 ⟨_, Cursor.selector_of_denotes hfirst⟩) hsecond

/-- The second piece is read up to the inner negation, and so its sign at the end is not what counts. -/
theorem missing_of_parse_hollow :
    (Group.parse "a,b>:not(:not(/**/ )) +").result = .error ⟨.emptySelector, ⟨19, 1, 20, none⟩⟩ ∧
      ∃ piece ∈ pieces "a,b>:not(:not(/**/ )) +".toList, ¬ Cursor.EndsInSign piece ∧
        ((∀ x ∈ Lexeme.ofChars piece, x.token.isWhitespace = true ∨ x.token.isComment = true) ∨
          ∃ p, Cursor.HollowAt piece p) := by
  refine ⟨parse_hollow, ?_⟩
  obtain ⟨front, piece, back, f, hpieces, -, -, -, -, hdangles, hempty⟩ := missing_of_parse parse_hollow
  refine ⟨piece, by rw [hpieces]; exact List.mem_append_right _ (List.mem_cons_self ..), ?_, ?_⟩
  · intro hsign
    cases hdangles.2 hsign
  · exact (hempty.1 rfl).imp_right fun h => ⟨_, h⟩

end Group

end StyleSelectors
