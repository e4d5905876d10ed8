/-
Where the operands of a selector were written. The nodes of a text start at its lexemes, each after the
one before it (`Node.inOrder_ofComponents`), and what is written between combinators starts at some of
these nodes, in order (`Grammar.Chain.places_sublist`). A tree takes over the places of the compounds
that it is made of: that of the compound on the left of a combinator for this combinator, and that of the
subject for all that joins parts of the subject (`Complex.isTraced_denoted`). So the locators of a group
are all there and in the order of the text: `Group.traced_of_parse`.
-/
import StyleSelectors.Proofs.Grammar.Denoted
import StyleSelectors.Proofs.Grammar.ErrorPlaces

namespace StyleSelectors

open Text Grammar

variable {P : Type}

/-! ## Lexemes in a text -/

/-- Whether a lexeme comes in a text at a place. -/
def Lexeme.StandsAt (cs : List Char) (x : Lexeme) (p : Position) : Prop :=
  ∃ front back, ofChars cs = front ++ x :: back ∧ p = Position.start.advance (chars front)

namespace Lexeme

variable {cs : List Char} {x : Lexeme} {front back : List Lexeme} {p : Position}

theorem offset_start_advance (cs : List Char) : (Position.start.advance cs).offset = byteLength cs := by
  rw [Position.advance_offset]
  exact Nat.zero_add _

/-- No lexeme is empty. -/
theorem byteLength_text_pos (h : ofChars cs = front ++ x :: back) : 0 < byteLength x.text := by
  obtain ⟨c, u, htext, -, -, -⟩ := ofChars_eq_cons (ofChars_suffix h)
  rw [htext, byteLength_cons]
  exact Nat.add_pos_left c.utf8Size_pos _

theorem byteLength_chars_lt (h : ofChars cs = front ++ x :: back) (mid : List Lexeme) :
    byteLength (chars front) < byteLength (chars (front ++ x :: mid)) := by
  have hpos := byteLength_text_pos h
  rw [chars_append, byteLength_append, show chars (x :: mid) = x.text ++ chars mid from List.flatMap_cons,
    byteLength_append]
  omega

theorem StandsAt.offset_lt (h : x.StandsAt cs p) : p.offset < byteLength cs := by
  obtain ⟨front, back, hcs, rfl⟩ := h
  have hlt := byteLength_chars_lt hcs back
  rwa [← hcs, chars_ofChars, ← offset_start_advance] at hlt

end Lexeme

/-! ## Nodes in order -/

namespace Node

/-- Whether nodes start at lexemes of a text, in order, and no earlier than after `lo` bytes. -/
structure InOrder (cs : List Char) (lo : Nat) (ns : List (Node Position)) : Prop where
  standsAt : ∀ n ∈ ns, ∃ x : Lexeme, x.StandsAt cs n.start ∧ x.token = n.token
  le_offset : ∀ n ∈ ns, lo ≤ n.start.offset
  increasing : ns.Pairwise fun m n => m.start.offset < n.start.offset

namespace InOrder

variable {cs : List Char} {lo lo' : Nat} {n : Node Position} {ns : List (Node Position)}

theorem nil : InOrder cs lo [] := ⟨List.forall_mem_nil _, List.forall_mem_nil _, .nil⟩

theorem mono (h : InOrder cs lo' ns) (hle : lo ≤ lo') : InOrder cs lo ns :=
  ⟨h.standsAt, fun n hn => hle.trans (h.le_offset n hn), h.increasing⟩

theorem cons (h : InOrder cs lo' ns) (hlt : lo < lo') (hlo : n.start.offset = lo)
    (hn : ∃ x : Lexeme, x.StandsAt cs n.start ∧ x.token = n.token) : InOrder cs lo (n :: ns) where
  standsAt := List.forall_mem_cons.2 ⟨hn, h.standsAt⟩
  le_offset := List.forall_mem_cons.2 ⟨hlo.ge, (h.mono hlt.le).le_offset⟩
  increasing := List.pairwise_cons.2 ⟨fun m hm => hlo ▸ hlt.trans_le (h.le_offset m hm), h.increasing⟩

end InOrder

/-- Reading components that come after some lexemes goes on to the place after their own. -/
theorem ofComponents_snd {cs : List Char} {comps : List Component} {front back : List Lexeme}
    (h : Lexeme.ofChars cs = front ++ (Component.lexemesOf comps ++ back)) :
    (ofComponents (Position.start.advance (Lexeme.chars front)) comps).2 =
      Position.start.advance (Lexeme.chars (front ++ Component.lexemesOf comps)) := by
  obtain ⟨ns, hns⟩ := exists_stops comps h
  rw [hns]

/-- The nodes of components that come after some lexemes are in order. -/
theorem inOrder_ofComponents {cs : List Char} : ∀ (comps : List Component) {front back : List Lexeme},
    Lexeme.ofChars cs = front ++ (Component.lexemesOf comps ++ back) →
      InOrder cs (byteLength (Lexeme.chars front)) (ofComponents (Position.start.advance (Lexeme.chars front)) comps).1
  | [], _, _, _ => by
    rw [ofComponents]
    exact .nil
  | .leaf x :: rest, front, back, h => by
    obtain ⟨hx, hrest⟩ := Component.cuts_of_leaf h
    have hmore := inOrder_ofComponents rest hrest
    have hlt := Lexeme.byteLength_chars_lt hx []
    rw [← Lexeme.advance_chars hx, Lexeme.chars_singleton] at hmore
    rw [ofComponents]
    dsimp only
    split
    · exact hmore.mono hlt.le
    · exact hmore.cons hlt (Lexeme.offset_start_advance _) ⟨x, ⟨front, _, hx, rfl⟩, rfl⟩
  | .block head inside close :: rest, front, back, h => by
    obtain ⟨hhead, hinside, hclose, hrest⟩ := Component.cuts_of_block h
    have hmore := inOrder_ofComponents rest hrest
    have hlt := Lexeme.byteLength_chars_lt hhead (Component.lexemesOf inside ++ close.toList)
    have hq := Lexeme.advance_chars hhead
    rw [Lexeme.chars_singleton] at hq
    rw [ofComponents, hq, ofComponents_snd hinside]
    dsimp only
    rw [Lexeme.advance_chars hclose]
    rw [show front ++ head :: (Component.lexemesOf inside ++ close.toList) =
      front ++ [head] ++ Component.lexemesOf inside ++ close.toList by simp] at hlt
    exact hmore.cons hlt (Lexeme.offset_start_advance _) ⟨head, ⟨front, _, hhead, rfl⟩, rfl⟩

end Node

/-! ## Stretches in order -/

namespace Cursor

theorem inOrder_ofChars (cs : List Char) : Node.InOrder cs 0 (ofChars cs).rest := by
  have hcs : Lexeme.ofChars cs = [] ++ (Component.lexemesOf (Component.ofChars cs) ++ []) := by
    rw [List.append_nil, Component.ofChars, Component.lexemesOf_ofLexemes, List.nil_append]
  exact Node.inOrder_ofComponents _ hcs

/-- The stretches between commas hold the nodes ahead, without the commas. -/
theorem rests_pieces_sublist (here stop : P) (xs : List (Node P)) :
    ((pieces here stop xs).1.rest ++ (pieces here stop xs).2.flatMap rest).Sublist xs := by
  induction xs generalizing here with
  | nil => exact .slnil
  | cons n xs ih =>
    rw [pieces]
    split
    · exact (ih n.finish).cons n
    · exact (ih here).cons_cons n

theorem rests_stretches_sublist (c : Cursor P) : (c.stretches.flatMap rest).Sublist c.rest :=
  rests_pieces_sublist c.here c.stop c.rest

end Cursor

/-! ## Places of compounds -/

namespace Complex

/-- Where the compounds before the combinators start. -/
def leftPlaces : Complex P → List P
  | .subject _ => []
  | .link k _ rest => k.place :: rest.leftPlaces

/-- Where the last compound starts. -/
def subjectPlace : Complex P → P
  | .subject k => k.place
  | .link _ _ rest => rest.subjectPlace

/-- Where the compounds start. -/
def places (x : Complex P) : List P := x.leftPlaces ++ [x.subjectPlace]

end Complex

namespace Grammar.Chain

variable {ns : Namespace} {xs : List (Node P)} {x : Complex P}

/-- Compounds start where nodes do, in order. -/
theorem places_sublist (h : Chain ns xs x) : x.places.Sublist (xs.map Node.start) := by
  induction h with
  | subject => exact (List.nil_sublist _).cons_cons _
  | link _ _ _ ih =>
    rw [← List.append_assoc, List.map_append]
    exact (ih.trans (List.sublist_append_right _ _)).cons_cons _

/-- Compounds start with parts. -/
theorem startsPart_of_mem_places (h : Chain ns xs x) : ∀ p ∈ x.places, ∃ n ∈ xs, n.start = p ∧ n.token.StartsPart := by
  induction h with
  | subject hxs =>
    obtain ⟨n, rest, heq, hn⟩ := hxs.startsPart
    cases heq
    intro p hp
    cases List.mem_singleton.1 hp
    exact ⟨_, List.mem_cons_self .., rfl, hn⟩
  | link hxs _ _ ih =>
    obtain ⟨n, rest, heq, hn⟩ := hxs.startsPart
    cases heq
    refine List.forall_mem_cons.2 ⟨⟨_, List.mem_cons_self .., rfl, hn⟩, fun p hp => ?_⟩
    obtain ⟨m, hm, hstart⟩ := ih p hp
    exact ⟨m, List.mem_append_right _ (List.mem_append_right _ hm), hstart⟩

end Grammar.Chain

/-! ## Locators -/

namespace Selector

/-- The locators of what relates elements, from the outermost inwards. -/
def links : Selector → List (Option Locator)
  | .simple _ => []
  | .both _ second _ => second.links
  | .related _ _ second locator => locator :: second.links

/-- The locators of what joins simple selectors on one element, from the outermost inwards. -/
def joints : Selector → List (Option Locator)
  | .simple _ => []
  | .both _ second locator => locator :: second.joints
  | .related _ _ second _ => second.joints

/-- The offsets that locators tell. -/
def offsets (locators : List (Option Locator)) : List Nat := locators.filterMap fun l => l.map Locator.offset

theorem links_joined (l : Locator) (s : Simple) (ss : List Simple) : (Complex.joined l s ss).links = [] := by
  induction ss generalizing s with
  | nil => rfl
  | cons t ss ih => exact ih t

theorem joints_joined (l : Locator) (s : Simple) (ss : List Simple) :
    (Complex.joined l s ss).joints = List.replicate ss.length (some l) := by
  induction ss generalizing s with
  | nil => rfl
  | cons t ss ih => exact congrArg (some l :: ·) (ih t)

/-- Whether a selector has a locator wherever two operands meet, as the compounds of `x` have it: each
relation that of its left compound, and what is joined that of the subject. The compounds come one after
the other. -/
structure IsTraced (o : Options) (x : Complex Position) (s : Selector) : Prop where
  located : ∀ l ∈ s.links ++ s.joints, ∃ p ∈ x.places, l = some (o.locate p)
  increasing : (offsets s.links).Pairwise (· < ·)
  joined : ∀ i ∈ offsets s.joints, i = x.subjectPlace.offset
  lt_subject : ∀ i ∈ offsets s.links, i < x.subjectPlace.offset

theorem IsTraced.exists_place {o : Options} {x : Complex Position} {s : Selector} (h : s.IsTraced o x) :
    ∀ i ∈ offsets (s.links ++ s.joints), ∃ p ∈ x.places, p.offset = i := by
  intro i hi
  obtain ⟨l, hl, hoffset⟩ := List.mem_filterMap.1 hi
  obtain ⟨p, hp, rfl⟩ := h.located l hl
  exact ⟨p, hp, Option.some.inj hoffset⟩

end Selector

namespace Complex

open Selector (offsets)

variable {o : Options} {x : Complex Position}

theorem links_nested (locate : P → Locator) (x : Complex P) :
    (x.nested locate).links = x.leftPlaces.map fun p => some (locate p) := by
  induction x with
  | subject k => exact Selector.links_joined _ _ _
  | link k link rest ih => exact congrArg (some (locate k.place) :: ·) ih

theorem joints_nested (locate : P → Locator) (x : Complex P) :
    ∃ k, (x.nested locate).joints = List.replicate k (some (locate x.subjectPlace)) := by
  induction x with
  | subject k => exact ⟨_, Selector.joints_joined _ _ _⟩
  | link k link rest ih => exact ih

theorem offsets_links_nested (o : Options) (x : Complex Position) :
    offsets (x.nested o.locate).links = x.leftPlaces.map Position.offset := by
  rw [offsets, links_nested, List.filterMap_map]
  exact congrFun (List.filterMap_eq_map (f := Position.offset)) x.leftPlaces

/-- The tree of compounds that come one after the other. -/
theorem isTraced_nested (h : x.places.Pairwise fun p q => p.offset < q.offset) : (x.nested o.locate).IsTraced o x := by
  obtain ⟨k, hjoints⟩ := joints_nested o.locate x
  obtain ⟨hleft, -, hsubject⟩ := List.pairwise_append.1 h
  refine ⟨fun l hl => ?_, ?_, fun i hi => ?_, ?_⟩
  · rw [links_nested, hjoints] at hl
    rcases List.mem_append.1 hl with hl | hl
    · obtain ⟨p, hp, rfl⟩ := List.mem_map.1 hl
      exact ⟨p, List.mem_append_left _ hp, rfl⟩
    · exact ⟨_, List.mem_append_right _ (List.mem_singleton_self _), List.eq_of_mem_replicate hl⟩
  · rw [offsets_links_nested]
    exact List.pairwise_map.2 hleft
  · obtain ⟨l, hl, hi⟩ := List.mem_filterMap.1 hi
    rw [hjoints] at hl
    cases List.eq_of_mem_replicate hl
    exact (Option.some.inj hi).symm
  · rw [offsets_links_nested]
    exact List.forall_mem_map.2 fun p hp => hsubject p hp _ (List.mem_singleton_self _)

theorem isTraced_denoted (h : x.places.Pairwise fun p q => p.offset < q.offset) : (x.denoted o.locate).IsTraced o x := by
  rw [denoted]
  split
  · exact isTraced_nested h
  · exact ⟨List.forall_mem_nil _, .nil, List.forall_mem_nil _, List.forall_mem_nil _⟩

end Complex

/-! ## Groups -/

/-- Whether nodes are `x` as it is written, between blanks. -/
def Grammar.Spells (ns : Namespace) (xs : List (Node P)) (x : Complex P) : Prop :=
  ∃ a ys, xs = a ++ ys ∧ Blank (a.map Node.token) ∧ Chain ns ys x

/-- Whether a part of a selector starts at a place, after whole lexemes of the text, and not a blank or a
comment. -/
def StartsAt (cs : List Char) (p : Position) : Prop :=
  ∃ front y back, Lexeme.ofChars cs = front ++ y :: back ∧ p = Position.start.advance (Lexeme.chars front) ∧
    p.offset = byteLength (Lexeme.chars front) ∧ p.offset < byteLength cs ∧ y.token.StartsPart ∧
      y.token.isWhitespace = false ∧ y.token.isComment = false

theorem Token.StartsPart.not_comment {t : Token} (h : t.StartsPart) : t.isComment = false := by
  cases t with
  | comment _ => cases h
  | _ => rfl

namespace Grammar.Spells

variable {cs : List Char} {ns : Namespace} {xs : List (Node P)} {x : Complex P}

theorem places_sublist (h : Spells ns xs x) : x.places.Sublist (xs.map Node.start) := by
  obtain ⟨a, ys, rfl, -, hys⟩ := h
  rw [List.map_append]
  exact hys.places_sublist.trans (List.sublist_append_right _ _)

theorem startsAt {xs : List (Node Position)} {x : Complex Position} (h : Spells ns xs x)
    (hxs : ∀ n ∈ xs, ∃ y : Lexeme, y.StandsAt cs n.start ∧ y.token = n.token) : ∀ p ∈ x.places, StartsAt cs p := by
  intro p hp
  obtain ⟨a, ys, rfl, -, hys⟩ := h
  obtain ⟨n, hn, rfl, hstarts⟩ := hys.startsPart_of_mem_places p hp
  obtain ⟨y, hy, htoken⟩ := hxs n (List.mem_append_right _ hn)
  have hlt := hy.offset_lt
  obtain ⟨front, back, hcs, hplace⟩ := hy
  rw [← htoken] at hstarts
  exact ⟨front, y, back, hcs, hplace, by rw [hplace, Lexeme.offset_start_advance], hlt, hstarts,
    hstarts.not_whitespace, hstarts.not_comment⟩

end Grammar.Spells

/-- What holds of any two in order holds of what they are matched with. -/
theorem pairwise_of_forall₂ {α β : Type} {R : α → β → Prop} {S : α → α → Prop} {T : β → β → Prop}
    (hT : ∀ {a a' b b'}, R a b → R a' b' → S a a' → T b b') {as : List α} {bs : List β} (h : List.Forall₂ R as bs)
    (has : as.Pairwise S) : bs.Pairwise T := by
  obtain ⟨hlength, hR⟩ := List.forall₂_iff_get.1 h
  rw [List.pairwise_iff_getElem] at has ⊢
  intro i j hi hj hij
  have hi' : i < as.length := hlength ▸ hi
  have hj' : j < as.length := hlength ▸ hj
  exact hT (hR i hi' hi) (hR j hj' hj) (has i j hi' hj' hij)

/-- Whether a selector is what nodes of a text spell, and tells where it was written: each of its compounds
starts in the text at a part, and the combinators have the places of these. -/
def Selector.TracedIn (o : Options) (cs : List Char) (xs : List (Node Position)) (s : Selector) : Prop :=
  ∃ x, Spells o.defaultNamespace xs x ∧ x.denoted o.locate = s ∧ (∀ p ∈ x.places, StartsAt cs p) ∧ s.IsTraced o x

theorem Selector.TracedIn.exists_node {o : Options} {cs : List Char} {xs : List (Node Position)} {s : Selector}
    (h : s.TracedIn o cs xs) : ∀ i ∈ offsets (s.links ++ s.joints), ∃ n ∈ xs, n.start.offset = i := by
  obtain ⟨x, hx, -, -, hs⟩ := h
  intro i hi
  obtain ⟨p, hp, rfl⟩ := hs.exists_place i hi
  obtain ⟨n, hn, rfl⟩ := List.mem_map.1 (hx.places_sublist.subset hp)
  exact ⟨n, hn, rfl⟩

namespace Group

/-- All combinators of a group that is read have locators, and these tell where their compounds start in
the text: from the outside in those of relations go up and stay before the subject, which is where
everything else is told to be, and all of a member comes before all of the members after it. -/
theorem traced_of_parse {text : String} {o : Options} {g : Group} (h : (Group.parse text o).result = .ok g) :
    List.Forall₂ (fun d s => s.TracedIn o text.toList (Cursor.rest d)) (Cursor.ofChars text.toList).stretches g.members ∧
      g.members.Pairwise fun s t => ∀ i ∈ Selector.offsets (s.links ++ s.joints),
        ∀ j ∈ Selector.offsets (t.links ++ t.joints), i < j := by
  have horder := Cursor.inOrder_ofChars text.toList
  have hsub := (Cursor.ofChars text.toList).rests_stretches_sublist
  obtain ⟨hwithin, hbetween⟩ := List.pairwise_flatMap.1 (horder.increasing.sublist hsub)
  have hmembers : List.Forall₂ (fun d s => s.TracedIn o text.toList (Cursor.rest d))
      (Cursor.ofChars text.toList).stretches g.members := by
    refine List.Forall₂.imp ?_ ((List.forall₂_and_left ..).2 ⟨fun d hd => hd, (parse_eq_ok_iff.1 h).2⟩)
    rintro d s ⟨hd, a, ys, x, hrest, ha, hys, rfl⟩
    have hspells : Spells o.defaultNamespace d.rest x := ⟨a, ys, hrest, ha, hys⟩
    have hstarts : (d.rest.map Node.start).Pairwise fun p q => p.offset < q.offset := List.pairwise_map.2 (hwithin d hd)
    refine ⟨x, hspells, rfl, hspells.startsAt fun n hn => ?_, x.isTraced_denoted (hstarts.sublist hspells.places_sublist)⟩
    exact horder.standsAt n (hsub.subset (List.mem_flatMap.2 ⟨d, hd, hn⟩))
  refine ⟨hmembers, pairwise_of_forall₂ ?_ hmembers hbetween⟩
  intro d d' s t hs ht hbefore i hi j hj
  obtain ⟨m, hm, rfl⟩ := hs.exists_node i hi
  obtain ⟨n, hn, rfl⟩ := ht.exists_node j hj
  exact hbefore m hm n hn

/-- `ul > li.a` and `p`, as they are written in `ul > /**/li.a,p`. -/
def commentedItem : Group :=
  ⟨.related .child (.type ⟨.any, "ul"⟩)
      (.both (.type ⟨.any, "li"⟩) (.simple (.className "a")) (some ⟨9, 1, 10, none⟩)) (some ⟨0, 1, 1, none⟩),
    [.simple (.type ⟨.any, "p"⟩)], some ⟨0, 1, 1, none⟩⟩

/-- The nodes of `ul`, of what comes after it, and of `li.a`. -/
def commentedNodes : List (Node Position) × List (Node Position) × List (Node Position) :=
  ([.leaf (.ident "ul") ⟨0, 0, 1⟩ ⟨2, 0, 3⟩],
    [.leaf (.whitespace " ") ⟨2, 0, 3⟩ ⟨3, 0, 4⟩, .leaf (.delim '>') ⟨3, 0, 4⟩ ⟨4, 0, 5⟩,
      .leaf (.whitespace " ") ⟨4, 0, 5⟩ ⟨5, 0, 6⟩],
    [.leaf (.ident "li") ⟨9, 0, 10⟩ ⟨11, 0, 12⟩, .leaf (.delim '.') ⟨11, 0, 12⟩ ⟨12, 0, 13⟩,
      .leaf (.ident "a") ⟨12, 0, 13⟩ ⟨13, 0, 14⟩])

theorem parse_commentedItem : (Group.parse "ul > /**/li.a,p").result = .ok commentedItem := by
  have hlexemes : Lexeme.ofChars "ul > /**/li.a,p".toList =
      [⟨.ident "ul", ['u', 'l']⟩, ⟨.whitespace " ", [' ']⟩, ⟨.delim '>', ['>']⟩, ⟨.whitespace " ", [' ']⟩,
        ⟨.comment "", ['/', '*', '*', '/']⟩, ⟨.ident "li", ['l', 'i']⟩, ⟨.delim '.', ['.']⟩, ⟨.ident "a", ['a']⟩,
        ⟨.comma, [',']⟩, ⟨.ident "p", ['p']⟩] := by
    decide +kernel
  have hnodes : Cursor.ofChars "ul > /**/li.a,p".toList =
      ⟨.start, commentedNodes.1 ++ (commentedNodes.2.1 ++ commentedNodes.2.2) ++
        [.leaf .comma ⟨13, 0, 14⟩ ⟨14, 0, 15⟩, .leaf (.ident "p") ⟨14, 0, 15⟩ ⟨15, 0, 16⟩], ⟨15, 0, 16⟩⟩ :=
    Cursor.ofChars_of_lexemes hlexemes
      (show _ = [.leaf _, .leaf _, .leaf _, .leaf _, .leaf _, .leaf _, .leaf _, .leaf _, .leaf _, .leaf _] from rfl)
      (by simp only [Node.ofComponents]; rfl)
  have hlist : Parts .any commentedNodes.1 [.type ⟨.any, "ul"⟩] := .bare (.type "ul") NoBar.nil .nil
  have hmark : Parts .any (commentedNodes.2.2.drop 1 ++ []) [.className "a"] := .part (.className "a" rfl) .nil
  have hitem : Parts .any commentedNodes.2.2 [.type ⟨.any, "li"⟩, .className "a"] :=
    .bare (.type "li") (fun n hn => by cases hn; decide) hmark
  have hsign : Link (commentedNodes.2.1.map Node.token) .child :=
    .sign (a := [.whitespace " "]) (b := [.whitespace " "]) (List.forall_mem_singleton.2 ⟨" ", rfl⟩) .child
      (List.forall_mem_singleton.2 ⟨" ", rfl⟩)
  have hsubject := Chain.subject hitem (show Blank ([].map Node.token) from List.forall_mem_nil _)
  exact parse_of_nodes hnodes rfl (.cons ⟨[], _, _, rfl, List.forall_mem_nil _, .link hlist hsign hsubject, rfl⟩
    (.cons (denotes_of_parts (.bare (.type "p") NoBar.nil .nil)) .nil))

theorem traced_of_parse_commentedItem :
    (Group.parse "ul > /**/li.a,p").result = .ok commentedItem ∧
      List.Forall₂ (fun d s => s.TracedIn {} "ul > /**/li.a,p".toList (Cursor.rest d))
        (Cursor.ofChars "ul > /**/li.a,p".toList).stretches commentedItem.members :=
  ⟨parse_commentedItem, (traced_of_parse parse_commentedItem).1⟩

end Group

end StyleSelectors
