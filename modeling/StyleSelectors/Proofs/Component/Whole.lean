/-
Components with every block closed. They nest the same wherever they stand: what is read of them in
front of any text, with any blocks open, is they themselves (`nest_lexemesOf`). Reading a text gives
such components, but for the blocks that the end of the text closes (`wholeAll_of_closed`).
-/
import StyleSelectors.Component.Nesting
import StyleSelectors.Grammar.Node

namespace StyleSelectors

theorem Token.closes?_eq_some_iff {t : Token} {b : Bracket} : t.closes? = some b ↔ t = .closing b := by
  constructor
  · intro h
    cases t with
    | closing k => cases h; rfl
    | _ => cases h
  · rintro rfl
    rfl

theorem Token.opens?_of_closes? {t : Token} {b : Bracket} (h : t.closes? = some b) : t.opens? = none := by
  cases t <;> first | rfl | cases h

namespace Component

mutual

/-- Whether a component that stands in a block of bracket `b?`, if in any, has all its blocks closed, and
is no token that opens a block or closes that one. -/
def Whole (b? : Option Bracket) : Component → Prop
  | .leaf x => x.token.opens? = none ∧ ∀ b, x.token.closes? = some b → b? ≠ some b
  | .block head inside close =>
    ∃ b x, head.token.opens? = some b ∧ close = some x ∧ x.token.closes? = some b ∧ WholeAll (some b) inside

def WholeAll (b? : Option Bracket) : List Component → Prop
  | [] => True
  | c :: rest => Whole b? c ∧ WholeAll b? rest

end

theorem wholeAll_iff {b? : Option Bracket} {cs : List Component} : WholeAll b? cs ↔ ∀ c ∈ cs, Whole b? c := by
  induction cs with
  | nil => simp [WholeAll]
  | cons c cs ih => simp [WholeAll, ih]

theorem wholeAll_append {b? : Option Bracket} {cs ds : List Component} :
    WholeAll b? (cs ++ ds) ↔ WholeAll b? cs ∧ WholeAll b? ds := by
  simp only [wholeAll_iff, List.mem_append, or_imp, forall_and]

theorem wholeAll_reverse {b? : Option Bracket} {cs : List Component} :
    WholeAll b? cs.reverse ↔ WholeAll b? cs := by
  simp only [wholeAll_iff, List.mem_reverse]

/-! ## Nesting what is whole -/

/-- The bracket of the innermost open block. -/
def bracketOf : List OpenBlock → Option Bracket
  | [] => none
  | b :: _ => b.head.token.opens?

section Nest

variable {blocks : List OpenBlock} {done : List Component} {x : Lexeme} {rest : List Lexeme}

theorem nest_opening {b : Bracket} (h : x.token.opens? = some b) :
    nest blocks done (x :: rest) = nest (⟨x, done⟩ :: blocks) [] rest := by
  rw [nest.eq_def]
  dsimp only
  rw [if_pos (by rw [h]; rfl)]

theorem nest_leaf (hopen : x.token.opens? = none)
    (hclose : ∀ b, x.token.closes? = some b → bracketOf blocks ≠ some b) :
    nest blocks done (x :: rest) = nest blocks (.leaf x :: done) rest := by
  rw [nest.eq_def]
  dsimp only
  rw [if_neg (by simp [hopen])]
  cases blocks with
  | nil => rfl
  | cons b outer =>
    have hcloses : closes x b.head = false := by
      unfold closes
      split
      · next k hk => exact beq_eq_false_iff_ne.2 (hclose k hk)
      · rfl
    dsimp only
    rw [if_neg (by simp [hcloses])]

theorem nest_closing {head : Lexeme} {before : List Component} {b : Bracket}
    (hhead : head.token.opens? = some b) (h : x.token.closes? = some b) :
    nest (⟨head, before⟩ :: blocks) done (x :: rest) =
      nest blocks (.block head done.reverse (some x) :: before) rest := by
  rw [nest.eq_def]
  dsimp only
  rw [if_neg (by simp [Token.opens?_of_closes? h]), if_pos (by simp [closes, h, hhead])]

/-- A lexeme opens a block, closes the innermost of those that are open, or stands for itself. -/
theorem nest_cases (blocks : List OpenBlock) (x : Lexeme) :
    (∃ b, x.token.opens? = some b) ∨
      (∃ top outer b, blocks = top :: outer ∧ top.head.token.opens? = some b ∧ x.token.closes? = some b) ∨
      x.token.opens? = none ∧ ∀ b, x.token.closes? = some b → bracketOf blocks ≠ some b := by
  cases hopen : x.token.opens? with
  | some b => exact .inl ⟨b, rfl⟩
  | none =>
    -- a closing bracket other than that of the innermost block is a lexeme like any other
    by_cases hclose : ∃ b, x.token.closes? = some b ∧ bracketOf blocks = some b
    · obtain ⟨b, hx, hb⟩ := hclose
      cases blocks with
      | nil => cases hb
      | cons top outer => exact .inr (.inl ⟨top, outer, b, rfl, hb, hx⟩)
    · exact .inr (.inr ⟨rfl, fun b hx hb => hclose ⟨b, hx, hb⟩⟩)

end Nest

mutual

theorem nest_lexemes (c : Component) (blocks : List OpenBlock) (done : List Component) (rest : List Lexeme)
    (h : Whole (bracketOf blocks) c) : nest blocks done (c.lexemes ++ rest) = nest blocks (c :: done) rest := by
  match c with
  | .leaf x =>
    rw [Whole] at h
    exact nest_leaf h.1 h.2
  | .block head inside close =>
    rw [Whole] at h
    obtain ⟨b, x, hopen, rfl, hclose, hinside⟩ := h
    rw [lexemes, List.cons_append, List.cons_append, nest_opening hopen, List.append_assoc]
    have hin : WholeAll (bracketOf (⟨head, done⟩ :: blocks)) inside := by
      rw [bracketOf, hopen]
      exact hinside
    rw [nest_lexemesOf inside _ _ _ hin, Option.toList_some, List.singleton_append, List.append_nil,
      nest_closing hopen hclose, List.reverse_reverse]

/-- Reading on past components that are whole takes them in as they are. -/
theorem nest_lexemesOf (cs : List Component) (blocks : List OpenBlock) (done : List Component)
    (rest : List Lexeme) (h : WholeAll (bracketOf blocks) cs) :
    nest blocks done (lexemesOf cs ++ rest) = nest blocks (cs.reverse ++ done) rest := by
  match cs with
  | [] => rfl
  | c :: cs =>
    rw [WholeAll] at h
    rw [lexemesOf, List.append_assoc, nest_lexemes c _ _ _ h.1, nest_lexemesOf cs _ _ _ h.2,
      List.reverse_cons, List.append_assoc, List.singleton_append]

end

theorem ofLexemes_lexemesOf {cs : List Component} (h : WholeAll none cs) : ofLexemes (lexemesOf cs) = cs := by
  have := nest_lexemesOf cs [] [] [] h
  rw [List.append_nil, List.append_nil] at this
  rw [ofLexemes, this, nest, closeAll, List.reverse_reverse]

/-! ## What reading gives -/

/-- What holds of the blocks open at some point of reading. -/
def Held : List OpenBlock → List Component → Prop
  | [], done => WholeAll none done
  | b :: outer, done => (∃ k, b.head.token.opens? = some k ∧ WholeAll (some k) done) ∧ Held outer b.before

theorem held_cons {blocks : List OpenBlock} {done : List Component} {c : Component}
    (hc : Whole (bracketOf blocks) c) (h : Held blocks done) : Held blocks (c :: done) := by
  cases blocks with
  | nil => exact ⟨hc, h⟩
  | cons b outer =>
    obtain ⟨⟨k, hk, hdone⟩, houter⟩ := h
    rw [bracketOf, hk] at hc
    exact ⟨⟨k, hk, hc, hdone⟩, houter⟩

theorem held_nest {blocks : List OpenBlock} {done : List Component} (xs : List Lexeme) (h : Held blocks done) :
    ∃ blocks' done', nest blocks done xs = closeAll blocks' done' ∧ Held blocks' done' := by
  induction xs generalizing blocks done with
  | nil => exact ⟨blocks, done, by rw [nest], h⟩
  | cons x xs ih =>
    obtain ⟨b, hopen⟩ | ⟨top, outer, b, rfl, hb, hx⟩ | ⟨hopen, hleaf⟩ := nest_cases blocks x
    · rw [nest_opening hopen]
      exact ih ⟨⟨b, hopen, trivial⟩, h⟩
    · obtain ⟨⟨k, hk, hdone⟩, houter⟩ := h
      obtain rfl : k = b := Option.some.inj (hk.symm.trans hb)
      rw [nest_closing hk hx]
      refine ih (held_cons ?_ houter)
      rw [Whole]
      exact ⟨k, x, hk, rfl, hx, wholeAll_reverse.2 hdone⟩
    · rw [nest_leaf hopen hleaf]
      refine ih (held_cons ?_ h)
      rw [Whole]
      exact ⟨hopen, hleaf⟩

/-- With a block open at the end, the last component is one that nothing closes, and the others are
whole. -/
theorem closeAll_cons {b : OpenBlock} {outer : List OpenBlock} (h : Held outer b.before) (done : List Component) :
    ∃ cs head inside, closeAll (b :: outer) done = cs ++ [.block head inside none] ∧ WholeAll none cs := by
  induction outer generalizing b done with
  | nil =>
    refine ⟨b.before.reverse, b.head, done.reverse, ?_, wholeAll_reverse.2 h⟩
    rw [closeAll, closeAll, List.reverse_cons]
  | cons next outer ih =>
    rw [closeAll]
    exact ih h.2 _

/-- Whatever comes before another component is whole. -/
theorem wholeAll_of_append {xs : List Lexeme} {cs ds : List Component} {c : Component}
    (h : ofLexemes xs = cs ++ c :: ds) : WholeAll none cs := by
  have hstart : Held [] [] := trivial
  obtain ⟨blocks, done, hnest, hheld⟩ := held_nest xs hstart
  rw [ofLexemes, hnest] at h
  cases blocks with
  | nil =>
    have hwhole : WholeAll none (closeAll [] done) := wholeAll_reverse.2 hheld
    rw [h] at hwhole
    exact (wholeAll_append.1 hwhole).1
  | cons b outer =>
    -- only the outermost of the open blocks may not be whole, and nothing comes after it
    obtain ⟨es, head, inside, hclose, hes⟩ := closeAll_cons hheld.2 done
    rw [hclose] at h
    have hfront : cs <+: es := by
      refine List.prefix_of_prefix_length_le ⟨c :: ds, h.symm⟩ (List.prefix_append es _) ?_
      have := congrArg List.length h
      simp only [List.length_append, List.length_cons, List.length_nil] at this
      omega
    obtain ⟨more, rfl⟩ := hfront
    exact (wholeAll_append.1 hes).1

/-- A text whose last block is closed leaves no block open. -/
theorem wholeAll_of_closed {xs : List Lexeme} {cs : List Component} {head x : Lexeme}
    {inside : List Component} (h : ofLexemes xs = cs ++ [.block head inside (some x)]) :
    WholeAll none (ofLexemes xs) := by
  have hstart : Held [] [] := trivial
  obtain ⟨blocks, done, hnest, hheld⟩ := held_nest xs hstart
  rw [ofLexemes] at h ⊢
  cases blocks with
  | nil =>
    rw [hnest, closeAll]
    exact wholeAll_reverse.2 hheld
  | cons b outer =>
    -- the outermost of the open blocks would be the last component
    obtain ⟨ds, head', inside', hclose, -⟩ := closeAll_cons hheld.2 done
    rw [hnest, hclose] at h
    cases (List.append_inj' h rfl).2

end Component

/-! ## Nodes -/

namespace Node

open Text

theorem ofComponents_append (p : Position) (cs ds : List Component) :
    ofComponents p (cs ++ ds) =
      ((ofComponents p cs).1 ++ (ofComponents (ofComponents p cs).2 ds).1,
        (ofComponents (ofComponents p cs).2 ds).2) := by
  induction cs generalizing p with
  | nil => simp only [List.nil_append, ofComponents]
  | cons c cs ih =>
    cases c with
    | leaf x =>
      simp only [List.cons_append, ofComponents, ih]
      split <;> rfl
    | block head inside close => simp only [List.cons_append, ofComponents, ih]

end Node

end StyleSelectors
