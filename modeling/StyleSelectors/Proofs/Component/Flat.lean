/-
The nodes of a text and its tokens. Nodes mirror the components that they are made of, but for the
comments (`Node.Mirrors`). A block starts with a token that opens one, so that no comment is lost with
what it stands in: the nodes that the grammar reads stand for the tokens of the text but its comments,
with every block closed (`Node.tokensOf_ofChars`).
-/
import StyleSelectors.Grammar.Cursor

namespace StyleSelectors

open Text

namespace Component

/-! ## Heads -/

mutual

/-- Whether every block in a component starts with a token that opens one. -/
def Headed : Component → Prop
  | .leaf _ => True
  | .block head inside _ => head.token.opens?.isSome = true ∧ HeadedAll inside

def HeadedAll : List Component → Prop
  | [] => True
  | c :: rest => Headed c ∧ HeadedAll rest

end

theorem headedAll_iff {cs : List Component} : HeadedAll cs ↔ ∀ c ∈ cs, c.Headed := by
  induction cs with
  | nil => simp [HeadedAll]
  | cons c cs ih => simp [HeadedAll, ih]

theorem headedAll_reverse {cs : List Component} (h : HeadedAll cs) : HeadedAll cs.reverse :=
  headedAll_iff.2 fun c hc => headedAll_iff.1 h c (List.mem_reverse.1 hc)

/-- What holds of an open block all along. -/
def OpenBlock.Headed (b : OpenBlock) : Prop := b.head.token.opens?.isSome = true ∧ HeadedAll b.before

/-- A block is headed when it is closed, with or without a closing token. -/
theorem OpenBlock.Headed.close {b : OpenBlock} {done : List Component} (hb : b.Headed) (hdone : HeadedAll done)
    (x : Option Lexeme) : HeadedAll (.block b.head done.reverse x :: b.before) := by
  refine ⟨?_, hb.2⟩
  rw [Component.Headed]
  exact ⟨hb.1, headedAll_reverse hdone⟩

theorem headedAll_closeAll {blocks : List OpenBlock} {done : List Component} (hblocks : ∀ b ∈ blocks, b.Headed)
    (hdone : HeadedAll done) : HeadedAll (closeAll blocks done) := by
  induction blocks generalizing done with
  | nil => exact headedAll_reverse hdone
  | cons b outer ih =>
    obtain ⟨hb, houter⟩ := List.forall_mem_cons.1 hblocks
    exact ih houter (hb.close hdone none)

theorem headedAll_nest {blocks : List OpenBlock} {done : List Component} (xs : List Lexeme)
    (hblocks : ∀ b ∈ blocks, b.Headed) (hdone : HeadedAll done) : HeadedAll (nest blocks done xs) := by
  have hleaf {x : Lexeme} {done : List Component} (h : HeadedAll done) : HeadedAll (.leaf x :: done) := by
    refine ⟨?_, h⟩
    rw [Component.Headed]
    trivial
  induction xs generalizing blocks done with
  | nil =>
    rw [nest]
    exact headedAll_closeAll hblocks hdone
  | cons x xs ih =>
    rw [nest.eq_def]
    dsimp only
    split
    · next hopen => exact ih (List.forall_mem_cons.2 ⟨⟨hopen, hdone⟩, hblocks⟩) trivial
    · split
      · exact ih hblocks (hleaf hdone)
      · obtain ⟨hb, houter⟩ := List.forall_mem_cons.1 hblocks
        split
        · exact ih houter (hb.close hdone _)
        · exact ih hblocks (hleaf hdone)

theorem headedAll_ofChars (cs : List Char) : HeadedAll (ofChars cs) :=
  headedAll_nest _ (List.forall_mem_nil _) trivial

theorem headedAll_of_ofChars {cs : List Component} (h : ofChars (chars cs) = cs) : HeadedAll cs := by
  rw [← h]
  exact headedAll_ofChars _

end Component

/-! ## Nodes -/

namespace Node

variable {P : Type}

/-- Whether nodes are those of components: one for each that is no comment, with its token and, if it is a
block, the nodes of what is inside and this as it was written. -/
inductive Mirrors : List Component → List (Node P) → Prop
  | nil : Mirrors [] []
  | comment {x : Lexeme} {cs : List Component} {ns : List (Node P)} (text : String) (hx : x.token = .comment text)
    (h : Mirrors cs ns) : Mirrors (.leaf x :: cs) ns
  | leaf {x : Lexeme} {cs : List Component} {ns : List (Node P)} (start after : P)
    (hx : ∀ text, x.token ≠ .comment text) (h : Mirrors cs ns) :
    Mirrors (.leaf x :: cs) (.leaf x.token start after :: ns)
  | block {head : Lexeme} {inside cs : List Component} {close : Option Lexeme} {within ns : List (Node P)}
    (start after stop finish : P) (hinside : Mirrors inside within) (h : Mirrors cs ns) :
    Mirrors (.block head inside close :: cs) (.block head.token start after within stop finish inside :: ns)

theorem mirrors_ofComponents (p : Position) (cs : List Component) : Mirrors cs (ofComponents p cs).1 := by
  fun_induction ofComponents p cs with
  | case1 => exact .nil
  | case2 p x rest q more ih =>
    cases hx : x.token with
    | comment text => exact .comment text hx ih
    | _ =>
      rw [← hx, if_neg (by simp [hx, Token.isComment])]
      exact .leaf _ _ (by simp [hx]) ih
  | case3 p head inside close rest q within r more _ ihInside ih => exact .block _ _ _ _ ihInside ih

mutual

/-- The tokens of a node, in order, with the closing token of every block. -/
def tokens : Node P → List Token
  | .leaf token .. => [token]
  | .block token _ _ inside .. => token :: tokensOf inside ++ [Component.closer token]

def tokensOf : List (Node P) → List Token
  | [] => []
  | n :: rest => tokens n ++ tokensOf rest

end

theorem tokensOf_ofComponents (p : Position) {cs : List Component} (h : Component.HeadedAll cs) :
    tokensOf (ofComponents p cs).1 = (Component.tokensOf cs).filter fun t => !t.isComment := by
  fun_induction ofComponents p cs with
  | case1 => rfl
  | case2 p x rest q more ih =>
    rw [Component.HeadedAll] at h
    rw [Component.tokensOf, Component.tokens, List.filter_append, ← ih h.2]
    split
    · next hcomment => simp [more, hcomment]
    · next hcomment => simp [more, tokensOf, tokens, hcomment]
  | case3 p head inside close rest q within r more _ ihInside ih =>
    rw [Component.HeadedAll, Component.Headed] at h
    obtain ⟨⟨hopen, hinside⟩, hrest⟩ := h
    have hhead : head.token.isComment = false := by
      cases htoken : head.token with
      | comment text => rw [htoken] at hopen; cases hopen
      | _ => rfl
    have hclose : [Component.closer head.token].filter (fun t => !t.isComment) = [Component.closer head.token] := rfl
    rw [Component.tokensOf, Component.tokens, List.filter_append, ← ih hrest, List.filter_append,
      List.filter_cons_of_pos (by simp [hhead]), ← ihInside hinside, hclose]
    rfl

theorem tokensOf_ofChars (cs : List Char) :
    tokensOf (Cursor.ofChars cs).rest = (Component.tokensOf (Component.ofChars cs)).filter fun t => !t.isComment :=
  tokensOf_ofComponents .start (Component.headedAll_ofChars cs)

end Node

end StyleSelectors
