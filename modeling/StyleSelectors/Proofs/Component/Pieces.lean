/-
The pieces of a text between the commas outside all blocks. What comes before such a comma closes all
that it opens, and so each piece reads by itself as it reads within the text (`ofChars_of_comma`). The
pieces with commas between them are the text again (`intercalate_pieces`).
-/
import StyleSelectors.Proofs.Component.ReadFrom

namespace StyleSelectors

namespace Component

/-! ## Reading on -/

/-- Blocks and what is done in the innermost of them, with more in front of it all. -/
def onTop (base : List Component) : List OpenBlock → List Component → List OpenBlock × List Component
  | [], done => ([], done ++ base)
  | b :: outer, done => (⟨b.head, (onTop base outer b.before).2⟩ :: (onTop base outer b.before).1, done)

theorem onTop_cons (base : List Component) (blocks : List OpenBlock) (c : Component) (done : List Component) :
    onTop base blocks (c :: done) = ((onTop base blocks done).1, c :: (onTop base blocks done).2) := by
  cases blocks <;> rfl

theorem closeAll_onTop (base : List Component) (blocks : List OpenBlock) (done : List Component) :
    closeAll (onTop base blocks done).1 (onTop base blocks done).2 = base.reverse ++ closeAll blocks done := by
  induction blocks generalizing done with
  | nil => rw [onTop, closeAll, closeAll, List.reverse_append]
  | cons b outer ih =>
    rw [onTop, closeAll, closeAll, ← ih, onTop_cons]

/-- What is in front of all open blocks stays there. -/
theorem nest_onTop (base : List Component) (blocks : List OpenBlock) (done : List Component) (xs : List Lexeme) :
    nest (onTop base blocks done).1 (onTop base blocks done).2 xs = base.reverse ++ nest blocks done xs := by
  induction xs generalizing blocks done with
  | nil => rw [nest, nest, closeAll_onTop]
  | cons x xs ih =>
    rw [nest.eq_def, nest.eq_def blocks]
    dsimp only
    by_cases hopen : x.token.opens?.isSome = true
    · rw [if_pos hopen, if_pos hopen]
      exact ih (⟨x, done⟩ :: blocks) []
    · rw [if_neg hopen, if_neg hopen]
      cases blocks with
      | nil => exact ih [] (.leaf x :: done)
      | cons b outer =>
        simp only [onTop]
        by_cases hclose : closes x b.head = true
        · rw [if_pos hclose, if_pos hclose]
          have := ih outer (.block b.head done.reverse (some x) :: b.before)
          rwa [onTop_cons] at this
        · rw [if_neg hclose, if_neg hclose]
          exact ih (b :: outer) (.leaf x :: done)

/-- What comes after components that are whole is read as if they were not there. -/
theorem ofLexemes_append {cs : List Component} (h : WholeAll none cs) (xs : List Lexeme) :
    ofLexemes (lexemesOf cs ++ xs) = cs ++ ofLexemes xs := by
  have := nest_onTop cs.reverse [] [] xs
  rw [List.reverse_reverse] at this
  rw [ofLexemes, nest_lexemesOf cs [] [] xs h, List.append_nil]
  exact this

/-! ## Commas -/

/-- Whether a component is a comma. -/
def isComma : Component → Bool
  | .leaf x => x.token == .comma
  | .block .. => false

/-- A leaf outside all blocks is one of the lexemes of a text. -/
theorem lexemes_of_leaf {text : List Char} {front back : List Component} {x : Lexeme}
    (h : ofChars text = front ++ .leaf x :: back) : Lexeme.ofChars text = lexemesOf front ++ x :: lexemesOf back := by
  rw [← lexemesOf_ofLexemes (Lexeme.ofChars text), ← ofChars, h, lexemesOf_append]
  rfl

/-- A comma outside all blocks parts a text: what is before it and what comes after it read by
themselves as they do within the text. -/
theorem ofChars_of_comma {text : List Char} {front back : List Component} {x : Lexeme}
    (h : ofChars text = front ++ .leaf x :: back) (hx : x.token = .comma) :
    text = chars front ++ ',' :: chars back ∧ ofChars (chars front) = front ∧ ofChars (chars back) = back := by
  have hlex := lexemes_of_leaf h
  -- the comma is one character
  obtain ⟨c, u, htext, -, hread, hback⟩ := Lexeme.ofChars_eq_cons (Lexeme.ofChars_suffix hlex)
  obtain ⟨rfl, hrest⟩ := Token.readToken_comma (congrArg Prod.fst hread |>.trans hx)
  rw [hread] at hrest
  obtain rfl : u = [] := List.self_eq_append_left.1 hrest
  have hchars : Lexeme.chars (x :: lexemesOf back) = ',' :: chars back := by
    rw [Lexeme.chars, List.flatMap_cons, htext]
    rfl
  have hparts : text = chars front ++ ',' :: chars back := by
    rw [← Lexeme.chars_ofChars text, hlex, Lexeme.chars, List.flatMap_append, ← Lexeme.chars, ← Lexeme.chars, hchars]
    rfl
  have hwhole := wholeAll_of_append h
  refine ⟨hparts, ?_, ?_⟩
  · rw [ofChars, chars, Lexeme.ofChars_front (.inr rfl) htext hlex, ofLexemes_lexemesOf hwhole]
  · have hcomma : WholeAll none (front ++ [.leaf x]) := by
      refine wholeAll_append.2 ⟨hwhole, ?_, trivial⟩
      rw [Whole, hx]
      exact ⟨rfl, fun _ h => by cases h⟩
    have hall : ofLexemes (lexemesOf (front ++ [.leaf x]) ++ lexemesOf back) = front ++ .leaf x :: back := by
      rw [← h, ofChars, hlex, lexemesOf_append, List.append_assoc]
      rfl
    rw [ofLexemes_append hcomma, List.append_assoc, List.singleton_append] at hall
    rw [ofChars, chars, hback]
    exact (List.cons.inj (List.append_cancel_left hall)).2

/-- Either there is no comma outside all blocks, or there is a first one. -/
theorem first_comma (cs : List Component) :
    (∀ c ∈ cs, c.isComma = false) ∨
      ∃ front x back, cs = front ++ .leaf x :: back ∧ x.token = .comma ∧ ∀ c ∈ front, c.isComma = false := by
  induction cs with
  | nil => exact .inl nofun
  | cons c cs ih =>
    cases hc : c.isComma with
    | true =>
      cases c with
      | leaf x => exact .inr ⟨[], x, cs, rfl, beq_iff_eq.1 hc, nofun⟩
      | block => cases hc
    | false =>
      rcases ih with ih | ⟨front, x, back, rfl, hx, hfront⟩
      · exact .inl (List.forall_mem_cons.2 ⟨hc, ih⟩)
      · exact .inr ⟨c :: front, x, back, rfl, hx, List.forall_mem_cons.2 ⟨hc, hfront⟩⟩

/-- What holds of a text without a comma outside all blocks, and carries over from what comes after the
first such comma to the whole, holds of all texts. -/
theorem comma_induction {motive : List Component → Prop}
    (single : ∀ cs, ofChars (chars cs) = cs → (∀ c ∈ cs, c.isComma = false) → motive cs)
    (cons : ∀ front x back, x.token = .comma → ofChars (chars front) = front → (∀ c ∈ front, c.isComma = false) →
      chars (front ++ .leaf x :: back) = chars front ++ ',' :: chars back →
      motive back → motive (front ++ .leaf x :: back))
    (text : List Char) : motive (ofChars text) := by
  generalize hlength : (ofChars text).length = n
  induction n using Nat.strongRecOn generalizing text with
  | _ n ih =>
    rcases first_comma (ofChars text) with hnone | ⟨front, x, back, heq, hx, hfront⟩
    · exact single _ (by rw [chars_ofChars]) hnone
    · obtain ⟨hparts, hreadFront, hreadBack⟩ := ofChars_of_comma heq hx
      have hshorter : (ofChars (chars back)).length < n := by
        rw [hreadBack, ← hlength, heq, List.length_append, List.length_cons]
        omega
      have hback := ih _ hshorter (chars back) rfl
      rw [hreadBack] at hback
      rw [heq]
      exact cons front x back hx hreadFront hfront (by rw [← heq, chars_ofChars, hparts]) hback

end Component

/-- The pieces of a text between the commas outside all blocks. -/
def pieces (text : List Char) : List (List Char) :=
  ((Component.ofChars text).splitOnP Component.isComma).map Component.chars

theorem pieces_cons {front back : List Component} {x : Lexeme} (hx : x.token = .comma)
    (hfront : ∀ c ∈ front, c.isComma = false) :
    (front ++ .leaf x :: back).splitOnP Component.isComma = front :: back.splitOnP Component.isComma :=
  List.splitOnP_append_cons_of_forall_mem hfront (.leaf x) (beq_iff_eq.2 hx) back

/-- The pieces, with commas between them, are the text. -/
theorem intercalate_pieces (text : List Char) : [','].intercalate (pieces text) = text := by
  suffices hall : [','].intercalate (((Component.ofChars text).splitOnP Component.isComma).map Component.chars) =
      Component.chars (Component.ofChars text) by
    rw [pieces, hall, Component.chars_ofChars]
  refine Component.comma_induction (motive := fun cs =>
    [','].intercalate ((cs.splitOnP Component.isComma).map Component.chars) = Component.chars cs) ?_ ?_ text
  · intro cs _ hnone
    rw [List.splitOnP_eq_singleton hnone, List.map_singleton, List.intercalate_singleton]
  · intro front x back hx _ hfront hparts ih
    rw [pieces_cons hx hfront, List.map_cons, List.intercalate_cons_of_ne_nil (by simp), ih, hparts,
      List.append_assoc, List.singleton_append]

end StyleSelectors
