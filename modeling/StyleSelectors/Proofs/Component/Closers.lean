/-
The tokens of a text with all its blocks closed, told without any nesting. It is enough to go through the
tokens with the brackets that are open: a closing token takes off the innermost if that is its own, and
changes nothing if not. Nesting keeps the tokens as they are and closes, in the end, what is open there
(`tokensOf_nest`), so that every token of the text comes once and in order, and after them those that
close it: `closedTokens_eq`.
-/
import StyleSelectors.Proofs.Component.ReadFrom
import StyleSelectors.Proofs.Token.Trim
import StyleSelectors.Selector.Printer

namespace StyleSelectors

/-! ## Open brackets -/

/-- The brackets that are open after a token, the innermost first, where `brackets` are open before it. -/
def Token.openAfter (brackets : List Bracket) (t : Token) : List Bracket :=
  match t.opens?, t.closes? with
  | some b, _ => b :: brackets
  | none, some b => if brackets.head? = some b then brackets.tail else brackets
  | none, none => brackets

/-- The brackets that are still open at the end of tokens, the innermost first. -/
def Token.unclosed (ts : List Token) : List Bracket := ts.foldl openAfter []

namespace Token

variable {t : Token} {brackets : List Bracket} {b : Bracket}

theorem openAfter_opening (h : t.opens? = some b) : openAfter brackets t = b :: brackets := by
  rw [openAfter, h]

theorem openAfter_closing (h : t.closes? = some b) : openAfter (b :: brackets) t = brackets := by
  rw [openAfter, opens?_of_closes? h, h]
  exact if_pos rfl

theorem openAfter_leaf (hopen : t.opens? = none) (hclose : ∀ b, t.closes? = some b → brackets.head? ≠ some b) :
    openAfter brackets t = brackets := by
  rw [openAfter, hopen]
  cases hb : t.closes? with
  | none => rfl
  | some b => exact if_neg (hclose b hb)

end Token

/-! ## Blocks that are open -/

namespace Component

/-- The bracket that a block waits for. -/
def OpenBlock.bracket (b : OpenBlock) : Bracket := b.head.token.opens?.getD .round

/-- The tokens read so far. -/
def tokensSoFar : List OpenBlock → List Component → List Token
  | [], done => tokensOf done.reverse
  | b :: outer, done => tokensSoFar outer b.before ++ b.head.token :: tokensOf done.reverse

theorem tokensSoFar_cons (blocks : List OpenBlock) (c : Component) (done : List Component) :
    tokensSoFar blocks (c :: done) = tokensSoFar blocks done ++ c.tokens := by
  cases blocks <;> simp [tokensSoFar, tokensOf_append, tokensOf]

/-- A block that is closed is what was in it, and its closing token. -/
theorem tokensSoFar_close (outer : List OpenBlock) (b : OpenBlock) (done : List Component) (close : Option Lexeme) :
    tokensSoFar outer (.block b.head done.reverse close :: b.before) =
      tokensSoFar (b :: outer) done ++ [.closing b.bracket] := by
  simp [tokensSoFar, tokensSoFar_cons, tokens, closer, OpenBlock.bracket]

theorem tokensOf_closeAll (blocks : List OpenBlock) (done : List Component) :
    tokensOf (closeAll blocks done) = tokensSoFar blocks done ++ blocks.map fun b => .closing b.bracket := by
  induction blocks generalizing done with
  | nil => rw [closeAll, tokensSoFar, List.map_nil, List.append_nil]
  | cons b outer ih => rw [closeAll, ih, tokensSoFar_close, List.append_assoc, List.singleton_append, List.map_cons]

/-! ## Nesting -/

theorem head?_brackets {blocks : List OpenBlock} (h : ∀ b ∈ blocks, b.head.token.opens?.isSome = true) :
    (blocks.map OpenBlock.bracket).head? = bracketOf blocks := by
  cases blocks with
  | nil => rfl
  | cons b outer =>
    obtain ⟨k, hk⟩ := Option.isSome_iff_exists.1 (h b (List.mem_cons_self ..))
    rw [List.map_cons, List.head?_cons, bracketOf, OpenBlock.bracket, hk, Option.getD_some]

/-- Reading on keeps each token, and closes in the end what is open then. -/
theorem tokensOf_nest {blocks : List OpenBlock} (done : List Component) (xs : List Lexeme)
    (h : ∀ b ∈ blocks, b.head.token.opens?.isSome = true) :
    tokensOf (nest blocks done xs) =
      tokensSoFar blocks done ++ xs.map Lexeme.token ++
        ((xs.map Lexeme.token).foldl Token.openAfter (blocks.map OpenBlock.bracket)).map .closing := by
  induction xs generalizing blocks done with
  | nil => rw [nest, tokensOf_closeAll, List.map_nil, List.append_nil, List.foldl_nil, List.map_map]; rfl
  | cons x xs ih =>
    rw [List.map_cons, List.foldl_cons]
    obtain ⟨b, hopen⟩ | ⟨top, outer, b, rfl, hb, hx⟩ | ⟨hopen, hleaf⟩ := nest_cases blocks x
    · have hblocks : ∀ b ∈ (⟨x, done⟩ :: blocks : List OpenBlock), b.head.token.opens?.isSome = true :=
        List.forall_mem_cons.2 ⟨by rw [hopen]; rfl, h⟩
      have hbracket : OpenBlock.bracket ⟨x, done⟩ = b := by rw [OpenBlock.bracket, hopen, Option.getD_some]
      rw [nest_opening hopen, ih [] hblocks, Token.openAfter_opening hopen, List.map_cons, hbracket, tokensSoFar]
      simp [tokensOf]
    · have hbracket : top.bracket = b := by rw [OpenBlock.bracket, hb, Option.getD_some]
      rw [nest_closing hb hx, ih _ (List.forall_mem_cons.1 h).2, tokensSoFar_close, List.map_cons, hbracket,
        Token.openAfter_closing hx, Token.closes?_eq_some_iff.1 hx]
      simp
    · have hstays : Token.openAfter (blocks.map OpenBlock.bracket) x.token = blocks.map OpenBlock.bracket := by
        refine Token.openAfter_leaf hopen fun b hx => ?_
        rw [head?_brackets h]
        exact hleaf b hx
      rw [nest_leaf hopen hleaf, ih _ h, tokensSoFar_cons, hstays, tokens]
      simp

/-- The tokens of a text, and those that close its blocks. -/
theorem tokensOf_ofChars (cs : List Char) :
    tokensOf (ofChars cs) = Token.ofChars cs ++ (Token.unclosed (Token.ofChars cs)).map .closing :=
  tokensOf_nest [] (Lexeme.ofChars cs) (List.forall_mem_nil _)

end Component

/-- Closing the blocks of a text leaves all its tokens as they are, and puts after them the closing token
of each block that is open at the end, that of the innermost block first. -/
theorem closedTokens_eq (text : String) :
    closedTokens text =
      Token.ofChars text.toList ++ (Token.unclosed (Token.ofChars text.toList)).map .closing :=
  Component.tokensOf_ofChars text.toList

end StyleSelectors
