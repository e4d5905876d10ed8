/-
From lexemes to components. A closing token closes the innermost open block if its bracket is that
block's, and is a lexeme like any other if not; the end of the text closes whatever is open. No
lexeme is lost or moved (`lexemesOf_ofLexemes`).
-/
import StyleSelectors.Component.Basic

namespace StyleSelectors.Component

/-- A block that is still open: what opened it, and the components before it, the last first. -/
structure OpenBlock where
  head : Lexeme
  before : List Component

/-- Whether a lexeme closes the block that `head` opened. -/
def closes (x head : Lexeme) : Bool :=
  match x.token.closes? with
  | some b => head.token.opens? == some b
  | none => false

/-- Closes all open blocks, the innermost of which holds `done`, the last first. -/
def closeAll : List OpenBlock → List Component → List Component
  | [], done => done.reverse
  | b :: outer, done => closeAll outer (.block b.head done.reverse none :: b.before)

/-- Reads on with some blocks open, the innermost of which holds `done` so far, the last first. -/
def nest : List OpenBlock → List Component → List Lexeme → List Component
  | blocks, done, [] => closeAll blocks done
  | blocks, done, x :: rest =>
    if x.token.opens?.isSome then nest (⟨x, done⟩ :: blocks) [] rest
    else
      match blocks with
      | [] => nest [] (.leaf x :: done) rest
      | b :: outer =>
        if closes x b.head then nest outer (.block b.head done.reverse (some x) :: b.before) rest
        else nest (b :: outer) (.leaf x :: done) rest

def ofLexemes (xs : List Lexeme) : List Component := nest [] [] xs

def ofChars (cs : List Char) : List Component := ofLexemes (Lexeme.ofChars cs)

/-! ## Nothing is lost -/

/-- The lexemes read so far. -/
def readSoFar : List OpenBlock → List Component → List Lexeme
  | [], done => lexemesOf done.reverse
  | b :: outer, done => readSoFar outer b.before ++ b.head :: lexemesOf done.reverse

theorem readSoFar_cons (blocks : List OpenBlock) (c : Component) (done : List Component) :
    readSoFar blocks (c :: done) = readSoFar blocks done ++ c.lexemes := by
  cases blocks <;> simp [readSoFar, lexemesOf_append, lexemesOf]

theorem lexemesOf_closeAll (blocks : List OpenBlock) (done : List Component) :
    lexemesOf (closeAll blocks done) = readSoFar blocks done := by
  induction blocks generalizing done with
  | nil => rfl
  | cons b outer ih => simp [closeAll, ih, readSoFar_cons, readSoFar, lexemes]

theorem lexemesOf_nest (blocks : List OpenBlock) (done : List Component) (xs : List Lexeme) :
    lexemesOf (nest blocks done xs) = readSoFar blocks done ++ xs := by
  induction xs generalizing blocks done with
  | nil => simp [nest, lexemesOf_closeAll]
  | cons x rest ih =>
    rw [nest.eq_def]
    dsimp only
    split
    · simp [ih, readSoFar, lexemesOf]
    · split
      · simp [ih, readSoFar_cons, lexemes]
      · split
        · simp [ih, readSoFar_cons, readSoFar, lexemes]
        · simp [ih, readSoFar_cons, lexemes]

theorem lexemesOf_ofLexemes (xs : List Lexeme) : lexemesOf (ofLexemes xs) = xs := by
  simp [ofLexemes, lexemesOf_nest, readSoFar, lexemesOf]

theorem chars_ofChars (cs : List Char) : chars (ofChars cs) = cs := by
  rw [chars, ofChars, lexemesOf_ofLexemes, Lexeme.chars_ofChars]

end StyleSelectors.Component
