/-
Places in a text. A place is what has been read so far, told in three ways: bytes of UTF-8, line
ends passed, and UTF-16 units since the last of these. LF and FF end a line, and CR does unless
LF follows it. Reading a text in two parts is reading it at once (`advance_append`), so long as
the cut does not part a CR from its LF.
-/
import StyleSelectors.Text.Ascii

namespace StyleSelectors.Text

structure Position where
  /-- Bytes before this place. -/
  offset : Nat
  /-- Line ends before this place. -/
  line : Nat
  /-- One more than the UTF-16 units since the last line end. -/
  column : Nat
deriving DecidableEq, Repr

/-- How many UTF-16 units a character takes. -/
def units16 (c : Char) : Nat := if c.toNat < 0x10000 then 1 else 2

/-- The bytes a text takes in UTF-8. -/
def byteLength (cs : List Char) : Nat := (cs.map Char.utf8Size).foldr (· + ·) 0

/-- Whether `c` ends a line when `rest` comes after it. -/
def endsLine (c : Char) (rest : List Char) : Bool :=
  isNewline c && !(c == '\r' && rest.head? == some '\n')

theorem endsLine_append {c : Char} {rest ys : List Char}
    (h : ¬ ((c :: rest).getLast? = some '\r' ∧ ys.head? = some '\n')) : endsLine c (rest ++ ys) = endsLine c rest := by
  cases rest with
  | nil =>
    by_cases hr : c = '\r'
    · subst hr
      have hys : ys.head? ≠ some '\n' := fun hn => h ⟨rfl, hn⟩
      simp [endsLine, hys]
    · simp [endsLine, hr]
  | cons d rest => rfl

theorem not_parted_of_cons {c : Char} {rest ys : List Char}
    (h : ¬ ((c :: rest).getLast? = some '\r' ∧ ys.head? = some '\n')) :
    ¬ (rest.getLast? = some '\r' ∧ ys.head? = some '\n') := by
  rintro ⟨hlast, hhead⟩
  exact h ⟨by rw [List.getLast?_cons, hlast]; rfl, hhead⟩

namespace Position

def start : Position := ⟨0, 0, 1⟩

/-- The place after reading a text. -/
def advance (p : Position) : List Char → Position
  | [] => p
  | c :: rest =>
    advance
      { offset := p.offset + c.utf8Size
        line := if endsLine c rest then p.line + 1 else p.line
        column := if endsLine c rest then 1 else p.column + units16 c }
      rest

@[simp] theorem advance_nil (p : Position) : p.advance [] = p := rfl

theorem advance_offset (p : Position) (cs : List Char) :
    (p.advance cs).offset = p.offset + byteLength cs := by
  induction cs generalizing p with
  | nil => simp [byteLength]
  | cons c rest ih => simp [advance, ih, byteLength]; omega

/-- A cut that leaves no CR before an LF may be made anywhere. -/
theorem advance_append (p : Position) (xs ys : List Char)
    (h : ¬ (xs.getLast? = some '\r' ∧ ys.head? = some '\n')) :
    p.advance (xs ++ ys) = (p.advance xs).advance ys := by
  induction xs generalizing p with
  | nil => rfl
  | cons c rest ih => rw [List.cons_append, advance, advance, endsLine_append h, ih _ (not_parted_of_cons h)]

end Position

end StyleSelectors.Text
