/-
Lines and columns. A place is told by how many lines end before it and by how many units come after the
last of these ends (`Position.line_advance`, `Position.column_advance`); so of two places in a text the
later one is further down or further right (`Position.eq_nil_of_advance`). The units of a text are no
more than its bytes, and as many only if it is ASCII (`unitLength_eq_iff`).
-/
import StyleSelectors.Text.Position
import StyleSelectors.Proofs.Text.Ascii

namespace StyleSelectors.Text

/-! ## Lengths -/

/-- The UTF-16 units that a text takes. -/
def unitLength (cs : List Char) : Nat := (cs.map units16).foldr (· + ·) 0

@[simp] theorem unitLength_nil : unitLength [] = 0 := rfl

@[simp] theorem unitLength_cons (c : Char) (cs : List Char) : unitLength (c :: cs) = units16 c + unitLength cs := rfl

@[simp] theorem byteLength_nil : byteLength [] = 0 := rfl

@[simp] theorem byteLength_cons (c : Char) (cs : List Char) : byteLength (c :: cs) = c.utf8Size + byteLength cs := rfl

@[simp] theorem byteLength_append (xs ys : List Char) : byteLength (xs ++ ys) = byteLength xs + byteLength ys := by
  induction xs with
  | nil => simp
  | cons c xs ih => simp [ih, Nat.add_assoc]

theorem utf8Size_eq_toNat (c : Char) :
    c.utf8Size = if c.toNat < 0x80 then 1 else if c.toNat < 0x800 then 2 else if c.toNat < 0x10000 then 3 else 4 := by
  have hval : c.val.toNat = c.toNat := rfl
  unfold Char.utf8Size
  simp only [UInt32.le_iff_toNat_le, UInt32.toNat_ofNatLT, hval, ← Nat.lt_succ_iff]

theorem units16_pos (c : Char) : 0 < units16 c := by
  unfold units16
  split <;> decide

theorem units16_le_utf8Size (c : Char) : units16 c ≤ c.utf8Size := by
  rw [utf8Size_eq_toNat, units16]
  repeat' split
  all_goals omega

theorem units16_eq_utf8Size_iff {c : Char} : units16 c = c.utf8Size ↔ isAscii c = true := by
  rw [utf8Size_eq_toNat, units16, isAscii, decide_eq_true_iff]
  repeat' split
  all_goals omega

theorem unitLength_le_byteLength (cs : List Char) : unitLength cs ≤ byteLength cs := by
  induction cs with
  | nil => exact Nat.le_refl _
  | cons c cs ih => exact Nat.add_le_add (units16_le_utf8Size c) ih

/-- A text takes as many units as bytes exactly if it is ASCII. -/
theorem unitLength_eq_iff {cs : List Char} : unitLength cs = byteLength cs ↔ ∀ c ∈ cs, isAscii c = true := by
  induction cs with
  | nil => exact iff_of_true rfl (List.forall_mem_nil _)
  | cons c cs ih =>
    have hc := units16_le_utf8Size c
    have hcs := unitLength_le_byteLength cs
    rw [List.forall_mem_cons, ← ih, ← units16_eq_utf8Size_iff, unitLength_cons, byteLength_cons]
    omega

/-! ## Line ends -/

/-- The characters that end the lines of a text, in order. -/
def lineEnds : List Char → List Char
  | [] => []
  | c :: rest => if endsLine c rest then c :: lineEnds rest else lineEnds rest

theorem lineEnds_sublist (cs : List Char) : (lineEnds cs).Sublist cs := by
  induction cs with
  | nil => exact .slnil
  | cons c rest ih =>
    rw [lineEnds]
    split
    · exact ih.cons_cons c
    · exact ih.cons c

/-- Every LF ends a line. -/
theorem count_lineEnds (cs : List Char) : (lineEnds cs).count '\n' = cs.count '\n' := by
  induction cs with
  | nil => rfl
  | cons c rest ih =>
    rw [lineEnds]
    split
    · rw [List.count_cons, List.count_cons, ih]
    · next hends =>
      have hc : ¬ (c == '\n') = true := by
        rintro hc
        rw [beq_iff_eq.1 hc] at hends
        exact hends rfl
      rw [List.count_cons, if_neg hc, ih, Nat.add_zero]

/-- The line ends of two texts are those of both together, where no CR comes before an LF. -/
theorem lineEnds_append {xs ys : List Char} (h : ¬ (xs.getLast? = some '\r' ∧ ys.head? = some '\n')) :
    lineEnds (xs ++ ys) = lineEnds xs ++ lineEnds ys := by
  induction xs with
  | nil => rfl
  | cons c rest ih =>
    rw [List.cons_append, lineEnds, lineEnds, endsLine_append h, ih (not_parted_of_cons h)]
    split <;> rfl

namespace Position

variable (p : Position) {cs : List Char}

theorem line_advance (cs : List Char) : (p.advance cs).line = p.line + (lineEnds cs).length := by
  induction cs generalizing p with
  | nil => rfl
  | cons c rest ih =>
    rw [advance, ih, lineEnds]
    split
    · exact Nat.add_right_comm ..
    · rfl

/-- Within a line the columns go on by units. -/
theorem column_advance (h : lineEnds cs = []) : (p.advance cs).column = p.column + unitLength cs := by
  induction cs generalizing p with
  | nil => rfl
  | cons c rest ih =>
    rw [lineEnds] at h
    split at h
    · cases h
    · next hends =>
      rw [advance, ih _ h]
      simp only [if_neg hends, unitLength_cons, Nat.add_assoc]

theorem column_advance_newline (cs : List Char) : (p.advance (cs ++ ['\n'])).column = 1 := by
  induction cs generalizing p with
  | nil => rfl
  | cons c rest ih => rw [List.cons_append, advance, ih]

/-- Line and column stay only where nothing is read. -/
theorem eq_nil_of_advance (hline : (p.advance cs).line = p.line) (hcolumn : (p.advance cs).column = p.column) :
    cs = [] := by
  rw [line_advance] at hline
  have hends : lineEnds cs = [] := List.length_eq_zero_iff.1 (by omega)
  rw [column_advance p hends] at hcolumn
  cases cs with
  | nil => rfl
  | cons c rest =>
    have hc := units16_pos c
    rw [unitLength_cons] at hcolumn
    omega

end Position

end StyleSelectors.Text
