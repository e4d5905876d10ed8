/-
The character classes by code point. Each class is a few ranges, so that one class lies in another,
or that two have nothing in common, comes down to linear arithmetic.
-/
import StyleSelectors.Text.Ascii

namespace StyleSelectors.Text

variable {c : Char}

theorem eq_iff_toNat {c d : Char} : c = d ↔ c.toNat = d.toNat := Char.toNat_inj.symm

theorem isDigit_iff : c.isDigit = true ↔ 48 ≤ c.toNat ∧ c.toNat ≤ 57 := by
  simp [Char.isDigit, UInt32.le_iff_toNat_le]

theorem isUpper_iff : c.isUpper = true ↔ 65 ≤ c.toNat ∧ c.toNat ≤ 90 :=
  decide_eq_true_iff.trans (and_congr UInt32.le_iff_toNat_le UInt32.le_iff_toNat_le)

theorem isLower_iff : c.isLower = true ↔ 97 ≤ c.toNat ∧ c.toNat ≤ 122 := by
  show (decide ('a'.val ≤ c.val) && decide (c.val ≤ 'z'.val)) = true ↔ _
  rw [Bool.and_eq_true, decide_eq_true_iff, decide_eq_true_iff]
  exact and_congr UInt32.le_iff_toNat_le UInt32.le_iff_toNat_le

theorem isAlpha_iff :
    c.isAlpha = true ↔ (65 ≤ c.toNat ∧ c.toNat ≤ 90) ∨ (97 ≤ c.toNat ∧ c.toNat ≤ 122) := by
  show (c.isUpper || c.isLower) = true ↔ _
  rw [Bool.or_eq_true, isUpper_iff, isLower_iff]

theorem isNewline_iff : isNewline c = true ↔ c.toNat = 10 ∨ c.toNat = 13 ∨ c.toNat = 12 := by
  simp [isNewline, eq_iff_toNat, or_assoc]

theorem isSpace_iff :
    isSpace c = true ↔ c.toNat = 32 ∨ c.toNat = 9 ∨ c.toNat = 10 ∨ c.toNat = 13 ∨ c.toNat = 12 := by
  simp [isSpace, isNewline, eq_iff_toNat, or_assoc]

theorem isHexDigit_iff :
    isHexDigit c = true ↔
      (48 ≤ c.toNat ∧ c.toNat ≤ 57) ∨ (97 ≤ c.toNat ∧ c.toNat ≤ 102) ∨ (65 ≤ c.toNat ∧ c.toNat ≤ 70) := by
  simp [isHexDigit, Char.le_def, UInt32.le_iff_toNat_le, ← isDigit_iff, or_assoc]

theorem isNameStart_iff :
    isNameStart c = true ↔
      (65 ≤ c.toNat ∧ c.toNat ≤ 90) ∨ (97 ≤ c.toNat ∧ c.toNat ≤ 122) ∨ c.toNat = 95 ∨ c.toNat = 0 ∨
        128 ≤ c.toNat := by
  simp [isNameStart, isAscii, nul, eq_iff_toNat, isAlpha_iff, or_assoc]

theorem isNameChar_iff :
    isNameChar c = true ↔
      (65 ≤ c.toNat ∧ c.toNat ≤ 90) ∨ (97 ≤ c.toNat ∧ c.toNat ≤ 122) ∨ c.toNat = 95 ∨ c.toNat = 0 ∨
        128 ≤ c.toNat ∨ (48 ≤ c.toNat ∧ c.toNat ≤ 57) ∨ c.toNat = 45 := by
  simp [isNameChar, isNameStart_iff, eq_iff_toNat, isDigit_iff, or_assoc]

theorem isControl_iff : isControl c = true ↔ (c.toNat < 32 ∨ c.toNat = 127) ∧ c.toNat ≠ 0 := by
  simp [isControl, nul, eq_iff_toNat]

theorem ne_nul_iff : c ≠ nul ↔ c.toNat ≠ 0 := by
  simp [nul, eq_iff_toNat]

theorem shown_of_ne_nul (h : c ≠ nul) : shown c = c := by
  rw [shown, if_neg h]

/-! ## Case -/

theorem toLower_of_not_isUpper (h : c.isUpper = false) : c.toLower = c := dif_neg (of_decide_eq_false h)

theorem toNat_toLower_of_isUpper (h : c.isUpper = true) : c.toLower.toNat = c.toNat + 32 := by
  have hhigh := (isUpper_iff.1 h).2
  have hlower : c.toLower.val = c.val + ('a'.val - 'A'.val) := congrArg Char.val (dif_pos (of_decide_eq_true h))
  show c.toLower.val.toNat = c.toNat + 32
  rw [hlower, UInt32.toNat_add]
  show (c.toNat + 32) % 2 ^ 32 = c.toNat + 32
  omega

theorem isUpper_toLower (c : Char) : c.toLower.isUpper = false := by
  cases h : c.isUpper with
  | false => rw [toLower_of_not_isUpper h, h]
  | true =>
    have hlow := (isUpper_iff.1 h).1
    rw [Bool.eq_false_iff, ne_eq, isUpper_iff, toNat_toLower_of_isUpper h]
    omega

theorem toLower_eq_nul_iff : c.toLower = nul ↔ c = nul := by
  cases h : c.isUpper with
  | false => rw [toLower_of_not_isUpper h]
  | true =>
    have hlow := (isUpper_iff.1 h).1
    rw [nul, eq_iff_toNat, eq_iff_toNat, toNat_toLower_of_isUpper h]
    simp only [Char.reduceToNat]
    omega

theorem toLower_eq_lower (s : String) : s.toLower = lower s := by
  change s.map Char.toLower = lower s
  rw [lower, ← String.toList_map, String.ofList_toList]

theorem lower_of_no_upper {s : String} (h : ∀ c ∈ s.toList, c.isUpper = false) : lower s = s := by
  have hmap : s.toList.map Char.toLower = s.toList :=
    (List.map_congr_left fun c hc => toLower_of_not_isUpper (h c hc)).trans (List.map_id _)
  rw [lower, hmap, String.ofList_toList]

theorem lower_lower (s : String) : lower (lower s) = lower s := by
  apply lower_of_no_upper
  intro c hc
  rw [lower, String.toList_ofList] at hc
  obtain ⟨d, -, rfl⟩ := List.mem_map.1 hc
  exact isUpper_toLower d

end StyleSelectors.Text
