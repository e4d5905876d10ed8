/-
Names read back as they were written. An escape by number is undone whole, with the blank after it
(`readEscape_hex`), so a written name is read to its last character and no further, whatever comes
after it that no name goes on with (`readName_writeName`); and a written identifier starts like one
(`startsName_writeIdentifier`), also where its first characters are dashes or digits.
-/
import StyleSelectors.Token.Name
import StyleSelectors.Proofs.Text.Ascii

namespace StyleSelectors.Token

open Text

/-! ## Escapes -/

/-- What up to two hexadecimal digits say of a number. -/
theorem toDigits_hex : ∀ n < 128,
    (Nat.toDigits 16 n).all isHexDigit = true ∧ (Nat.toDigits 16 n).length ≤ 2 ∧
      (Nat.toDigits 16 n).foldl (fun k d => k * 16 + hexValue d) 0 = n ∧ Nat.toDigits 16 n ≠ [] := by
  decide +kernel

theorem readEscape_digits {d : Char} {ds : List Char} (hd : isHexDigit d = true)
    (hds : ds.all isHexDigit = true) (hlen : ds.length ≤ 5) (rest : List Char) :
    readEscape (d :: ds ++ ' ' :: rest) =
      (scalar ((d :: ds).foldl (fun n c => n * 16 + hexValue c) 0), rest) := by
  have htake : ((ds ++ ' ' :: rest).take 5).takeWhile isHexDigit = ds := by
    rw [List.take_append, List.take_of_length_le hlen, List.takeWhile_append_of_pos (List.all_eq_true.1 hds)]
    -- what is left of the five characters starts with the blank, if there is any of it
    cases 5 - ds.length with
    | zero => simp
    | succ n => simp [isHexDigit]
  simp only [List.cons_append, readEscape, hd, if_true, htake, List.drop_left]
  rfl

theorem scalar_toNat {c : Char} (h : c ≠ nul) : scalar c.toNat = c := by
  have hvalid : c.toNat.isValidChar := c.valid
  rw [scalar, if_neg (ne_nul_iff.1 h), if_pos hvalid, Char.ofNat_toNat]

/-- A character written by its number reads back. -/
theorem readEscape_hex {c : Char} (h : c ≠ nul) (hc : c.toNat < 128) (rest : List Char) :
    readEscape (Nat.toDigits 16 c.toNat ++ ' ' :: rest) = (c, rest) := by
  obtain ⟨hall, hlen, hval, hne⟩ := toDigits_hex c.toNat hc
  obtain ⟨d, ds, hds⟩ := List.exists_cons_of_ne_nil hne
  rw [hds] at hall hlen hval ⊢
  rw [List.all_cons, Bool.and_eq_true] at hall
  rw [List.length_cons] at hlen
  rw [readEscape_digits hall.1 hall.2 (by omega), hval, scalar_toNat h]

theorem readEscape_cons {c : Char} (hhex : isHexDigit c = false) (h : c ≠ nul) (rest : List Char) :
    readEscape (c :: rest) = (c, rest) := by
  simp [readEscape, hhex, shown_of_ne_nul h]

theorem atNewline_cons (c : Char) (rest : List Char) : atNewline (c :: rest) = isNewline c := rfl

theorem atNewline_toDigits {n : Nat} (hn : n < 128) (rest : List Char) :
    atNewline (Nat.toDigits 16 n ++ rest) = false := by
  obtain ⟨hall, -, -, hne⟩ := toDigits_hex n hn
  obtain ⟨d, ds, hds⟩ := List.exists_cons_of_ne_nil hne
  rw [hds, List.all_cons, Bool.and_eq_true, isHexDigit_iff] at hall
  rw [hds, List.cons_append, atNewline_cons, Bool.eq_false_iff, ne_eq, isNewline_iff]
  omega

/-! ## Names -/

/-- Whether no name goes on at the front of a text. -/
def endsName (cs : List Char) : Bool := !cs.head?.any fun c => isNameChar c || c == '\\'

theorem readName_of_endsName {rest : List Char} (h : endsName rest = true) : readName rest = ([], rest) := by
  cases rest with
  | nil => rw [readName]
  | cons c rest =>
    obtain ⟨hname, hslash⟩ : isNameChar c = false ∧ c ≠ '\\' := by simpa [endsName] using h
    rw [readName, if_neg hslash, if_neg (by simp [hname])]

theorem readName_cons {c : Char} (h : isNameChar c = true) (rest : List Char) :
    readName (c :: rest) = (shown c :: (readName rest).1, (readName rest).2) := by
  have hslash : c ≠ '\\' := by
    rw [isNameChar_iff] at h
    rw [ne_eq, eq_iff_toNat]
    simp only [Char.reduceToNat]
    omega
  rw [readName, if_neg hslash, if_pos h]

theorem readName_escape {rest : List Char} (h : atNewline rest = false) :
    readName ('\\' :: rest) =
      ((readEscape rest).1 :: (readName (readEscape rest).2).1, (readName (readEscape rest).2).2) := by
  rw [readName, if_pos rfl, if_neg (by simp [h])]

theorem readName_hexEscape {c : Char} (h : c ≠ nul) (hc : c.toNat < 128) (rest : List Char) :
    readName (hexEscape c ++ rest) = (c :: (readName rest).1, (readName rest).2) := by
  simp only [hexEscape, List.cons_append, List.append_assoc]
  rw [readName_escape (atNewline_toDigits hc _), readEscape_hex h hc]
  rfl

/-- A character in a written name reads back, and the rest of the name after it. -/
theorem readName_writeNameChar {c : Char} (h : c ≠ nul) (rest : List Char) :
    readName (writeNameChar c ++ rest) = (c :: (readName rest).1, (readName rest).2) := by
  unfold writeNameChar
  rw [if_neg h]
  split
  · next hname => rw [List.singleton_append, readName_cons hname, shown_of_ne_nul h]
  split
  · next hcontrol =>
    rw [isControl_iff] at hcontrol
    exact readName_hexEscape h (by omega) rest
  · next hname hcontrol =>
    rw [Bool.not_eq_true] at hname hcontrol
    have hhex : isHexDigit c = false := by
      rw [Bool.eq_false_iff, ne_eq, isHexDigit_iff]
      rw [Bool.eq_false_iff, ne_eq, isNameChar_iff] at hname
      omega
    have hline : atNewline (c :: rest) = false := by
      rw [atNewline_cons, Bool.eq_false_iff, ne_eq, isNewline_iff]
      rw [Bool.eq_false_iff, ne_eq, isControl_iff] at hcontrol
      omega
    rw [List.cons_append, List.singleton_append, readName_escape hline, readEscape_cons hhex h]

theorem readName_writeName_append {cs : List Char} (h : nul ∉ cs) (rest : List Char) :
    readName (writeName cs ++ rest) = (cs ++ (readName rest).1, (readName rest).2) := by
  induction cs with
  | nil => rfl
  | cons c cs ih =>
    obtain ⟨hc, hcs⟩ := not_or.1 (mt List.mem_cons.2 h)
    rw [writeName, List.flatMap_cons, List.append_assoc, readName_writeNameChar (Ne.symm hc), ← writeName,
      ih hcs]
    rfl

/-- A written name is read to its end. -/
theorem readName_writeName {cs rest : List Char} (h : nul ∉ cs) (hrest : readName rest = ([], rest)) :
    readName (writeName cs ++ rest) = (cs, rest) := by
  rw [readName_writeName_append h, hrest, List.append_nil]

/-! ## Identifiers -/

theorem toNat_of_isDigit {c : Char} (h : c.isDigit = true) : c ≠ nul ∧ c.toNat < 128 := by
  rw [isDigit_iff] at h
  exact ⟨ne_nul_iff.2 (by omega), by omega⟩

theorem readName_writeUndigited {cs rest : List Char} (h : nul ∉ cs) (hrest : readName rest = ([], rest)) :
    readName (writeUndigited cs ++ rest) = (cs, rest) := by
  unfold writeUndigited
  split
  · next c tail =>
    split
    · next hc =>
      obtain ⟨hc, hlt⟩ := toNat_of_isDigit hc
      rw [List.append_assoc, readName_hexEscape hc hlt,
        readName_writeName (fun hm => h (List.mem_cons_of_mem _ hm)) hrest]
    · exact readName_writeName h hrest
  · exact hrest

theorem readName_dash (rest : List Char) : readName ('-' :: rest) = ('-' :: (readName rest).1, (readName rest).2) :=
  readName_cons (by decide) rest

/-- A written identifier is read to its end. -/
theorem readName_writeIdentifier {cs rest : List Char} (h : nul ∉ cs) (hrest : readName rest = ([], rest)) :
    readName (writeIdentifier cs ++ rest) = (cs, rest) := by
  unfold writeIdentifier
  split
  · rw [List.cons_append, List.singleton_append, readName_escape (atNewline_cons _ _),
      readEscape_cons (by decide) (by decide), hrest]
  · next tail =>
    rw [List.cons_append, List.cons_append, readName_dash, readName_dash,
      readName_writeName (fun hm => h (by simp [hm])) hrest]
  · next tail _ _ =>
    rw [List.cons_append, readName_dash,
      readName_writeUndigited (fun hm => h (List.mem_cons_of_mem _ hm)) hrest]
  · exact readName_writeUndigited h hrest

/-- What a name without a dash in front is written with. -/
theorem writeUndigited_cons {c : Char} (hc : c ≠ '-') (cs : List Char) :
    ∃ d ds, writeUndigited (c :: cs) = d :: ds ∧
      (isNameStart d = true ∨ d = '\\' ∧ ∀ rest, atNewline (ds ++ rest) = false) := by
  unfold writeUndigited
  dsimp only
  split
  · next hdigit =>
    refine ⟨'\\', Nat.toDigits 16 c.toNat ++ [' '] ++ writeName cs, rfl, .inr ⟨rfl, ?_⟩⟩
    intro rest
    rw [List.append_assoc, List.append_assoc]
    exact atNewline_toDigits (toNat_of_isDigit hdigit).2 _
  · next hdigit =>
    rw [writeName, List.flatMap_cons, writeNameChar]
    split
    · exact ⟨replacement, _, rfl, .inl (by decide)⟩
    split
    · next hname =>
      refine ⟨c, _, rfl, .inl ?_⟩
      rw [isDigit_iff] at hdigit
      rw [ne_eq, eq_iff_toNat] at hc
      simp only [Char.reduceToNat] at hc
      rw [isNameChar_iff] at hname
      rw [isNameStart_iff]
      omega
    split
    · next hcontrol =>
      refine ⟨'\\', Nat.toDigits 16 c.toNat ++ [' '] ++ writeName cs, rfl, .inr ⟨rfl, ?_⟩⟩
      intro rest
      rw [isControl_iff] at hcontrol
      rw [List.append_assoc, List.append_assoc]
      exact atNewline_toDigits (by omega) _
    · next hcontrol =>
      refine ⟨'\\', c :: writeName cs, rfl, .inr ⟨rfl, ?_⟩⟩
      intro rest
      rw [isControl_iff] at hcontrol
      rw [List.cons_append, atNewline_cons, Bool.eq_false_iff, ne_eq, isNewline_iff]
      omega

theorem startsName_of_isNameStart {c : Char} (h : isNameStart c = true) (rest : List Char) :
    startsName (c :: rest) = true := by
  unfold startsName
  split
  · next heq => cases heq
  · next heq => cases heq; exact absurd h (by decide)
  · next heq => cases heq; exact absurd h (by decide)
  · next heq => cases heq; exact h

/-- A written identifier starts like one. -/
theorem startsName_writeIdentifier {cs : List Char} (h : cs ≠ []) (rest : List Char) :
    startsName (writeIdentifier cs ++ rest) = true := by
  unfold writeIdentifier
  split
  · rfl
  · rfl
  · next tail hne hnedash =>
    cases tail with
    | nil => exact absurd rfl hne
    | cons c tail =>
      have hc : c ≠ '-' := fun hc => hnedash tail (by rw [hc])
      obtain ⟨d, ds, hds, hd⟩ := writeUndigited_cons hc tail
      rw [hds]
      rcases hd with hd | ⟨rfl, -⟩ <;> simp [startsName, *]
  · next hone htwo hdash =>
    cases cs with
    | nil => exact absurd rfl h
    | cons c tail =>
      have hc : c ≠ '-' := fun hc => hdash tail (by rw [hc])
      obtain ⟨d, ds, hds, hd⟩ := writeUndigited_cons hc tail
      rw [hds]
      rcases hd with hd | ⟨rfl, hline⟩
      · exact startsName_of_isNameStart hd _
      · simp [startsName, hline rest]

/-! ## NUL in names -/

theorem writeNameChar_shown (c : Char) : writeNameChar (Text.shown c) = writeNameChar c := by
  unfold Text.shown
  split
  · next h =>
    rw [h]
    decide
  · rfl

theorem writeName_cons (c : Char) (cs : List Char) : writeName (c :: cs) = writeNameChar c ++ writeName cs :=
  List.flatMap_cons

theorem writeName_shown (cs : List Char) : writeName (cs.map Text.shown) = writeName cs := by
  induction cs with
  | nil => rfl
  | cons c cs ih => rw [List.map_cons, writeName_cons, writeName_cons, writeNameChar_shown, ih]

theorem writeUndigited_shown (cs : List Char) : writeUndigited (cs.map Text.shown) = writeUndigited cs := by
  cases cs with
  | nil => rfl
  | cons c cs =>
    by_cases hc : c = nul
    · -- neither NUL nor what stands in for it is a digit
      rw [hc]
      exact writeName_shown (nul :: cs)
    · rw [List.map_cons, shown_of_ne_nul hc, writeUndigited, writeUndigited, writeName_cons, writeName_cons,
        writeName_shown]

theorem writeIdentifier_of_ne {c : Char} (hc : c ≠ '-') (cs : List Char) :
    writeIdentifier (c :: cs) = writeUndigited (c :: cs) := by
  unfold writeIdentifier
  split
  · next heq => exact absurd (List.cons.inj heq).1 hc
  · next heq => exact absurd (List.cons.inj heq).1 hc
  · next heq => exact absurd (List.cons.inj heq).1 hc
  · rfl

theorem writeIdentifier_dash {c : Char} (hc : c ≠ '-') (cs : List Char) :
    writeIdentifier ('-' :: c :: cs) = '-' :: writeUndigited (c :: cs) := by
  unfold writeIdentifier
  split
  · next heq => cases heq
  · next heq => exact absurd (List.cons.inj (List.cons.inj heq).2).1 hc
  · next heq => rw [(List.cons.inj heq).2]
  · next hdash => exact absurd rfl (hdash (c :: cs))

theorem shown_ne_dash {c : Char} (hc : c ≠ '-') : Text.shown c ≠ '-' := by
  unfold Text.shown
  split
  · decide
  · exact hc

/-- A name is written with what stands in for NUL. -/
theorem writeIdentifier_shown (cs : List Char) : writeIdentifier (cs.map Text.shown) = writeIdentifier cs := by
  cases cs with
  | nil => rfl
  | cons c cs =>
    by_cases hc : c = '-'
    · subst hc
      cases cs with
      | nil => rfl
      | cons d cs =>
        by_cases hd : d = '-'
        · subst hd
          exact congrArg ('-' :: '-' :: ·) (writeName_shown cs)
        · rw [writeIdentifier_dash hd, ← writeUndigited_shown]
          exact writeIdentifier_dash (shown_ne_dash hd) _
    · rw [writeIdentifier_of_ne hc, ← writeUndigited_shown]
      exact writeIdentifier_of_ne (shown_ne_dash hc) _

end StyleSelectors.Token
