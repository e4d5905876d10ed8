/-
Strings read back as they were written: every character of the value by itself, and the string to
its closing quote (`readQuoted_writeQuoted`).
-/
import StyleSelectors.Token.Quoted
import StyleSelectors.Proofs.Token.Name

namespace StyleSelectors.Token

open Text

/-! ## One step -/

section Step

variable {quote c : Char} {rest : List Char}

theorem readQuoted_quote (quote : Char) (rest : List Char) : readQuoted quote (quote :: rest) = (([], true), rest) := by
  rw [readQuoted, if_pos rfl]

theorem readQuoted_newline (hquote : c ≠ quote) (hline : isNewline c = true) (rest : List Char) :
    readQuoted quote (c :: rest) = (([], false), c :: rest) := by
  rw [readQuoted, if_neg hquote, if_pos hline]

theorem readQuoted_slash_end (hquote : '\\' ≠ quote) : readQuoted quote ['\\'] = (([], true), []) := by
  rw [readQuoted, if_neg hquote, if_neg (by decide), if_pos rfl, if_pos (by rfl)]

theorem readQuoted_slash_newline (hquote : '\\' ≠ quote) (hne : rest ≠ []) (hline : atNewline rest = true) :
    readQuoted quote ('\\' :: rest) = readQuoted quote (dropSpace rest) := by
  rw [readQuoted, if_neg hquote, if_neg (by decide), if_pos rfl, if_neg (by simpa using hne), if_pos hline]

theorem readQuoted_escape (hquote : '\\' ≠ quote) (hne : rest ≠ []) (hline : atNewline rest = false) :
    readQuoted quote ('\\' :: rest) =
      (((readEscape rest).1 :: (readQuoted quote (readEscape rest).2).1.1,
        (readQuoted quote (readEscape rest).2).1.2), (readQuoted quote (readEscape rest).2).2) := by
  rw [readQuoted, if_neg hquote, if_neg (by decide), if_pos rfl, if_neg (by simpa using hne),
    if_neg (by simp [hline])]

theorem readQuoted_cons (hquote : c ≠ quote) (hslash : c ≠ '\\') (hline : isNewline c = false) (rest : List Char) :
    readQuoted quote (c :: rest) =
      ((shown c :: (readQuoted quote rest).1.1, (readQuoted quote rest).1.2), (readQuoted quote rest).2) := by
  rw [readQuoted, if_neg hquote, if_neg (by simp [hline]), if_neg hslash]

end Step

/-! ## Written strings -/

/-- A character of a written string reads back, and the rest of the string after it. -/
theorem readQuoted_writeQuotedChar {c : Char} (h : c ≠ nul) (rest : List Char) :
    readQuoted '"' (writeQuotedChar c ++ rest) =
      ((c :: (readQuoted '"' rest).1.1, (readQuoted '"' rest).1.2), (readQuoted '"' rest).2) := by
  unfold writeQuotedChar
  split
  · next hc =>
    have hhex : isHexDigit c = false := by rcases hc with rfl | rfl <;> decide
    have hline : isNewline c = false := by rcases hc with rfl | rfl <;> decide
    rw [List.cons_append, List.singleton_append,
      readQuoted_escape (by decide) (by simp) ((atNewline_cons c rest).trans hline), readEscape_cons hhex h]
  · next hc =>
    obtain ⟨hquote, hslash⟩ := not_or.1 hc
    split
    · next hcontrol =>
      rw [isControl_iff] at hcontrol
      simp only [hexEscape, List.cons_append, List.append_assoc, List.nil_append]
      rw [readQuoted_escape (by decide) (by simp) (atNewline_toDigits (by omega) _), readEscape_hex h (by omega)]
    · next hcontrol =>
      have hline : isNewline c = false := by
        rw [Bool.eq_false_iff, ne_eq, isNewline_iff]
        rw [isControl_iff] at hcontrol
        omega
      rw [List.singleton_append, readQuoted_cons hquote hslash hline, shown_of_ne_nul h]

theorem readQuoted_writeQuoted_append {cs : List Char} (h : nul ∉ cs) (rest : List Char) :
    readQuoted '"' (writeQuoted cs ++ rest) =
      ((cs ++ (readQuoted '"' rest).1.1, (readQuoted '"' rest).1.2), (readQuoted '"' rest).2) := by
  induction cs with
  | nil => rfl
  | cons c cs ih =>
    obtain ⟨hc, hcs⟩ := not_or.1 (mt List.mem_cons.2 h)
    rw [writeQuoted, List.flatMap_cons, List.append_assoc, readQuoted_writeQuotedChar (Ne.symm hc),
      ← writeQuoted, ih hcs]
    rfl

/-- A written string is read to its closing quote. -/
theorem readQuoted_writeQuoted {cs : List Char} (h : nul ∉ cs) (rest : List Char) :
    readQuoted '"' (writeQuoted cs ++ '"' :: rest) = ((cs, true), rest) := by
  rw [readQuoted_writeQuoted_append h, readQuoted_quote, List.append_nil]

end StyleSelectors.Token
