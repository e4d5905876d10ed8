/-
What the operators ask of the value of an attribute, said with nothing but `++`. The words of a value are
what stands between blanks or the ends of it (`mem_words_iff`), so every test by an operator is passed by
the values that it asks for and no others (`MatchOperator.holds_iff_asks`). Which of the tests are stricter
than which is read off that, and all is told in `Lookup.tests_iff`.
-/
import Mathlib.Data.List.Infix
import StyleSelectors.Matching.Model

namespace StyleSelectors

open Text

/-! ## Words -/

/-- A character before the first word makes it longer. -/
theorem words_cons {c : Char} (hc : isSpace c = false) (rest : List Char) :
    words (c :: rest) = (c :: (words rest).head?.getD []) :: (words rest).tail := by
  rw [words, if_neg (by simp [hc])]
  cases words rest <;> rfl

theorem words_blank {c : Char} (hc : isSpace c = true) (rest : List Char) :
    words (c :: rest) = [] :: words rest := by
  rw [words, if_pos hc]

theorem words_eq_cons (v : List Char) : words v = (words v).head?.getD [] :: (words v).tail := by
  cases v with
  | nil => rfl
  | cons c rest =>
    cases hc : isSpace c with
    | true => rw [words_blank hc]; rfl
    | false => rw [words_cons hc]; rfl

/-- Whether a text is at its end, or goes on with a blank. -/
def EndsWord (q : List Char) : Prop := ∀ c ∈ q.head?, isSpace c = true

/-- Whether a text has no blanks in it. -/
def Unbroken (w : List Char) : Prop := ∀ c ∈ w, isSpace c = false

theorem not_endsWord {c : Char} (hc : isSpace c = false) (q : List Char) : ¬ EndsWord (c :: q) := by
  intro h
  have hspace := h c rfl
  rw [hc] at hspace
  cases hspace

theorem unbroken_cons {c : Char} {w : List Char} : Unbroken (c :: w) ↔ isSpace c = false ∧ Unbroken w :=
  List.forall_mem_cons

/-- The first word is what stands before the first blank. -/
theorem eq_first_word_iff {w v : List Char} :
    w = (words v).head?.getD [] ↔ Unbroken w ∧ ∃ q, v = w ++ q ∧ EndsWord q := by
  induction v generalizing w with
  | nil =>
    constructor
    · rintro rfl
      exact ⟨List.forall_mem_nil _, [], rfl, nofun⟩
    · rintro ⟨-, q, hq, -⟩
      exact (List.append_eq_nil_iff.1 hq.symm).1
  | cons c v ih =>
    cases hc : isSpace c with
    | true =>
      rw [words_blank hc]
      constructor
      · rintro rfl
        refine ⟨List.forall_mem_nil _, c :: v, rfl, fun d hd => ?_⟩
        rw [← Option.some.inj hd, hc]
      · rintro ⟨hw, q, hq, -⟩
        cases w with
        | nil => rfl
        | cons d w =>
          rw [← (List.cons.inj hq).1, unbroken_cons, hc] at hw
          cases hw.1
    | false =>
      rw [words_cons hc]
      constructor
      · rintro rfl
        obtain ⟨hw, q, hq, hend⟩ := ih.1 rfl
        exact ⟨unbroken_cons.2 ⟨hc, hw⟩, q, congrArg (c :: ·) hq, hend⟩
      · rintro ⟨hw, q, hq, hend⟩
        cases w with
        | nil =>
          rw [List.nil_append] at hq
          rw [← hq] at hend
          exact absurd hend (not_endsWord hc v)
        | cons d w =>
          obtain ⟨rfl, hv⟩ := List.cons.inj hq
          exact congrArg (c :: ·) (ih.2 ⟨(unbroken_cons.1 hw).2, q, hv, hend⟩)

/-- Any other word stands after a blank. -/
theorem mem_later_words_iff {w v : List Char} :
    w ∈ (words v).tail ↔ Unbroken w ∧ ∃ r b q, v = r ++ b :: (w ++ q) ∧ isSpace b = true ∧ EndsWord q := by
  induction v with
  | nil => simp [words]
  | cons c v ih =>
    cases hc : isSpace c with
    | true =>
      rw [words_blank hc, List.tail_cons, words_eq_cons, List.mem_cons, eq_first_word_iff, ih]
      constructor
      · rintro (⟨hw, q, rfl, hend⟩ | ⟨hw, r, b, q, rfl, hb, hend⟩)
        · exact ⟨hw, [], c, q, rfl, hc, hend⟩
        · exact ⟨hw, c :: r, b, q, rfl, hb, hend⟩
      · rintro ⟨hw, r, b, q, heq, hb, hend⟩
        cases r with
        | nil => exact .inl ⟨hw, q, (List.cons.inj heq).2, hend⟩
        | cons d r => exact .inr ⟨hw, r, b, q, (List.cons.inj heq).2, hb, hend⟩
    | false =>
      rw [words_cons hc, List.tail_cons, ih]
      constructor
      · rintro ⟨hw, r, b, q, rfl, hb, hend⟩
        exact ⟨hw, c :: r, b, q, rfl, hb, hend⟩
      · rintro ⟨hw, r, b, q, heq, hb, hend⟩
        cases r with
        | nil =>
          rw [(List.cons.inj heq).1, hb] at hc
          cases hc
        | cons d r => exact ⟨hw, r, b, q, (List.cons.inj heq).2, hb, hend⟩

/-- A word stands between blanks or the ends of the text. -/
theorem mem_words_iff {w v : List Char} :
    w ∈ words v ↔
      Unbroken w ∧ ∃ r q, v = r ++ w ++ q ∧ (∀ c ∈ r.getLast?, isSpace c = true) ∧ EndsWord q := by
  rw [words_eq_cons, List.mem_cons, eq_first_word_iff, mem_later_words_iff]
  constructor
  · rintro (⟨hw, q, rfl, hend⟩ | ⟨hw, r, b, q, rfl, hb, hend⟩)
    · exact ⟨hw, [], q, rfl, nofun, hend⟩
    · refine ⟨hw, r ++ [b], q, by simp, ?_, hend⟩
      intro c hc
      rw [List.getLast?_concat] at hc
      rw [← Option.some.inj hc, hb]
  · rintro ⟨hw, r, q, rfl, hlast, hend⟩
    rcases List.eq_nil_or_concat' r with rfl | ⟨r, b, rfl⟩
    · exact .inl ⟨hw, q, rfl, hend⟩
    · exact .inr ⟨hw, r, b, q, by simp, hlast b List.getLast?_concat, hend⟩

theorem occursIn_iff {w v : List Char} : occursIn w v = true ↔ w <:+: v := by
  induction v with
  | nil => rw [occursIn, List.isEmpty_iff, List.infix_nil]
  | cons c v ih => rw [occursIn, Bool.or_eq_true, List.isPrefixOf_iff_prefix, ih, List.infix_cons_iff]

/-! ## Operators -/

/-- What an operator asks of a value `v`, with an operand `w`. -/
def MatchOperator.Asks (op : MatchOperator) (w v : List Char) : Prop :=
  match op with
  | .word =>
    w ≠ [] ∧ (∀ c ∈ w, isSpace c = false) ∧
      ∃ r q, v = r ++ w ++ q ∧ (∀ c ∈ r.getLast?, isSpace c = true) ∧ ∀ c ∈ q.head?, isSpace c = true
  | .dash => v = w ∨ ∃ r, v = w ++ '-' :: r
  | .start => w ≠ [] ∧ ∃ r, v = w ++ r
  | .finish => w ≠ [] ∧ ∃ r, v = r ++ w
  | .part => w ≠ [] ∧ ∃ r q, v = r ++ w ++ q

theorem prefix_iff_eq_append {w v : List Char} : w <+: v ↔ ∃ r, v = w ++ r := exists_congr fun _ => eq_comm

/-- A value passes the test of an operator exactly if it is as the operator asks. -/
theorem MatchOperator.holds_iff_asks (op : MatchOperator) (w v : List Char) : op.holds w v = true ↔ op.Asks w v := by
  have hempty : (!w.isEmpty) = true ↔ w ≠ [] := by simp
  cases op with
  | word =>
    have hspace : (!w.any isSpace) = true ↔ Unbroken w := by simp [Unbroken]
    rw [holds, Bool.and_eq_true, Bool.and_eq_true, hempty, hspace, List.contains_iff_mem, mem_words_iff, and_assoc]
    exact and_congr_right fun _ => and_self_left
  | dash =>
    rw [holds, Bool.and_eq_true, List.isPrefixOf_iff_prefix, prefix_iff_eq_append]
    constructor
    · rintro ⟨⟨r, rfl⟩, hr⟩
      rw [List.drop_left, Bool.or_eq_true, List.isEmpty_iff, beq_iff_eq, List.head?_eq_some_iff] at hr
      rcases hr with rfl | ⟨r, rfl⟩
      · exact .inl (List.append_nil w)
      · exact .inr ⟨r, rfl⟩
    · rintro (rfl | ⟨r, rfl⟩)
      · exact ⟨⟨[], (List.append_nil v).symm⟩, by simp⟩
      · exact ⟨⟨'-' :: r, rfl⟩, by simp⟩
  | start => rw [holds, Bool.and_eq_true, hempty, List.isPrefixOf_iff_prefix, prefix_iff_eq_append, Asks]
  | finish =>
    rw [holds, Bool.and_eq_true, hempty, List.isSuffixOf_iff_suffix]
    exact and_congr_right fun _ => exists_congr fun _ => eq_comm
  | part =>
    rw [holds, Bool.and_eq_true, hempty, occursIn_iff]
    exact and_congr_right fun _ => exists₂_congr fun _ _ => eq_comm

namespace MatchOperator

variable {w v : List Char}

theorem asks_dash_self (w : List Char) : dash.Asks w w := .inl rfl

/-- A value that is the operand, or goes on with a dash after it, starts with it. -/
theorem asks_start_of_dash (hw : w ≠ []) (h : dash.Asks w v) : start.Asks w v := by
  rcases h with rfl | ⟨r, rfl⟩
  · exact ⟨hw, [], (List.append_nil v).symm⟩
  · exact ⟨hw, '-' :: r, rfl⟩

/-- A word, a start and an end are parts. -/
theorem asks_part {op : MatchOperator} (hop : op ≠ .dash) (h : op.Asks w v) : part.Asks w v := by
  cases op with
  | word =>
    obtain ⟨hw, -, r, q, hv, -⟩ := h
    exact ⟨hw, r, q, hv⟩
  | dash => exact absurd rfl hop
  | start =>
    obtain ⟨hw, r, hv⟩ := h
    exact ⟨hw, [], r, hv⟩
  | finish =>
    obtain ⟨hw, r, hv⟩ := h
    exact ⟨hw, r, [], hv.trans (List.append_nil _).symm⟩
  | part => exact h

end MatchOperator

/-! ## Tests on attributes -/

namespace Lookup

variable {E : Type}

theorem passes_iff {look : Lookup E} {op : MatchOperator} {e : E} {ns : Namespace} {name operand : String} :
    look.passes op e ns name operand = true ↔
      ∃ value, look e ns name = some value ∧ op.Asks operand.toList value.toList := by
  simp only [passes, Option.any_eq_true, MatchOperator.holds_iff_asks]

theorem equals_iff {look : Lookup E} {e : E} {ns : Namespace} {name operand : String} :
    look.equals e ns name operand = true ↔ look e ns name = some operand := by
  simp only [equals, Option.any_eq_true, beq_iff_eq, exists_eq_right]

/-- An attribute passes a test exactly if it is there and its value is as the operator asks. So equality
is stricter than `|=`, this with an operand that is not empty is stricter than `^=`, and `~=`, `^=` and
`$=` are stricter than `*=`. An attribute that is not there passes no test. -/
theorem tests_iff (look : Lookup E) (e : E) (ns : Namespace) (name operand : String) :
    (look.has e ns name = true ↔ ∃ value, look e ns name = some value) ∧
      (look.equals e ns name operand = true ↔ look e ns name = some operand) ∧
      (∀ op, look.passes op e ns name operand = true ↔
        ∃ value, look e ns name = some value ∧ op.Asks operand.toList value.toList) ∧
      (look.equals e ns name operand = true → look.passes .dash e ns name operand = true) ∧
      (operand ≠ "" → look.passes .dash e ns name operand = true → look.passes .start e ns name operand = true) ∧
      (∀ op, op ≠ .dash → look.passes op e ns name operand = true → look.passes .part e ns name operand = true) ∧
      (look e ns name = none →
        look.has e ns name = false ∧ look.equals e ns name operand = false ∧
          ∀ op, look.passes op e ns name operand = false) := by
  refine ⟨Option.isSome_iff_exists, equals_iff, fun _ => passes_iff, fun h => ?_, fun hne h => ?_, fun op hop h => ?_,
    fun h => ?_⟩
  · exact passes_iff.2 ⟨operand, equals_iff.1 h, MatchOperator.asks_dash_self _⟩
  · obtain ⟨value, hvalue, hasks⟩ := passes_iff.1 h
    have hne : operand.toList ≠ [] := fun hnil => hne (String.toList_eq_nil_iff.1 hnil)
    exact passes_iff.2 ⟨value, hvalue, MatchOperator.asks_start_of_dash hne hasks⟩
  · obtain ⟨value, hvalue, hasks⟩ := passes_iff.1 h
    exact passes_iff.2 ⟨value, hvalue, MatchOperator.asks_part hop hasks⟩
  · simp [has, equals, passes, h]

/-- One element, in American English. -/
def american : Lookup Unit := fun _ _ name => if name = "lang" then some "en-US" else none

/-- `[lang|=en]` asks for `en` and a dash after it, and so for a start and a part. -/
theorem tests_iff_american :
    american () .absent "lang" = some "en-US" ∧ american.passes .dash () .absent "lang" "en" = true ∧
      american.passes .start () .absent "lang" "en" = true ∧ american.passes .part () .absent "lang" "en" = true := by
  obtain ⟨-, -, hpasses, -, hstart, hpart, -⟩ := tests_iff american () .absent "lang" "en"
  have hvalue : american () .absent "lang" = some "en-US" := rfl
  have hdash := (hpasses .dash).2 ⟨"en-US", hvalue, .inr ⟨['U', 'S'], by decide⟩⟩
  have hstart := hstart (by decide) hdash
  exact ⟨hvalue, hdash, hstart, hpart .start (by decide) hstart⟩

end Lookup

end StyleSelectors
