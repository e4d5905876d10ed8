/-
Readers that never go past a closing bracket or comma. Signs, numbers, blanks and the digits of an
escape all end there at the latest, so that such a reader does the same with a stop after the text
and whatever comes next as it does at the end of the text. A number ends before any character that
is not part of one.
-/
import StyleSelectors.Token.Lexer
import StyleSelectors.Proofs.Token.Name

namespace StyleSelectors

open Text Numeric

namespace Token

/-! ## What no reader goes on with -/

section Head

variable {v : List Char} {p : Char → Bool} (hv : ∀ c ∈ v.head?, p c = false)
include hv

/-- A test that the head of a text fails, as does the end, says nothing about what comes first. -/
theorem any_head?_append (u : List Char) : (u ++ v).head?.any p = u.head?.any p := by
  cases u with
  | cons c u => rfl
  | nil =>
    cases v with
    | nil => rfl
    | cons c v => exact hv c rfl

theorem takeWhile_append_head (u : List Char) : (u ++ v).takeWhile p = u.takeWhile p := by
  have hnil : v.takeWhile p = [] := by
    cases v with
    | nil => rfl
    | cons c v => rw [List.takeWhile_cons, if_neg (by simp [hv c rfl])]
  rw [List.takeWhile_append, hnil, List.append_nil]
  split
  · next hall => exact (List.takeWhile_prefix p).eq_of_length hall |>.symm
  · rfl

theorem dropWhile_append_head (u : List Char) : (u ++ v).dropWhile p = u.dropWhile p ++ v := by
  have hself : v.dropWhile p = v := by
    cases v with
    | nil => rfl
    | cons c v => rw [List.dropWhile_cons, if_neg (by simp [hv c rfl])]
  rw [List.dropWhile_append, hself]
  split
  · next hnil => rw [List.isEmpty_iff.1 hnil, List.nil_append]
  · rfl

end Head

theorem prefix_append_head_iff {v l : List Char} (hv : ∀ c ∈ v.head?, c ∉ l) (u : List Char) :
    l <+: u ++ v ↔ l <+: u := by
  refine ⟨fun hstart => ?_, fun hstart => hstart.trans (List.prefix_append u v)⟩
  induction l generalizing u with
  | nil => exact List.nil_prefix
  | cons c l ih =>
    cases u with
    | nil =>
      obtain ⟨tail, rfl⟩ := hstart
      exact absurd (List.mem_cons_self ..) (hv c rfl)
    | cons d u =>
      rw [List.cons_append, List.cons_prefix_cons] at hstart
      rw [List.cons_prefix_cons]
      exact ⟨hstart.1, ih (fun e he hmem => hv e he (List.mem_cons_of_mem _ hmem)) u hstart.2⟩

/-- Whether a text is at its end, or goes on with a closing bracket or a comma. -/
def AtStop (v : List Char) : Prop := ∀ c ∈ v.head?, c = ')' ∨ c = ','

namespace AtStop

variable {v : List Char}

theorem nil : AtStop [] := by
  intro c hc
  cases hc

theorem eq_nil_or_cons (h : AtStop v) : v = [] ∨ ∃ c rest, v = c :: rest ∧ (c = ')' ∨ c = ',') := by
  cases v with
  | nil => exact .inl rfl
  | cons c rest => exact .inr ⟨c, rest, rfl, h c rfl⟩

theorem fails (h : AtStop v) {p : Char → Bool} (hp : p ')' = false ∧ p ',' = false) : ∀ c ∈ v.head?, p c = false := by
  intro c hc
  rcases h c hc with rfl | rfl
  · exact hp.1
  · exact hp.2

theorem any_head? (h : AtStop v) {p : Char → Bool} (hp : p ')' = false ∧ p ',' = false) (u : List Char) :
    (u ++ v).head?.any p = u.head?.any p :=
  any_head?_append (h.fails hp) u

theorem head?_ne (h : AtStop v) {d : Char} (hd : d ≠ ')' ∧ d ≠ ',') : v.head? ≠ some d := by
  intro hv
  rcases h d hv with rfl | rfl
  · exact hd.1 rfl
  · exact hd.2 rfl

theorem takeWhile_append (h : AtStop v) {p : Char → Bool} (hp : p ')' = false ∧ p ',' = false)
    (u : List Char) : (u ++ v).takeWhile p = u.takeWhile p :=
  takeWhile_append_head (h.fails hp) u

theorem dropWhile_append (h : AtStop v) {p : Char → Bool} (hp : p ')' = false ∧ p ',' = false)
    (u : List Char) : (u ++ v).dropWhile p = u.dropWhile p ++ v :=
  dropWhile_append_head (h.fails hp) u

theorem prefix_append_iff (h : AtStop v) {l : List Char} (hl : ')' ∉ l ∧ ',' ∉ l) (u : List Char) :
    l <+: u ++ v ↔ l <+: u := by
  refine prefix_append_head_iff (fun c hc => ?_) u
  rcases h c hc with rfl | rfl
  · exact hl.1
  · exact hl.2

end AtStop

/-! ## Numbers -/

theorem startsUnsigned_of_ne {c : Char} (h : c ≠ '.') (rest : List Char) :
    startsUnsigned (c :: rest) = c.isDigit := by
  unfold startsUnsigned
  split
  · next heq => exact absurd (List.cons.inj heq).1 h
  · next heq => rw [(List.cons.inj heq).1]
  · next heq => cases heq

theorem readFraction_of_ne {c : Char} (h : c ≠ '.') (rest : List Char) :
    readFraction (c :: rest) = ([], c :: rest) := by
  unfold readFraction
  split
  · next heq => exact absurd (List.cons.inj heq).1 h
  · rfl

section Fraction

variable {v : List Char} (hv : ∀ c ∈ v.head?, c.isDigit = false ∧ c ≠ '.') (u : List Char)
include hv

theorem startsUnsigned_append : startsUnsigned (u ++ v) = startsUnsigned u := by
  match v, u with
  | [], u => rw [List.append_nil]
  | d :: v, [] =>
    obtain ⟨hdigit, hpoint⟩ := hv d rfl
    rw [List.nil_append, startsUnsigned_of_ne hpoint, hdigit]
    rfl
  | d :: v, [c] =>
    obtain ⟨hdigit, -⟩ := hv d rfl
    by_cases hc : c = '.'
    · subst hc
      exact hdigit
    · rw [List.singleton_append, startsUnsigned_of_ne hc, startsUnsigned_of_ne hc]
  | d :: v, c :: e :: u =>
    by_cases hc : c = '.'
    · subst hc
      rfl
    · rw [List.cons_append, startsUnsigned_of_ne hc, startsUnsigned_of_ne hc]

theorem readDigits_append : readDigits (u ++ v) = ((readDigits u).1, (readDigits u).2 ++ v) := by
  have hdigit (c : Char) (hc : c ∈ v.head?) : c.isDigit = false := (hv c hc).1
  rw [readDigits, takeWhile_append_head hdigit, dropWhile_append_head hdigit, readDigits]

theorem readFraction_append : readFraction (u ++ v) = ((readFraction u).1, (readFraction u).2 ++ v) := by
  match v, u with
  | [], u => rw [List.append_nil, List.append_nil]
  | d :: v, [] =>
    obtain ⟨-, hpoint⟩ := hv d rfl
    rw [List.nil_append, readFraction_of_ne hpoint]
    rfl
  | d :: v, [c] =>
    obtain ⟨hdigit, -⟩ := hv d rfl
    by_cases hc : c = '.'
    · subst hc
      rw [List.singleton_append, readFraction, if_neg (by simp [hdigit])]
      rfl
    · rw [List.singleton_append, readFraction_of_ne hc, readFraction_of_ne hc]
      rfl
  | d :: v, c :: e :: u =>
    by_cases hc : c = '.'
    · subst hc
      rw [List.cons_append, List.cons_append, readFraction, readFraction]
      split
      · exact readDigits_append hv (e :: u)
      · rfl
    · rw [List.cons_append, readFraction_of_ne hc, readFraction_of_ne hc]
      rfl

end Fraction

/-- Whether a character may be part of a number. -/
def isNumberChar (c : Char) : Bool := c.isDigit || isSign c || c == '.' || c == 'e' || c == 'E'

theorem not_isNumberChar {c : Char} (h : isNumberChar c = false) :
    c.isDigit = false ∧ isSign c = false ∧ c ≠ '.' ∧ c ≠ 'e' ∧ c ≠ 'E' := by
  simpa [isNumberChar, and_assoc] using h

section Number

variable {v : List Char} (hv : ∀ c ∈ v.head?, isNumberChar c = false) (u : List Char)
include hv

theorem not_digit_or_point : ∀ c ∈ v.head?, c.isDigit = false ∧ c ≠ '.' := by
  intro c hc
  obtain ⟨hdigit, -, hpoint, -⟩ := not_isNumberChar (hv c hc)
  exact ⟨hdigit, hpoint⟩

theorem startsNumber_append : startsNumber (u ++ v) = startsNumber u := by
  match v, u with
  | [], u => rw [List.append_nil]
  | d :: v, [] =>
    obtain ⟨hdigit, hsign, hpoint, -⟩ := not_isNumberChar (hv d rfl)
    rw [List.nil_append, startsNumber, startsUnsigned_of_ne hpoint, hdigit, hsign]
    rfl
  | d :: v, c :: u =>
    rw [List.cons_append, startsNumber, startsNumber, ← List.cons_append, startsUnsigned_append (not_digit_or_point hv),
      startsUnsigned_append (not_digit_or_point hv)]

theorem readSign_append : readSign (u ++ v) = ((readSign u).1, (readSign u).2 ++ v) := by
  match v, u with
  | [], u => rw [List.append_nil, List.append_nil]
  | d :: v, [] =>
    obtain ⟨-, hsign, -⟩ := not_isNumberChar (hv d rfl)
    rw [List.nil_append, readSign, if_neg (by simp [hsign])]
    rfl
  | d :: v, c :: u =>
    rw [List.cons_append, readSign, readSign]
    split <;> rfl

theorem readPower_append : readPower (u ++ v) = ((readPower u).1, (readPower u).2 ++ v) := by
  match v, u with
  | [], u => rw [List.append_nil, List.append_nil]
  | d :: v, [] =>
    obtain ⟨-, -, -, hlower, hupper⟩ := not_isNumberChar (hv d rfl)
    simp [readPower, hlower, hupper]
  | d :: v, c :: u =>
    have hdigit (c : Char) (hc : c ∈ (d :: v).head?) : c.isDigit = false := (not_isNumberChar (hv c hc)).1
    simp only [List.cons_append, readPower, readSign_append hv, readDigits_append (not_digit_or_point hv),
      any_head?_append hdigit]
    split <;> rfl

/-- A number ends where nothing comes that may be part of one. -/
theorem read_append : Literal.read (u ++ v) = ((Literal.read u).1, (Literal.read u).2 ++ v) := by
  simp only [Literal.read, readSign_append hv, readDigits_append (not_digit_or_point hv),
    readFraction_append (not_digit_or_point hv), readPower_append hv]

end Number

theorem AtStop.number {v : List Char} (h : AtStop v) : ∀ c ∈ v.head?, isNumberChar c = false := h.fails (by decide)

/-! ## What never goes past a stop -/

theorem dropSpace_cons {c : Char} {rest : List Char} (h : ¬ (c = '\r' ∧ rest.head? = some '\n')) :
    dropSpace (c :: rest) = if isSpace c then rest else c :: rest := by
  unfold dropSpace
  split
  · next heq =>
    obtain ⟨rfl, rfl⟩ := List.cons.inj heq
    exact absurd ⟨rfl, rfl⟩ h
  · next heq =>
    obtain ⟨rfl, rfl⟩ := List.cons.inj heq
    rfl
  · next heq => cases heq

section Head

variable {v : List Char} (u : List Char)

theorem endsName_head (hv : ∀ c ∈ v.head?, (isNameChar c || c == '\\') = false) : endsName v = true := by
  have := any_head?_append hv []
  rw [List.nil_append] at this
  rw [endsName, this]
  rfl

theorem startsName_append_head (hv : ∀ c ∈ v.head?, (isNameStart c || c == '-' || c == '\\' || isNewline c) = false) :
    startsName (u ++ v) = startsName u := by
  have hname (c : Char) (hc : c ∈ v.head?) : (isNameStart c || c == '-' || c == '\\') = false :=
    (Bool.or_eq_false_iff.1 (hv c hc)).1
  match u with
  | [] =>
    cases v with
    | nil => rfl
    | cons c v =>
      obtain ⟨⟨hstart, hdash⟩, hslash⟩ : (isNameStart c = false ∧ c ≠ '-') ∧ c ≠ '\\' := by simpa using hname c rfl
      simp [startsName, hstart]
  | c :: u =>
    -- after a dash or a backslash the next character is looked at, and none of these is one that counts
    by_cases hdash : c = '-'
    · subst hdash
      exact any_head?_append hname u
    by_cases hslash : c = '\\'
    · subst hslash
      exact congrArg (!·) (any_head?_append (fun c hc => (Bool.or_eq_false_iff.1 (hv c hc)).2) u)
    · simp [startsName]

/-- After two characters nothing is looked at, be there a line end in them or not. -/
theorem dropSpace_cons_cons_append (c d : Char) (u v : List Char) :
    dropSpace (c :: d :: u ++ v) = dropSpace (c :: d :: u) ++ v := by
  by_cases hline : c = '\r' ∧ d = '\n'
  · obtain ⟨rfl, rfl⟩ := hline
    rfl
  · rw [List.cons_append, List.cons_append, dropSpace_cons (by simpa using hline),
      dropSpace_cons (by simpa using hline)]
    split <;> rfl

theorem dropSpace_append_head (hv : ∀ c ∈ v.head?, isSpace c = false) : dropSpace (u ++ v) = dropSpace u ++ v := by
  match u with
  | [] =>
    cases v with
    | nil => rfl
    | cons c v =>
      have hc := hv c rfl
      have hline : ¬ (c = '\r' ∧ v.head? = some '\n') := by
        rintro ⟨rfl, -⟩
        cases hc
      rw [List.nil_append, dropSpace_cons hline, if_neg (by simp [hc])]
      rfl
  | [c] =>
    cases v with
    | nil => rw [List.append_nil, List.append_nil]
    | cons d v =>
      have hline : ¬ (c = '\r' ∧ (d :: v).head? = some '\n') := by
        rintro ⟨-, hd⟩
        cases hd
        cases hv '\n' rfl
      rw [List.singleton_append, dropSpace_cons hline, dropSpace_cons (by simp)]
      split <;> rfl
  | c :: d :: u => exact dropSpace_cons_cons_append c d u v

/-- An escape that has begun ends before what is neither a digit of it nor a blank. -/
theorem readEscape_append_head (hv : ∀ c ∈ v.head?, (isHexDigit c || isSpace c) = false) {u : List Char}
    (hu : u ≠ []) : readEscape (u ++ v) = ((readEscape u).1, (readEscape u).2 ++ v) := by
  have hspace (c : Char) (hc : c ∈ v.head?) : isSpace c = false := (Bool.or_eq_false_iff.1 (hv c hc)).2
  cases u with
  | nil => exact absurd rfl hu
  | cons c u =>
    -- no digit of the escape comes from what is after it
    have htake : ((u ++ v).take 5).takeWhile isHexDigit = (u.take 5).takeWhile isHexDigit := by
      have hhead : ∀ d ∈ (v.take (5 - u.length)).head?, isHexDigit d = false := by
        intro d hd
        rw [List.head?_take] at hd
        split at hd
        · cases hd
        · exact (Bool.or_eq_false_iff.1 (hv d hd)).1
      rw [List.take_append, takeWhile_append_head hhead]
    have hlen : ((u.take 5).takeWhile isHexDigit).length ≤ u.length :=
      Nat.le_trans (List.takeWhile_prefix _).length_le (List.take_prefix 5 u).length_le
    simp only [List.cons_append, readEscape, htake]
    split
    · rw [List.drop_append_of_le_length hlen, dropSpace_append_head _ hspace]
    · rfl

end Head

section Extends

variable {v : List Char} (hv : AtStop v) (u : List Char)
include hv

theorem endsName_stop : endsName v = true := endsName_head (hv.fails (by decide))

theorem startsName_append : startsName (u ++ v) = startsName u := startsName_append_head u (hv.fails (by decide))

theorem dropSpace_append : dropSpace (u ++ v) = dropSpace u ++ v := dropSpace_append_head u (hv.fails (by decide))

/-- An escape that has begun before a stop ends there at the latest. -/
theorem readEscape_append {u : List Char} (hu : u ≠ []) :
    readEscape (u ++ v) = ((readEscape u).1, (readEscape u).2 ++ v) :=
  readEscape_append_head (hv.fails (by decide)) hu

end Extends

end Token

end StyleSelectors
