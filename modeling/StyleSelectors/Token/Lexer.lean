/-
From text to lexemes. `readToken` takes one token off a text that is not empty, and always some of
the text with it (`readToken_suffix`), so `Lexeme.ofChars` is total; the texts of the lexemes make
up the text that was read (`chars_ofChars`).
-/
import StyleSelectors.Token.Basic
import StyleSelectors.Token.Quoted
import StyleSelectors.Token.Url

namespace StyleSelectors

namespace Token

open Text Numeric

/-! ## One token -/

def readSpace (cs : List Char) : Token × List Char :=
  (.whitespace (String.ofList (cs.takeWhile isSpace)), cs.dropWhile isSpace)

/-- A string opened by `quote`. -/
def readString (quote : Char) (cs : List Char) : Token × List Char :=
  let string := readQuoted quote cs
  let value := String.ofList string.1.1
  (if string.1.2 then .string value else .badString value, string.2)

/-- The text of a comment, up to its end or that of the text. -/
def readComment : List Char → List Char × List Char
  | [] => ([], [])
  | '*' :: '/' :: rest => ([], rest)
  | c :: rest => (c :: (readComment rest).1, (readComment rest).2)

/-- What was taken off the front of `cs` to leave `rest`. -/
def taken (cs rest : List Char) : List Char := cs.take (cs.length - rest.length)

/-- A url without quotes, after its opening bracket. -/
def readUrl (cs : List Char) : Token × List Char :=
  let value := cs.dropWhile isSpace
  let body := readUrlBody value
  match body.1 with
  | some chars => (.url (String.ofList chars), body.2)
  | none =>
    let spoilt := readSpoilt body.2
    (.badUrl (String.ofList (taken value body.2 ++ spoilt.1)), spoilt.2)

/-- Whether the first thing after blanks is a quote. -/
def quoteAhead (cs : List Char) : Bool := (cs.dropWhile isSpace).head?.any fun c => c == '"' || c == '\''

/-- An identifier, a function or a url without quotes. -/
def readNamed (cs : List Char) : Token × List Char :=
  let name := readName cs
  let text := String.ofList name.1
  match name.2 with
  | '(' :: rest =>
    if sameIgnoringCase text "url" && !quoteAhead rest then readUrl rest else (.function text, rest)
  | rest => (.ident text, rest)

/-- A number, with what it is counted in. -/
def readNumeric (cs : List Char) : Token × List Char :=
  let literal := Literal.read cs
  match literal.2 with
  | '%' :: rest => (.percentage (literal.1.numeral true), rest)
  | rest =>
    if startsName rest then
      let unit := readName rest
      (.dimension (literal.1.numeral false) (String.ofList unit.1), unit.2)
    else (.number (literal.1.numeral false), rest)

/-- What a hash sign starts. -/
def readHash (rest : List Char) : Token × List Char :=
  if startsName rest then (.idHash (String.ofList (readName rest).1), (readName rest).2)
  else if rest.head?.any fun c => c.isDigit || c == '-' then
    (.hash (String.ofList (readName rest).1), (readName rest).2)
  else (.delim '#', rest)

/-- A token that starts with neither a blank, a quote, a number nor a name. -/
def readSymbol (c : Char) (rest : List Char) : Token × List Char :=
  match MatchOperator.ofSign? c, Bracket.ofOpen? c, Bracket.ofClose? c with
  | some op, _, _ => if rest.head? = some '=' then (.matching op, rest.drop 1) else (.delim c, rest)
  | none, some b, _ => (.opening b, rest)
  | none, none, some b => (.closing b, rest)
  | none, none, none =>
    if c = ':' then (.colon, rest)
    else if c = ';' then (.semicolon, rest)
    else if c = ',' then (.comma, rest)
    else if c = '<' ∧ ['!', '-', '-'] <+: rest then (.markupOpen, rest.drop 3)
    else if c = '/' ∧ ['*'] <+: rest then
      (.comment (String.ofList (readComment (rest.drop 1)).1), (readComment (rest.drop 1)).2)
    else if c = '#' then readHash rest
    else if c = '@' ∧ startsName rest = true then
      (.atKeyword (String.ofList (readName rest).1), (readName rest).2)
    else (.delim c, rest)

/-- The first token of the text `c :: rest`, and the text after it. -/
def readToken (c : Char) (rest : List Char) : Token × List Char :=
  if isSpace c then readSpace (c :: rest)
  else if c = '"' ∨ c = '\'' then readString c rest
  else if startsNumber (c :: rest) then readNumeric (c :: rest)
  else if c = '-' ∧ ['-', '>'] <+: rest then (.markupClose, rest.drop 2)
  else if startsName (c :: rest) then readNamed (c :: rest)
  else readSymbol c rest

/-! ## Progress -/

theorem readName_suffix_tail {c : Char} {rest : List Char} (h : startsName (c :: rest) = true) :
    (readName (c :: rest)).2 <:+ rest := by
  rw [readName]
  split
  · next hc =>
    subst hc
    have : atNewline rest = false := by simpa [startsName] using h
    simpa [this] using (readName_suffix _).trans (readEscape_suffix rest)
  · next hc =>
    have hname : isNameChar c = true := by
      by_cases hd : c = '-'
      · simp [isNameChar, hd]
      · have : isNameStart c = true := by simpa [startsName, hd, hc] using h
        simp [isNameChar, this]
    simpa [hname] using readName_suffix rest

theorem readDigits_suffix (cs : List Char) : (readDigits cs).2 <:+ cs := List.dropWhile_suffix _

theorem readSign_suffix (cs : List Char) : (readSign cs).2 <:+ cs := by
  unfold readSign
  split
  · split
    · exact List.suffix_cons _ _
    · exact List.suffix_refl _
  · exact List.suffix_refl _

theorem readFraction_suffix (cs : List Char) : (readFraction cs).2 <:+ cs := by
  unfold readFraction
  split
  · split
    · exact (readDigits_suffix _).trans (List.suffix_cons _ _)
    · exact List.suffix_refl _
  · exact List.suffix_refl _

theorem readPower_suffix (cs : List Char) : (readPower cs).2 <:+ cs := by
  unfold readPower
  split
  · next c rest =>
    dsimp only
    split
    · exact ((readDigits_suffix _).trans (readSign_suffix rest)).trans (List.suffix_cons _ _)
    · exact List.suffix_refl _
  · exact List.suffix_refl _

theorem read_suffix_after {cs : List Char} :
    (Literal.read cs).2 <:+ (readFraction (readDigits (readSign cs).2).2).2 :=
  readPower_suffix _

/-- A number takes its first character. -/
theorem read_suffix_tail {c : Char} {rest : List Char} (h : startsNumber (c :: rest) = true) :
    (Literal.read (c :: rest)).2 <:+ rest := by
  refine read_suffix_after.trans ?_
  by_cases hs : isSign c = true
  · have : (readSign (c :: rest)).2 = rest := by simp [readSign, hs]
    rw [this]
    exact (readFraction_suffix _).trans (readDigits_suffix _)
  · have hsign : (readSign (c :: rest)).2 = c :: rest := by simp [readSign, hs]
    rw [hsign]
    have hu : startsUnsigned (c :: rest) = true := by simpa [startsNumber, hs] using h
    by_cases hd : c.isDigit = true
    · have : (readDigits (c :: rest)).2 = rest.dropWhile Char.isDigit := by simp [readDigits, hd]
      rw [this]
      exact (readFraction_suffix _).trans (List.dropWhile_suffix _)
    · have : (readDigits (c :: rest)).2 = c :: rest := by simp [readDigits, hd]
      rw [this]
      unfold startsUnsigned at hu
      split at hu
      · next d tail heq =>
        obtain ⟨rfl, rfl⟩ := List.cons.inj heq
        simpa [readFraction, hu] using readDigits_suffix (d :: tail)
      · next _ heq =>
        obtain ⟨rfl, rfl⟩ := List.cons.inj heq
        exact absurd hu hd
      · cases hu

theorem readNumeric_suffix {c : Char} {rest : List Char} (h : startsNumber (c :: rest) = true) :
    (readNumeric (c :: rest)).2 <:+ rest := by
  have hread := read_suffix_tail h
  unfold readNumeric
  dsimp only
  split
  · next tail heq =>
    rw [heq] at hread
    exact (List.suffix_cons _ _).trans hread
  · split
    · exact (readName_suffix _).trans hread
    · exact hread

theorem readUrl_suffix (cs : List Char) : (readUrl cs).2 <:+ cs := by
  have hbody := (readUrlBody_suffix (cs.dropWhile isSpace)).trans (List.dropWhile_suffix _)
  unfold readUrl
  dsimp only
  split
  · exact hbody
  · exact (readSpoilt_suffix _).trans hbody

theorem readNamed_suffix {c : Char} {rest : List Char} (h : startsName (c :: rest) = true) :
    (readNamed (c :: rest)).2 <:+ rest := by
  have hname := readName_suffix_tail h
  unfold readNamed
  dsimp only
  split
  · next tail heq =>
    rw [heq] at hname
    have htail := (List.suffix_cons _ _).trans hname
    split
    · exact (readUrl_suffix _).trans htail
    · exact htail
  · exact hname

theorem readComment_suffix (cs : List Char) : (readComment cs).2 <:+ cs := by
  fun_induction readComment cs with
  | case1 => exact List.suffix_refl _
  | case2 rest => exact ⟨['*', '/'], rfl⟩
  | case3 _ _ _ ih => exact ih.trans (List.suffix_cons _ _)

theorem readHash_suffix (rest : List Char) : (readHash rest).2 <:+ rest := by
  unfold readHash
  split
  · exact readName_suffix _
  · split
    · exact readName_suffix _
    · exact List.suffix_refl _

theorem readSymbol_suffix (c : Char) (rest : List Char) : (readSymbol c rest).2 <:+ rest := by
  unfold readSymbol
  split
  · split
    · exact List.drop_suffix _ _
    · exact List.suffix_refl _
  · exact List.suffix_refl _
  · exact List.suffix_refl _
  · repeat' split
    · exact List.suffix_refl _
    · exact List.suffix_refl _
    · exact List.suffix_refl _
    · exact List.drop_suffix _ _
    · exact (readComment_suffix _).trans (List.drop_suffix _ _)
    · exact readHash_suffix _
    · exact readName_suffix _
    · exact List.suffix_refl _

/-- A token takes at least one character. -/
theorem readToken_suffix (c : Char) (rest : List Char) : (readToken c rest).2 <:+ rest := by
  unfold readToken
  split
  · next h => simpa [readSpace, h] using List.dropWhile_suffix isSpace
  split
  · exact readQuoted_suffix _ _
  split
  · next h => exact readNumeric_suffix h
  split
  · exact List.drop_suffix _ _
  split
  · next h => exact readNamed_suffix h
  · exact readSymbol_suffix c rest

/-! ## A whole text -/

end Token

namespace Lexeme

/-- The lexemes of a text, in order. -/
def ofChars : List Char → List Lexeme
  | [] => []
  | c :: rest =>
    let read := Token.readToken c rest
    have := (Token.readToken_suffix c rest).length_le
    ⟨read.1, Token.taken (c :: rest) read.2⟩ :: ofChars read.2
termination_by cs => cs.length
decreasing_by grind

/-- The text that lexemes were read from. -/
def chars (xs : List Lexeme) : List Char := xs.flatMap Lexeme.text

theorem taken_append {cs rest : List Char} (h : rest <:+ cs) : Token.taken cs rest ++ rest = cs := by
  obtain ⟨front, rfl⟩ := h
  simp [Token.taken]

/-- Lexemes lose nothing of the text. -/
theorem chars_ofChars (cs : List Char) : chars (ofChars cs) = cs := by
  fun_induction ofChars cs with
  | case1 => rfl
  | case2 c rest read h ih =>
    have hsuffix := (Token.readToken_suffix c rest).trans (List.suffix_cons c rest)
    rw [chars, List.flatMap_cons, ← chars, ih]
    exact taken_append hsuffix

end Lexeme

end StyleSelectors
