/-
Components that are read from the text of tokens. `ReadFrom` says what a text reads as in front of
another, so that a printed text is taken apart piece by piece: a token at a time (`readFrom_cons`), a
block with its brackets (`readFrom_enclose`), or any text that closes all it opens
(`readFrom_ofChars`).
-/
import StyleSelectors.Proofs.Component.Whole
import StyleSelectors.Proofs.Token.Apart
import StyleSelectors.Proofs.Token.ReadBack
import StyleSelectors.Proofs.Token.Separator

namespace StyleSelectors

/-! ## Components of tokens -/

/-- A token with the text that it is written with. -/
def Token.lexeme (t : Token) : Lexeme := ⟨t, t.text⟩

namespace Component

/-- What keeps two tokens apart, and all else that opens no block. -/
def ofToken (t : Token) : Component := .leaf t.lexeme

/-- A block as it is written. -/
def enclose (head : Token) (inside : List Component) : Component :=
  .block head.lexeme inside (some (closer head).lexeme)

/-- Whether a text, with `rest` after it, reads as the components and then `rest`. -/
def ReadFrom (cs : List Component) (text rest : List Char) : Prop :=
  Lexeme.ofChars (text ++ rest) = lexemesOf cs ++ Lexeme.ofChars rest

section ReadFrom

variable {cs ds : List Component} {text more rest : List Char} {t head : Token}

theorem readFrom_nil : ReadFrom [] [] rest := rfl

theorem readFrom_append (hcs : ReadFrom cs text (more ++ rest)) (hds : ReadFrom ds more rest) :
    ReadFrom (cs ++ ds) (text ++ more) rest := by
  rw [ReadFrom] at hcs hds ⊢
  rw [List.append_assoc, hcs, hds, lexemesOf_append, List.append_assoc]

theorem readFrom_cons (ht : t.ReadsBack (text ++ rest)) (hcs : ReadFrom cs text rest) :
    ReadFrom (ofToken t :: cs) (t.text ++ text) rest := by
  rw [ReadFrom] at hcs ⊢
  rw [List.append_assoc, Lexeme.ofChars_text ht, hcs]
  rfl

theorem readFrom_ofToken (ht : t.ReadsBack rest) : ReadFrom [ofToken t] t.text rest := by
  have : ReadFrom [ofToken t] (t.text ++ []) rest := readFrom_cons ht readFrom_nil
  rwa [List.append_nil] at this

theorem readFrom_enclose {b : Bracket} (hopen : head.opens? = some b)
    (hhead : head.ReadsBack (text ++ b.closeChar :: rest)) (hcs : ReadFrom cs text (b.closeChar :: rest)) :
    ReadFrom [enclose head cs] (head.text ++ text ++ [b.closeChar]) rest := by
  have hclose : closer head = .closing b := by rw [closer, hopen, Option.getD_some]
  have hlast : Lexeme.ofChars (b.closeChar :: rest) = (Token.closing b).lexeme :: Lexeme.ofChars rest :=
    Lexeme.ofChars_text (Token.readsBack_closing b)
  rw [ReadFrom] at hcs ⊢
  rw [List.append_assoc, List.append_assoc, List.singleton_append, Lexeme.ofChars_text hhead, hcs, hlast,
    enclose, hclose]
  simp [Token.lexeme, lexemesOf, lexemes]

end ReadFrom

/-! ## Texts that close all they open -/

/-- The lexeme of a closing bracket. -/
theorem lexeme_of_closes? {x : Lexeme} {more : List Lexeme} {b : Bracket}
    (hread : Lexeme.ofChars (Lexeme.chars (x :: more)) = x :: more) (h : x.token.closes? = some b) :
    x = (Token.closing b).lexeme := by
  obtain ⟨c, u, htext, -, hread, -⟩ := Lexeme.ofChars_eq_cons hread
  have htoken := Token.closes?_eq_some_iff.1 h
  have hclose : (Token.readToken c (u ++ Lexeme.chars more)).1 = .closing b := by rw [hread, htoken]
  obtain ⟨hc, hrest⟩ := Token.readToken_closing hclose
  rw [hread] at hrest
  have hu : u = [] := List.self_eq_append_left.1 hrest
  rw [hu, hc] at htext
  rw [show x = ⟨x.token, x.text⟩ from rfl, htoken, htext]
  rfl

/-- The lexemes of a text that reads as one block of round brackets, and closes it. -/
theorem lexemes_of_block {text : List Char} {head close : Lexeme} {inside : List Component}
    (hopen : head.token.opens? = some .round) (h : ofChars text = [.block head inside (some close)]) :
    close = (Token.closing .round).lexeme ∧ Lexeme.ofChars text = (head :: lexemesOf inside) ++ [close] := by
  have hlex : Lexeme.ofChars text = (head :: lexemesOf inside) ++ [close] := by
    have := lexemesOf_ofLexemes (Lexeme.ofChars text)
    rw [← ofChars, h] at this
    rw [← this]
    simp [lexemesOf, lexemes]
  have hlast : ofLexemes (Lexeme.ofChars text) = [] ++ [.block head inside (some close)] := h
  have hwhole : WholeAll none (ofChars text) := wholeAll_of_closed hlast
  rw [h, WholeAll, Whole] at hwhole
  obtain ⟨⟨b, x, hb, hx, hclose, -⟩, -⟩ := hwhole
  cases hx
  obtain rfl : .round = b := Option.some.inj (hopen.symm.trans hb)
  exact ⟨lexeme_of_closes? (Lexeme.ofChars_suffix hlex) hclose, hlex⟩

theorem text_of_block {text : List Char} {head close : Lexeme} {inside : List Component}
    (hopen : head.token.opens? = some .round) (h : ofChars text = [.block head inside (some close)]) :
    text = Lexeme.chars (head :: lexemesOf inside) ++ [')'] := by
  obtain ⟨rfl, hlex⟩ := lexemes_of_block hopen h
  rw [← Lexeme.chars_ofChars text, hlex, Lexeme.chars, List.flatMap_append]
  rfl

/-- A text that reads as one block of round brackets, and closes it, reads so in front of any other. -/
theorem readFrom_ofChars {text : List Char} {head close : Lexeme} {inside : List Component}
    (hopen : head.token.opens? = some .round) (h : ofChars text = [.block head inside (some close)])
    (rest : List Char) : ReadFrom (ofChars text) text rest := by
  obtain ⟨rfl, hlex⟩ := lexemes_of_block hopen h
  have htext := text_of_block hopen h
  have hstop (v : List Char) : Token.AtStop (')' :: v) := Token.Parted.atStop_cons (.inl rfl) v
  have hread : Lexeme.ofChars (Lexeme.chars (head :: lexemesOf inside) ++ ')' :: rest) =
      (head :: lexemesOf inside) ++ Lexeme.ofChars (')' :: rest) := by
    refine Lexeme.ofChars_stop (hstop []) (List.cons_ne_nil _ _) ?_ (hstop rest)
    rw [← htext, hlex]
    exact congrArg _ (Lexeme.ofChars_suffix hlex).symm
  have hlast : Lexeme.ofChars (')' :: rest) = (Token.closing .round).lexeme :: Lexeme.ofChars rest :=
    Lexeme.ofChars_text (Token.readsBack_closing .round)
  rw [ReadFrom, h, htext, List.append_assoc, List.singleton_append, hread, hlast]
  simp [lexemesOf, lexemes]

end Component

end StyleSelectors
