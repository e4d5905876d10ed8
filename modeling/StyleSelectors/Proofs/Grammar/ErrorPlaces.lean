/-
Where an error is told to be. A failure is at a place between two tokens of the text
(`Cursor.stopsAt_of_group`), and its line and column are told of no other. Its offset is not its own: it
is made from line and column, as if only an LF ended lines and every column were a byte. So it is right
as long as all lines before it end in an LF and its own is ASCII up to there, or else at the end of the
text: `Group.offset_eq_iff_of_parse`.
-/
import Mathlib.Data.List.DropRight
import StyleSelectors.Proofs.Grammar.Denoted
import StyleSelectors.Proofs.Text.Position
import StyleSelectors.Proofs.Token.LineEnds

namespace StyleSelectors

open Text

variable {P Q : Type}

/-! ## Places between tokens -/

/-- Whether a text is cut between two of its lexemes. -/
def Lexeme.IsCut (cs pre post : List Char) : Prop :=
  ∃ front back, ofChars cs = front ++ back ∧ chars front = pre ∧ chars back = post

/-- Whether a place is one between two lexemes of a text. -/
def StopsAt (cs : List Char) (p : Position) : Prop :=
  ∃ pre post, Lexeme.IsCut cs pre post ∧ Position.start.advance pre = p

namespace Lexeme

variable {cs pre post : List Char} {front mid back : List Lexeme}

theorem chars_append (xs ys : List Lexeme) : chars (xs ++ ys) = chars xs ++ chars ys := List.flatMap_append

theorem chars_singleton (x : Lexeme) : chars [x] = x.text := List.append_nil _

theorem IsCut.append (h : IsCut cs pre post) : pre ++ post = cs := by
  obtain ⟨front, back, hcs, rfl, rfl⟩ := h
  rw [← chars_append, ← hcs, chars_ofChars]

/-- Reading on from a cut is reading all at once. -/
theorem advance_chars (h : ofChars cs = front ++ (mid ++ back)) :
    (Position.start.advance (chars front)).advance (chars mid) = Position.start.advance (chars (front ++ mid)) := by
  rw [chars_append, Position.advance_append]
  rintro ⟨hlast, hhead⟩
  refine unparted_ofChars h ⟨hlast, ?_⟩
  rw [chars_append, List.head?_append, hhead]
  rfl

theorem stopsAt_of_append (h : ofChars cs = front ++ back) : StopsAt cs (Position.start.advance (chars front)) :=
  ⟨_, _, ⟨front, back, h, rfl, rfl⟩, rfl⟩

/-- There is but one cut at a line and a column. -/
theorem IsCut.eq_of_line_of_column {pre' post' : List Char} (h : IsCut cs pre post) (h' : IsCut cs pre' post')
    (hline : (Position.start.advance pre').line = (Position.start.advance pre).line)
    (hcolumn : (Position.start.advance pre').column = (Position.start.advance pre).column) : pre' = pre := by
  obtain ⟨front, back, hcs, rfl, -⟩ := h
  obtain ⟨front', back', hcs', rfl, -⟩ := h'
  -- one of the two cuts comes after the other, or both are one
  rcases List.append_eq_append_iff.1 (hcs.symm.trans hcs') with ⟨mid, rfl, rfl⟩ | ⟨mid, rfl, rfl⟩
  · rw [← advance_chars hcs] at hline hcolumn
    rw [chars_append, Position.eq_nil_of_advance _ hline hcolumn, List.append_nil]
  · rw [← advance_chars hcs'] at hline hcolumn
    rw [chars_append, Position.eq_nil_of_advance _ hline.symm hcolumn.symm, List.append_nil]

end Lexeme

namespace Component

variable {xs front back : List Lexeme} {rest : List Component}

/-- Lexemes with those of a leaf in them can be cut before it and after it. -/
theorem cuts_of_leaf {x : Lexeme} (h : xs = front ++ (lexemesOf (.leaf x :: rest) ++ back)) :
    xs = front ++ ([x] ++ (lexemesOf rest ++ back)) ∧ xs = (front ++ [x]) ++ (lexemesOf rest ++ back) := by
  rw [lexemesOf, lexemes] at h
  constructor <;> simp [h]

/-- Lexemes with those of a block in them can be cut before it and after it, and at both ends of what is
inside. -/
theorem cuts_of_block {head : Lexeme} {inside : List Component} {close : Option Lexeme}
    (h : xs = front ++ (lexemesOf (.block head inside close :: rest) ++ back)) :
    xs = front ++ ([head] ++ (lexemesOf inside ++ (close.toList ++ (lexemesOf rest ++ back)))) ∧
      xs = (front ++ [head]) ++ (lexemesOf inside ++ (close.toList ++ (lexemesOf rest ++ back))) ∧
      xs = (front ++ [head] ++ lexemesOf inside) ++ (close.toList ++ (lexemesOf rest ++ back)) ∧
      xs = (front ++ [head] ++ lexemesOf inside ++ close.toList) ++ (lexemesOf rest ++ back) := by
  rw [lexemesOf, lexemes] at h
  refine ⟨?_, ?_, ?_, ?_⟩ <;> simp [h]

end Component

/-- The nodes of components that come after a cut have their places between lexemes. -/
theorem Node.exists_stops {cs : List Char} : ∀ (comps : List Component) {front back : List Lexeme},
    Lexeme.ofChars cs = front ++ (Component.lexemesOf comps ++ back) →
      ∃ ns : List (Node { p // StopsAt cs p }),
        ofComponents (Position.start.advance (Lexeme.chars front)) comps =
          (ns.map (map Subtype.val), Position.start.advance (Lexeme.chars (front ++ Component.lexemesOf comps)))
  | [], front, back, _ => ⟨[], by rw [ofComponents, Component.lexemesOf, List.append_nil]; rfl⟩
  | .leaf x :: rest, front, back, h => by
    obtain ⟨hx, hrest⟩ := Component.cuts_of_leaf h
    obtain ⟨ns, hns⟩ := exists_stops rest hrest
    rw [← Lexeme.advance_chars hx, Lexeme.chars_singleton, List.append_assoc] at hns
    have hstart := Lexeme.stopsAt_of_append hx
    have hafter := Lexeme.stopsAt_of_append hrest
    rw [← Lexeme.advance_chars hx, Lexeme.chars_singleton] at hafter
    rw [ofComponents, hns]
    dsimp only
    split
    · exact ⟨ns, rfl⟩
    · exact ⟨.leaf x.token ⟨_, hstart⟩ ⟨_, hafter⟩ :: ns, rfl⟩
  | .block head inside close :: rest, front, back, h => by
    obtain ⟨hhead, hinside, hclose, hrest⟩ := Component.cuts_of_block h
    obtain ⟨within, hwithin⟩ := exists_stops inside hinside
    obtain ⟨ns, hns⟩ := exists_stops rest hrest
    have hq := Lexeme.advance_chars hhead
    rw [Lexeme.chars_singleton] at hq
    rw [ofComponents, hq, hwithin]
    dsimp only
    rw [Lexeme.advance_chars hclose, hns]
    refine ⟨.block head.token ⟨_, Lexeme.stopsAt_of_append hhead⟩ ⟨_, Lexeme.stopsAt_of_append hinside⟩ within
      ⟨_, Lexeme.stopsAt_of_append hclose⟩ ⟨_, Lexeme.stopsAt_of_append hrest⟩ inside :: ns, ?_⟩
    rw [List.map_cons, map, mapAll_eq, Component.lexemesOf, Component.lexemes]
    simp

namespace Cursor

variable {c : Cursor P} {ns : Namespace} {locate : P → Locator}

theorem exists_stops (cs : List Char) : ∃ c : Cursor { p // StopsAt cs p }, ofChars cs = c.map Subtype.val := by
  have hcs : Lexeme.ofChars cs = [] ++ (Component.lexemesOf (Component.ofChars cs) ++ []) := by
    rw [List.append_nil, Component.ofChars, Component.lexemesOf_ofLexemes, List.nil_append]
  have hall : Lexeme.ofChars cs = Component.lexemesOf (Component.ofChars cs) ++ [] := hcs
  obtain ⟨nodes, hnodes⟩ := Node.exists_stops _ hcs
  refine ⟨⟨⟨_, Lexeme.stopsAt_of_append hcs⟩, nodes, ⟨_, Lexeme.stopsAt_of_append hall⟩⟩, ?_⟩
  show Cursor.mk Position.start (Node.ofComponents (Position.start.advance []) _).1
    (Node.ofComponents (Position.start.advance []) _).2 = _
  rw [show Position.start.advance [] = Position.start.advance (Lexeme.chars []) from rfl, hnodes]
  rfl

/-! ## Places of failures -/

theorem complex_of_selector_error {e : Failure P} (h : (c.selector locate ns).result = .error e) :
    (c.skipSpace.complex ns).result = .error e := by
  rcases Report.bind_eq_error h with h | ⟨x, -, h⟩
  · exact h
  · rw [x.result_selector] at h
    cases h

theorem selector_of_selectors_error {cs : List (Cursor P)} {e : Failure P}
    (h : (selectors locate ns cs).result = .error e) : ∃ c ∈ cs, (selector locate ns c).result = .error e := by
  induction cs with
  | nil => cases h
  | cons c cs ih =>
    rcases Report.bind_eq_error h with h | ⟨s, -, h⟩
    · exact ⟨c, List.mem_cons_self .., h⟩
    · obtain ⟨d, hd, herror⟩ := ih (Report.map_eq_error h)
      exact ⟨d, List.mem_cons_of_mem _ hd, herror⟩

theorem selector_of_group_error {e : Failure P} (h : (c.group locate ns).result = .error e) :
    ∃ d ∈ c.stretches, (selector locate ns d).result = .error e := by
  apply selector_of_selectors_error
  rw [← group_members, h]
  rfl

theorem pieces_map (f : P → Q) (here stop : P) (xs : List (Node P)) :
    pieces (f here) (f stop) (xs.map (Node.map f)) =
      ((pieces here stop xs).1.map f, (pieces here stop xs).2.map (map f)) := by
  induction xs generalizing here with
  | nil => rfl
  | cons n xs ih =>
    rw [List.map_cons, pieces, pieces, Node.token_map, Node.finish_map, Node.start_map]
    split
    · rw [ih]
      rfl
    · rw [ih]
      rfl

theorem stretches_map (f : P → Q) (c : Cursor P) : (c.map f).stretches = c.stretches.map (map f) := by
  simp only [stretches, map, pieces_map, List.map_cons]

/-- If all places of a cursor are of a kind, a failure is at one of this kind. -/
theorem place_of_complex {K : P → Prop} {c : Cursor (Subtype K)} {e : Failure P}
    (h : ((c.map Subtype.val).complex ns).result = .error e) : K e.place := by
  rw [complex_map] at h
  cases hc : (c.complex ns).result with
  | error e' =>
    rw [hc] at h
    cases h
    exact e'.place.property
  | ok x =>
    rw [hc] at h
    cases h

theorem place_of_selector {K : P → Prop} {c : Cursor (Subtype K)} {e : Failure P}
    (h : ((c.map Subtype.val).selector locate ns).result = .error e) : K e.place := by
  have hcomplex := complex_of_selector_error h
  rw [skipSpace_map] at hcomplex
  exact place_of_complex hcomplex

/-- A text fails to be read at a place between two of its lexemes. -/
theorem stopsAt_of_group {cs : List Char} {locate : Position → Locator} {e : Failure Position}
    (h : ((ofChars cs).group locate ns).result = .error e) : StopsAt cs e.place := by
  obtain ⟨c, hc⟩ := exists_stops cs
  rw [hc] at h
  obtain ⟨d, hd, herror⟩ := selector_of_group_error h
  rw [stretches_map] at hd
  obtain ⟨d', -, rfl⟩ := List.mem_map.1 hd
  exact place_of_selector herror

theorem stopsAt_of_selector {cs : List Char} {locate : Position → Locator} {e : Failure Position}
    (h : ((ofChars cs).selector locate ns).result = .error e) : StopsAt cs e.place := by
  obtain ⟨c, hc⟩ := exists_stops cs
  rw [hc] at h
  exact place_of_selector h

end Cursor

/-! ## Offsets from lines and columns -/

theorem lineStart_zero (cs : List Char) : lineStart 0 cs = 0 := by
  cases cs <;> rfl

/-- Looking for the start of a line below a text goes past all of the text. -/
theorem lineStart_append {n : Nat} (hn : 0 < n) (xs ys : List Char) :
    lineStart (xs.count '\n' + n) (xs ++ ys) = byteLength xs + lineStart n ys := by
  induction xs with
  | nil => simp
  | cons c xs ih =>
    by_cases hc : c = '\n'
    · subst hc
      rw [List.count_cons_self, Nat.add_right_comm, List.cons_append, lineStart, if_pos rfl, ih, byteLength_cons,
        Nat.add_assoc]
    · obtain ⟨k, hk⟩ : ∃ k, xs.count '\n' + n = k + 1 := Nat.exists_eq_add_of_le' (by omega)
      rw [List.count_cons_of_ne hc, hk, List.cons_append, lineStart, if_neg hc, ← hk, ih, byteLength_cons,
        Nat.add_assoc]

theorem lineStart_concat (xs ys : List Char) :
    lineStart ((xs ++ ['\n']).count '\n') (xs ++ ['\n'] ++ ys) = byteLength (xs ++ ['\n']) := by
  rw [List.count_append, List.count_singleton_self, List.append_assoc, lineStart_append Nat.one_pos, byteLength_append]
  show _ + (_ + lineStart 0 ys) = _
  rw [lineStart_zero]
  rfl

/-- What comes after the last LF of a text. -/
def openLine (cs : List Char) : List Char := cs.rtakeWhile (· != '\n')

theorem newline_not_mem_openLine (cs : List Char) : '\n' ∉ openLine cs := fun hmem =>
  absurd (List.mem_rtakeWhile_imp hmem) (by decide)

/-- Before the open line there is nothing, or lines of which the last ends in an LF. -/
theorem exists_openLine (cs : List Char) :
    ∃ full, full ++ openLine cs = cs ∧ (full = [] ∨ ∃ xs, full = xs ++ ['\n']) := by
  refine ⟨cs.rdropWhile (· != '\n'), List.rdropWhile_append_rtakeWhile, ?_⟩
  rcases List.eq_nil_or_concat (cs.rdropWhile (· != '\n')) with hnil | ⟨xs, c, hconcat⟩
  · exact .inl hnil
  · rw [List.concat_eq_append] at hconcat
    have hne : cs.rdropWhile (· != '\n') ≠ [] := by
      rw [hconcat]
      exact List.concat_ne_nil c xs
    have hlast := List.rdropWhile_last_not (· != '\n') cs hne
    simp only [hconcat, List.getLast_append_singleton, bne_iff_ne, ne_eq, not_not] at hlast
    exact .inr ⟨xs, by rw [hconcat, hlast]⟩

/-- The start of the open line is found by counting LFs. -/
theorem lineStart_count (pre post : List Char) :
    lineStart (pre.count '\n') (pre ++ post) + byteLength (openLine pre) = byteLength pre := by
  obtain ⟨full, hpre, hfull⟩ := exists_openLine pre
  have hcount : pre.count '\n' = full.count '\n' := by
    conv_lhs => rw [← hpre, List.count_append, List.count_eq_zero.2 (newline_not_mem_openLine pre)]
    exact Nat.add_zero _
  have hstart : lineStart (full.count '\n') (full ++ (openLine pre ++ post)) = byteLength full := by
    rcases hfull with rfl | ⟨xs, rfl⟩
    · exact lineStart_zero _
    · exact lineStart_concat xs _
  calc lineStart (pre.count '\n') (pre ++ post) + byteLength (openLine pre)
      = lineStart (full.count '\n') (full ++ (openLine pre ++ post)) + byteLength (openLine pre) := by
        rw [hcount, ← List.append_assoc, hpre]
    _ = byteLength pre := by rw [hstart, ← byteLength_append, hpre]

/-- Where all lines end in an LF, the column counts the units of the open line. -/
theorem column_of_newlines {pre : List Char} (h : ∀ c ∈ lineEnds pre, c = '\n') :
    (Position.start.advance pre).column = 1 + unitLength (openLine pre) := by
  obtain ⟨full, hpre, hfull⟩ := exists_openLine pre
  have hunparted : ¬ (full.getLast? = some '\r' ∧ (openLine pre).head? = some '\n') := by
    rintro ⟨-, hhead⟩
    exact newline_not_mem_openLine pre (List.mem_of_head? hhead)
  have hends : lineEnds (openLine pre) = [] := by
    refine List.eq_nil_iff_forall_not_mem.2 fun c hc => newline_not_mem_openLine pre ?_
    have hmem : c ∈ lineEnds pre := by
      rw [← hpre, lineEnds_append hunparted]
      exact List.mem_append_right _ hc
    rw [← h c hmem]
    exact (lineEnds_sublist _).subset hc
  conv_lhs => rw [← hpre, Position.advance_append _ _ _ hunparted, Position.column_advance _ hends]
  rcases hfull with rfl | ⟨xs, rfl⟩
  · rfl
  · rw [Position.column_advance_newline]

/-- Where all lines end in an LF, the start of the open line is found, and its units are taken for bytes. -/
theorem byteOffset_of_newlines {pre : List Char} (h : ∀ c ∈ lineEnds pre, c = '\n') (post : List Char) :
    byteOffset (pre ++ post) (Position.start.advance pre).line (Position.start.advance pre).column +
      byteLength (openLine pre) = byteLength pre + unitLength (openLine pre) := by
  have hline : (Position.start.advance pre).line = pre.count '\n' := by
    rw [Position.line_advance, ← count_lineEnds, List.count_eq_length.2 fun c hc => (h c hc).symm]
    exact Nat.zero_add _
  have hstart := lineStart_count pre post
  have hunits := unitLength_le_byteLength (openLine pre)
  rw [byteOffset, hline, column_of_newlines h, byteLength_append]
  omega

/-- Where a line ends in anything else, the start of the open line is looked for after the place. -/
theorem byteOffset_of_other {pre : List Char} (h : ∃ c ∈ lineEnds pre, c ≠ '\n') (post : List Char) :
    byteOffset (pre ++ post) (Position.start.advance pre).line (Position.start.advance pre).column = byteLength pre ↔
      post = [] := by
  obtain ⟨n, hn, hline⟩ : ∃ n, 0 < n ∧ (Position.start.advance pre).line = pre.count '\n' + n := by
    have hne : (lineEnds pre).count '\n' ≠ (lineEnds pre).length := fun heq => by
      obtain ⟨c, hc, hother⟩ := h
      exact hother (List.count_eq_length.1 heq c hc).symm
    have hle : (lineEnds pre).count '\n' ≤ (lineEnds pre).length := List.count_le_length
    rw [count_lineEnds] at hne hle
    refine ⟨(lineEnds pre).length - pre.count '\n', by omega, ?_⟩
    rw [Position.line_advance]
    show 0 + _ = _
    omega
  rw [byteOffset, hline, lineStart_append hn, byteLength_append]
  cases post with
  | nil =>
    refine iff_of_true ?_ rfl
    rw [byteLength_nil]
    omega
  | cons c post =>
    obtain ⟨k, rfl⟩ := Nat.exists_eq_add_of_le' hn
    have hc := c.utf8Size_pos
    refine iff_of_false ?_ (List.cons_ne_nil c post)
    rw [lineStart, byteLength_cons]
    omega

/-- The offset that is told of a line and a column is that of the place exactly if all lines before it
end in an LF and its own is ASCII up to there, or else at the end of the text. -/
theorem byteOffset_eq_iff {pre post : List Char} :
    byteOffset (pre ++ post) (Position.start.advance pre).line (Position.start.advance pre).column = byteLength pre ↔
      ((∀ c ∈ lineEnds pre, c = '\n') → ∀ c ∈ openLine pre, isAscii c = true) ∧
        ((∃ c ∈ lineEnds pre, c ≠ '\n') → post = []) := by
  by_cases hends : ∀ c ∈ lineEnds pre, c = '\n'
  · have hoffset := byteOffset_of_newlines hends post
    have hnone : ¬ ∃ c ∈ lineEnds pre, c ≠ '\n' := fun ⟨c, hc, hother⟩ => hother (hends c hc)
    rw [← unitLength_eq_iff]
    constructor
    · exact fun heq => ⟨fun _ => by omega, fun hother => absurd hother hnone⟩
    · rintro ⟨hascii, -⟩
      have := hascii hends
      omega
  · have hother : ∃ c ∈ lineEnds pre, c ≠ '\n' := by
      push Not at hends
      exact hends
    rw [byteOffset_of_other hother post]
    exact ⟨fun hpost => ⟨fun hall => absurd hall hends, fun _ => hpost⟩, fun h => h.2 hother⟩

/-! ## Errors of a text -/

/-- What an error tells of its place, which is after `pre`: all that the locator of a selector there would
tell but for the offset, and when the offset is right as well. -/
structure ParseError.ToldAfter (e : ParseError) (o : Options) (cs pre post : List Char) : Prop where
  isCut : Lexeme.IsCut cs pre post
  locator : { e.locator with offset := byteLength pre } = o.locate (Position.start.advance pre)
  /-- No other place between lexemes has this line and this column. -/
  unique : ∀ {pre' post' : List Char}, Lexeme.IsCut cs pre' post' →
    (Position.start.advance pre').line = (Position.start.advance pre).line →
      (Position.start.advance pre').column = (Position.start.advance pre).column → pre' = pre
  offset_eq_iff : e.locator.offset = byteLength pre ↔
    ((∀ c ∈ lineEnds pre, c = '\n') → ∀ c ∈ openLine pre, isAscii c = true) ∧
      ((∃ c ∈ lineEnds pre, c ≠ '\n') → post = [])

theorem Report.exists_failure_of_toParsed {α : Type} {o : Options} {cs : List Char} {r : Report Position α}
    {e : ParseError} (h : (r.toParsed o cs).result = .error e) : ∃ f, r.result = .error f ∧ f.toError o cs = e := by
  rw [toParsed] at h
  cases hr : r.result with
  | error f =>
    rw [hr] at h
    cases h
    exact ⟨f, rfl, rfl⟩
  | ok a =>
    rw [hr] at h
    cases h

theorem Failure.exists_toldAfter {cs : List Char} {f : Failure Position} (h : StopsAt cs f.place) (o : Options) :
    ∃ pre post, (f.toError o cs).ToldAfter o cs pre post := by
  obtain ⟨pre, post, hcut, hplace⟩ := h
  refine ⟨pre, post, hcut, ?_, hcut.eq_of_line_of_column, ?_⟩
  · rw [hplace, Options.locate, Failure.toError, ← hplace, Position.advance_offset]
    simp [Options.locate, Position.start]
  · rw [Failure.toError, ← hplace, ← hcut.append]
    exact byteOffset_eq_iff

/-- Every error of reading a text, be it as a group or as one selector, is told to be at a place between
two tokens and at no other one. The offset told is that of this place exactly if all lines before it end
in an LF and its own is ASCII up to there, or, where a line ends in anything else, the place is the end. -/
theorem Group.offset_eq_iff_of_parse (text : String) :
    (∀ (o : Options) (e : ParseError), (Group.parse text o).result = .error e →
      ∃ pre post, e.ToldAfter o text.toList pre post) ∧
    ∀ e : ParseError, (Selector.parse text).result = .error e →
      ∃ pre post, e.ToldAfter {} text.toList pre post := by
  constructor
  · intro o e h
    obtain ⟨f, hf, rfl⟩ := Report.exists_failure_of_toParsed h
    exact Failure.exists_toldAfter (Cursor.stopsAt_of_group hf) o
  · intro e h
    obtain ⟨f, hf, rfl⟩ := Report.exists_failure_of_toParsed h
    exact Failure.exists_toldAfter (Cursor.stopsAt_of_selector hf) {}

/-- The nodes of `é >`, each with its places. -/
def accentedNodes : List (Node Position) :=
  [.leaf (.ident "é") ⟨0, 0, 1⟩ ⟨2, 0, 2⟩, .leaf (.whitespace " ") ⟨2, 0, 2⟩ ⟨3, 0, 3⟩,
    .leaf (.delim '>') ⟨3, 0, 3⟩ ⟨4, 0, 4⟩]

theorem Group.parse_accented :
    (Group.parse "é >").result = .error ⟨.danglingCombinator, ⟨3, 1, 4, none⟩⟩ := by
  have hlexemes : Lexeme.ofChars "é >".toList =
      [⟨.ident "é", ['é']⟩, ⟨.whitespace " ", [' ']⟩, ⟨.delim '>', ['>']⟩] := by
    decide +kernel
  have hnodes : Cursor.ofChars "é >".toList = ⟨.start, accentedNodes, ⟨4, 0, 4⟩⟩ :=
    Cursor.ofChars_of_lexemes hlexemes (show _ = [.leaf _, .leaf _, .leaf _] from rfl)
      (by simp only [Node.ofComponents]; rfl)
  have hfirst : (Cursor.compound .any ⟨.start, accentedNodes, ⟨4, 0, 4⟩⟩).result =
      .ok (⟨.start, .type ⟨.any, "é"⟩, []⟩, ⟨⟨2, 0, 2⟩, accentedNodes.drop 1, ⟨4, 0, 4⟩⟩) :=
    Cursor.compound_single rfl rfl
  have hcomplex : (Cursor.complex .any ⟨.start, accentedNodes, ⟨4, 0, 4⟩⟩).result =
      .error ⟨.danglingCombinator, ⟨4, 0, 4⟩⟩ :=
    Cursor.complex_dangling hfirst rfl rfl
  exact parse_of_failure (o := {}) hnodes (show _ = [] ++ _ :: [] from rfl) (List.forall_mem_nil _)
    (congrArg Report.result (Report.bind_of_error hcomplex))

theorem Group.offset_eq_iff_accented :
    (Group.parse "é >").result = .error ⟨.danglingCombinator, ⟨3, 1, 4, none⟩⟩ ∧
      ∃ pre post, ParseError.ToldAfter ⟨.danglingCombinator, ⟨3, 1, 4, none⟩⟩ {} "é >".toList pre post :=
  ⟨parse_accented, (offset_eq_iff_of_parse "é >").1 {} _ parse_accented⟩

/-- `é >` fails at its end, after four bytes, and the error tells of the offset 3. -/
theorem Group.offset_ne_accented :
    (Group.parse "é >").result = .error ⟨.danglingCombinator, ⟨3, 1, 4, none⟩⟩ ∧
      Lexeme.IsCut "é >".toList "é >".toList [] ∧
      Options.locate {} (Position.start.advance "é >".toList) = ⟨4, 1, 4, none⟩ ∧
      byteLength "é >".toList ≠ 3 := by
  refine ⟨parse_accented, ⟨Lexeme.ofChars "é >".toList, [], (List.append_nil _).symm, ?_, rfl⟩, ?_, ?_⟩
  · exact Lexeme.chars_ofChars _
  · decide +kernel
  · decide +kernel

end StyleSelectors
