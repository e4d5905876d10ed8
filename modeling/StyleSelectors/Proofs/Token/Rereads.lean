/-
How tokens read again that were written one after the other. Tokens that stand read back, each in front of
the next ones, with two exceptions that change no text: two dashes that are a name and a `>` after it are the
end of markup, and `<!` with a name that starts with two dashes is the start of markup and what is left of
the name. `Rereads` tells which tokens come of it, and holds of what is read: `exists_rereads`.
-/
import StyleSelectors.Proofs.Token.Stands
import StyleSelectors.Proofs.Component.ReadFrom

namespace StyleSelectors.Token

open Text Numeric

/-! ## The whole text -/

/-- The tokens that others read as when they are written one after the other. -/
inductive Rereads : List Token → List Token → Prop
  | nil : Rereads [] []
  | cons (t : Token) {us vs : List Token} : Rereads us vs → Rereads (t :: us) (t :: vs)
  | close {us vs : List Token} : Rereads us vs → Rereads (.ident "--" :: .delim '>' :: us) (.markupClose :: vs)
  | opened {t : Token} {left us vs : List Token} : Undashed t left → Rereads (left ++ us) vs →
      Rereads (.delim '<' :: .delim '!' :: t :: us) (.markupOpen :: vs)

namespace Undashed

variable {t : Token} {left w : List Token}

theorem text_eq (h : Undashed t left) : t.text = '-' :: '-' :: plain left := by
  cases h with
  | ident hname => rw [text, hname]; rfl
  | function hname => rw [text, hname]; rfl
  | identMore hname _ hwrite =>
    rw [text, hname, plain_cons, text, hwrite, writeIdentifier]
    exact congrArg _ (List.append_nil _).symm
  | functionMore hname _ hwrite =>
    rw [text, hname, plain_cons, text, hwrite]
    show '-' :: '-' :: (writeName _ ++ ['(']) = '-' :: '-' :: (writeName _ ++ ['('] ++ [])
    rw [List.append_nil]

theorem length_le (h : Undashed t left) : left.length ≤ 1 := by
  cases h <;> simp

/-- What is left is neither a number nor a spoilt url. -/
theorem mem_left {u : Token} (h : Undashed t left) (hu : u ∈ left) : u.isNumeric = false ∧ ∀ raw, u ≠ .badUrl raw := by
  cases h with
  | ident => cases hu
  | _ =>
    obtain rfl := List.mem_singleton.1 hu
    exact ⟨rfl, fun _ => nofun⟩

theorem isName {name more : String} (h : IsName name) (hname : name.toList = '-' :: '-' :: more.toList)
    (hne : more ≠ "") : IsName more := by
  refine ⟨hne, fun hnul => h.2 ?_⟩
  rw [hname]
  exact List.mem_cons_of_mem _ (List.mem_cons_of_mem _ hnul)

/-- What is left of a name stands as the name did. -/
theorem stands (h : Undashed t left) (hw : Everywhere Stands (t :: w)) : Everywhere Stands (left ++ w) := by
  cases h with
  | ident => exact hw.2
  | function => exact ⟨⟨trivial, fun _ _ => nofun, rfl, nofun⟩, hw.2⟩
  | identMore hname hne => exact ⟨⟨isName hw.1.fits hname hne, hw.1.apart, rfl, nofun⟩, hw.2⟩
  | functionMore hname hne _ hurl =>
    refine ⟨⟨⟨isName hw.1.fits.1 hname hne, fun h => ?_⟩, fun _ _ => nofun, rfl, nofun⟩, hw.2⟩
    rw [hurl] at h
    cases h

end Undashed

theorem eq_delim_of_text {t : Token} {rest : List Token} (h : Fits t rest) (hnumber : t.isNumeric = false)
    (htext : t.text = ['-']) : t = .delim '-' := by
  cases t with
  | ident name =>
    have hstart := startsName_writeIdentifier (toList_ne_nil h.1) []
    rw [show writeIdentifier name.toList = ['-'] from htext] at hstart
    cases hstart
  | function name =>
    have hlast := congrArg List.getLast? htext
    rw [text, List.getLast?_concat] at hlast
    cases hlast
  | delim c =>
    cases htext
    rfl
  | whitespace space =>
    have hspace := h.isSpace '-' (by rw [show space.toList = ['-'] from htext]; exact List.mem_cons_self ..)
    cases hspace
  | number _ | percentage _ | dimension _ _ => cases hnumber
  | matching op | opening op | closing op => cases op <;> cases htext
  | _ => cases htext

/-- Two dashes at the start of a text are those of its first token. -/
theorem exists_dashes {w : List Token} (h : Everywhere Stands w) (hdash : ['-', '-'] <+: plain w) :
    ∃ next rest, w = next :: rest ∧ ['-', '-'] <+: next.text := by
  obtain ⟨tail, htail⟩ := hdash
  obtain ⟨t, rest, rfl, hstands, hrest, -, u, htext, hplain⟩ := exists_plain h (c := '-') (by rw [← htail]; rfl)
  refine ⟨t, rest, rfl, ?_⟩
  rw [← htail] at hplain
  cases u with
  | nil =>
    -- one dash by itself has no other after it
    obtain rfl := eq_delim_of_text hstands.fits hstands.number htext
    have hchar := (stops_plain hrest (endsNames_after (by tauto) hstands.fits hstands.apart)).2.2 '-'
    rw [← List.nil_append (plain rest), ← (List.cons.inj hplain).2] at hchar
    cases hchar rfl
  | cons d u =>
    obtain ⟨rfl, -⟩ := List.cons.inj (List.cons.inj hplain).2
    exact ⟨u, htext.symm⟩

/-- So are those after an exclamation mark. -/
theorem exists_markup {us more : List Token} (hmore : ∀ next ∈ more.head?, ∃ raw, next = .badUrl raw)
    (h : Everywhere Stands (us ++ more)) (hmark : ['!', '-', '-'] <+: plain (us ++ more)) :
    ∃ next rest, us = .delim '!' :: next :: rest ∧ ['-', '-'] <+: next.text := by
  obtain ⟨tail, htail⟩ := hmark
  obtain ⟨t, rest, heq, -, hrest, ht, v, htext, hplain⟩ := exists_plain h (c := '!') (by rw [← htail]; rfl)
  obtain rfl := eq_delim_of_canStart (by decide) ht
  cases htext
  rw [← htail] at hplain
  obtain ⟨next, rest, rfl, hnext⟩ := exists_dashes hrest ⟨tail, (List.cons.inj hplain).2⟩
  cases us with
  | nil =>
    obtain rfl : more = .delim '!' :: next :: rest := heq
    obtain ⟨raw, hraw⟩ := hmore (.delim '!') rfl
    cases hraw
  | cons mark us =>
    obtain ⟨rfl, hus⟩ := List.cons.inj heq
    cases us with
    | nil =>
      obtain rfl : more = next :: rest := hus
      obtain ⟨raw, rfl⟩ := hmore next rfl
      obtain ⟨u, hu⟩ := hnext
      cases hu
    | cons first us =>
      obtain ⟨rfl, -⟩ := List.cons.inj hus
      exact ⟨first, us, rfl, hnext⟩

/-- Tokens that stand, up to a spoilt url or the end, are read as themselves but for dashes. -/
theorem exists_rereads {more : List Token} (hmore : ∀ next ∈ more.head?, ∃ raw, next = .badUrl raw) (us : List Token)
    (h : Everywhere Stands (us ++ more))
    (hclosed : ∀ raw, .badUrl raw ∈ us → ofChars (badUrl raw).text = [.badUrl raw]) :
    ∃ vs, Lexeme.ofChars (plain (us ++ more)) = vs.map lexeme ++ Lexeme.ofChars (plain more) ∧ Rereads us vs := by
  match us with
  | [] => exact ⟨[], rfl, .nil⟩
  | t :: us =>
    have hrest : Everywhere Stands (us ++ more) := h.2
    by_cases hclose : t = .ident "--" ∧ us.head? = some (.delim '>')
    · obtain ⟨rfl, hgreater⟩ := hclose
      obtain ⟨us, rfl⟩ := List.head?_eq_some_iff.1 hgreater
      obtain ⟨vs, hread, hvs⟩ := exists_rereads hmore us hrest.2 fun raw hraw => hclosed raw (by simp [hraw])
      refine ⟨.markupClose :: vs, ?_, .close hvs⟩
      have htext : plain (.ident "--" :: .delim '>' :: us ++ more) = Token.markupClose.text ++ plain (us ++ more) := rfl
      rw [htext, Lexeme.ofChars_text readsBack_markupClose, hread]
      rfl
    by_cases hopen : t = .delim '<' ∧ ['!', '-', '-'] <+: plain (us ++ more)
    · obtain ⟨rfl, hmark⟩ := hopen
      obtain ⟨next, us, rfl, hnext⟩ := exists_markup hmore hrest hmark
      obtain ⟨left, hleft⟩ := h.1.markup rfl next (us ++ more) rfl hnext
      have hstands : Everywhere Stands (left ++ us ++ more) := by
        rw [List.append_assoc]
        exact hleft.stands hrest.2
      have hlen := hleft.length_le
      have hclosed' (raw : String) (hraw : .badUrl raw ∈ left ++ us) : ofChars (badUrl raw).text = [.badUrl raw] := by
        have hus := (List.mem_append.1 hraw).resolve_left fun hmem => (hleft.mem_left hmem).2 raw rfl
        exact hclosed raw (by simp [hus])
      obtain ⟨vs, hread, hvs⟩ := exists_rereads hmore (left ++ us) hstands hclosed'
      refine ⟨.markupOpen :: vs, ?_, .opened hleft hvs⟩
      have htext : plain (.delim '<' :: .delim '!' :: next :: us ++ more) =
          Token.markupOpen.text ++ plain (left ++ us ++ more) := by
        rw [List.append_assoc left, plain_append left, List.cons_append, List.cons_append, List.cons_append, plain_cons,
          plain_cons, plain_cons, hleft.text_eq]
        rfl
      rw [htext, Lexeme.ofChars_text readsBack_markupOpen, hread]
      rfl
    have hgreater (hdashes : t = .ident "--") : (us ++ more).head? ≠ some (.delim '>') := by
      cases us with
      | nil =>
        intro hhead
        obtain ⟨raw, hraw⟩ := hmore (.delim '>') hhead
        cases hraw
      | cons next us => exact fun hhead => hclose ⟨hdashes, hhead⟩
    have hback : t.ReadsBack (plain (us ++ more)) := by
      refine readsBack_of_stands h ?_ hgreater fun hless hmarkup => hopen ⟨hless, hmarkup⟩
      rintro raw rfl
      exact hclosed raw (List.mem_cons_self ..)
    obtain ⟨vs, hread, hvs⟩ := exists_rereads hmore us hrest fun raw hraw => hclosed raw (List.mem_cons_of_mem t hraw)
    refine ⟨t :: vs, ?_, .cons t hvs⟩
    rw [List.cons_append, plain_cons, Lexeme.ofChars_text hback, hread]
    rfl
termination_by us.length
decreasing_by all_goals simp_all; try omega

/-- Where markup could start is a start of markup, in what is read. -/
theorem keepsMarkup_of_reads {ts : List Token} (h : Lexeme.ofChars (plain ts) = ts.map lexeme) :
    Everywhere KeepsMarkup ts := by
  induction ts with
  | nil => trivial
  | cons t rest ih =>
    obtain ⟨c, u, htext, hchars, hread, hrest⟩ := Lexeme.ofChars_eq_cons h
    have hplain : Lexeme.chars (rest.map lexeme) = plain rest := List.flatMap_map ..
    rw [hplain] at hread hrest
    refine ⟨?_, ih hrest⟩
    rintro rfl next more rfl ⟨v, hnext⟩
    cases htext
    rw [plain_cons, plain_cons, ← hnext] at hread
    cases hread

/-! ## What stays -/

section Stays

variable {us vs : List Token}

theorem Undashed.not_isComment {t : Token} {left : List Token} (h : Undashed t left) : t.isComment = false := by
  cases h <;> rfl

theorem starredComments_cons {t : Token} (h : t.isComment = false) (rest : List Token) :
    starredComments (t :: rest) = starredComments rest := by
  rw [starredComments, h]
  exact Nat.zero_add _

theorem Undashed.starredComments_append {t : Token} {left : List Token} (h : Undashed t left) (us : List Token) :
    starredComments (left ++ us) = starredComments us := by
  cases h with
  | ident => rfl
  | _ => exact Nat.zero_add _

theorem runsInto_markupOpen (t : Token) : t.runsInto .markupOpen = false := by
  have hdelim (c : Char) : delimRunsInto c .markupOpen = false := by
    unfold delimRunsInto
    repeat' split
    all_goals rfl
  cases t with
  | delim c => exact hdelim c
  | comment _ => exact hdelim '/'
  | _ => rfl

/-- What runs into the end of markup runs into a name. -/
theorem runsInto_ident {t : Token} (h : t.runsInto .markupClose = true) (name : String) :
    t.runsInto (.ident name) = true := by
  cases t with
  | delim c =>
    exfalso
    revert h
    show delimRunsInto c .markupClose = true → False
    unfold delimRunsInto
    repeat' split
    all_goals exact nofun
  | _ => first | rfl | cases h

namespace Rereads

/-- What comes up anew is neither a number nor a spoilt url. -/
theorem mem_or {t : Token} (h : Rereads us vs) (ht : t ∈ vs) :
    t ∈ us ∨ t.isNumeric = false ∧ ∀ raw, t ≠ .badUrl raw := by
  induction h with
  | nil => cases ht
  | cons u _ ih =>
    rcases List.mem_cons.1 ht with rfl | ht
    · exact .inl (List.mem_cons_self ..)
    · exact (ih ht).imp_left (List.mem_cons_of_mem u)
  | close _ ih =>
    rcases List.mem_cons.1 ht with rfl | ht
    · exact .inr ⟨rfl, fun _ => nofun⟩
    · exact (ih ht).imp_left fun hus => List.mem_cons_of_mem _ (List.mem_cons_of_mem _ hus)
  | @opened u left us vs hleft _ ih =>
    rcases List.mem_cons.1 ht with rfl | ht
    · exact .inr ⟨rfl, fun _ => nofun⟩
    · rcases ih ht with hmem | hnew
      · rcases List.mem_append.1 hmem with hmem | hus
        · exact .inr (hleft.mem_left hmem)
        · exact .inl (by simp [hus])
      · exact .inr hnew

/-- The same text is told by other tokens. -/
theorem plain_eq (h : Rereads us vs) : plain vs = plain us := by
  induction h with
  | nil => rfl
  | cons t _ ih => rw [plain_cons, plain_cons, ih]
  | close _ ih =>
    rw [plain_cons, plain_cons, plain_cons, ih]
    rfl
  | opened hleft _ ih =>
    rw [plain_cons, plain_cons, plain_cons, plain_cons, ih, plain_append, hleft.text_eq]
    rfl

theorem apart_cons {t : Token} (h : Rereads us vs) (ht : Apart t us) : Apart t vs := by
  intro next hnext hruns
  cases h with
  | nil => cases hnext
  | cons => exact ht next hnext hruns
  | close =>
    obtain rfl := Option.some.inj hnext
    exact ht (.ident "--") rfl (runsInto_ident hruns "--")
  | opened =>
    obtain rfl := Option.some.inj hnext
    rw [runsInto_markupOpen] at hruns
    cases hruns

theorem apart (h : Rereads us vs) (hus : Everywhere Apart us) : Everywhere Apart vs := by
  induction h with
  | nil => trivial
  | cons t hvs ih => exact ⟨hvs.apart_cons hus.1, ih hus.2⟩
  | close _ ih => exact ⟨fun _ _ => nofun, ih hus.2.2⟩
  | opened hleft _ ih =>
    refine ⟨fun _ _ => nofun, ih ?_⟩
    cases hleft with
    | ident => exact hus.2.2.2
    | function => exact ⟨fun _ _ => nofun, hus.2.2.2⟩
    | identMore => exact ⟨hus.2.2.1, hus.2.2.2⟩
    | functionMore => exact ⟨fun _ _ => nofun, hus.2.2.2⟩

theorem any_isStar (h : Rereads us vs) : vs.head?.any isStar = us.head?.any isStar := by
  cases h <;> rfl

theorem starredComments_eq (h : Rereads us vs) : starredComments vs = starredComments us := by
  induction h with
  | nil => rfl
  | cons t hvs ih => rw [starredComments, starredComments, ih, hvs.any_isStar]
  | close _ ih => rw [starredComments_cons rfl, starredComments_cons rfl, starredComments_cons rfl, ih]
  | opened hleft _ ih =>
    rw [hleft.starredComments_append] at ih
    rw [starredComments_cons rfl, starredComments_cons rfl, starredComments_cons rfl,
      starredComments_cons hleft.not_isComment, ih]

end Rereads

end Stays

end StyleSelectors.Token
