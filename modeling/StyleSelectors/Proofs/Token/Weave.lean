/-
Tokens with the comments that keep them apart. Writing tokens (`Token.serialize`) is writing, one after the
other, the tokens and an empty comment between any two that would run together: `Token.woven` puts these
comments into the list. A woven list is written as it stands (`plain_woven`), but where a star comes after a
comment: there the comment that was put in between has the star after it again (`starredComments_woven`).
-/
import StyleSelectors.Proofs.Token.Fits
import StyleSelectors.Proofs.Token.Separator

namespace StyleSelectors.Token

open Text

/-! ## Weaving -/

/-- The text of tokens without anything between them. -/
def plain (ts : List Token) : List Char := ts.flatMap text

/-- Tokens with an empty comment between any two that would run together. -/
def woven : List Token → List Token
  | [] => []
  | t :: rest => t :: (between [t] rest ++ woven rest)

/-- How many pairs of neighbours would run together. -/
def runs : List Token → Nat
  | [] => 0
  | t :: rest => (between [t] rest).length + runs rest

/-- How many comments have a star right after them. -/
def starredComments : List Token → Nat
  | [] => 0
  | t :: rest => (if t.isComment && rest.head?.any isStar then 1 else 0) + starredComments rest

/-- Whether a token runs into the next one only if it is a comment. -/
def Apart (t : Token) (rest : List Token) : Prop := ∀ next ∈ rest.head?, t.runsInto next = true → t.isComment = true

theorem plain_cons (t : Token) (ts : List Token) : plain (t :: ts) = t.text ++ plain ts := List.flatMap_cons

theorem plain_append (us vs : List Token) : plain (us ++ vs) = plain us ++ plain vs := List.flatMap_append

theorem between_cases (t : Token) (rest : List Token) :
    between [t] rest = [] ∧ (∀ next ∈ rest.head?, t.runsInto next = false) ∨
      between [t] rest = [.comment ""] ∧ ∃ next ∈ rest.head?, t.runsInto next = true := by
  cases rest with
  | nil => exact .inl ⟨rfl, nofun⟩
  | cons next rest =>
    cases hruns : t.runsInto next with
    | false =>
      refine .inl ⟨by simp [between, hruns], ?_⟩
      rintro t' ⟨⟩
      exact hruns
    | true => exact .inr ⟨by simp [between, hruns], next, rfl, hruns⟩

theorem mem_between {t u : Token} {rest : List Token} (h : u ∈ between [t] rest) : u = .comment "" := by
  rcases between_cases t rest with ⟨hnone, -⟩ | ⟨hone, -⟩
  · rw [hnone] at h
    cases h
  · rw [hone] at h
    exact List.mem_singleton.1 h

theorem between_eq_nil {t : Token} (h : ∀ next, t.runsInto next = false) (rest : List Token) :
    between [t] rest = [] := by
  rcases between_cases t rest with ⟨hnone, -⟩ | ⟨-, next, -, hruns⟩
  · exact hnone
  · rw [h next] at hruns
    cases hruns

theorem woven_cons {t : Token} (h : ∀ next, t.runsInto next = false) (rest : List Token) :
    woven (t :: rest) = t :: woven rest := by
  rw [woven, between_eq_nil h, List.nil_append]

theorem mem_woven {ts : List Token} {t : Token} (h : t ∈ woven ts) : t ∈ ts ∨ t = .comment "" := by
  induction ts with
  | nil => cases h
  | cons u rest ih =>
    rw [woven, List.mem_cons, List.mem_append] at h
    rcases h with rfl | hgap | hrest
    · exact .inl (List.mem_cons_self ..)
    · exact .inr (mem_between hgap)
    · exact (ih hrest).imp_left (List.mem_cons_of_mem u)

theorem plain_woven (ts : List Token) : plain (woven ts) = serialize ts := by
  induction ts with
  | nil => rfl
  | cons t rest ih =>
    rw [woven, plain_cons, plain_append, ih]
    cases rest with
    | nil => exact List.append_nil t.text
    | cons next rest =>
      have htext : plain (between [t] (next :: rest)) = serialize (between [t] (next :: rest)) := by
        rcases between_cases t (next :: rest) with ⟨hnone, -⟩ | ⟨hone, -⟩
        · rw [hnone]; rfl
        · rw [hone]; rfl
      rw [htext]
      exact (serialize_append [t] (List.cons_ne_nil next rest)).symm

theorem length_serialize (ts : List Token) : (serialize ts).length = (plain ts).length + 4 * runs ts := by
  rw [← plain_woven]
  induction ts with
  | nil => rfl
  | cons t rest ih =>
    have hgap : (plain (between [t] rest)).length = 4 * (between [t] rest).length := by
      rcases between_cases t rest with ⟨hnone, -⟩ | ⟨hone, -⟩
      · rw [hnone]; rfl
      · rw [hone]; rfl
    rw [woven, runs, plain_cons, plain_cons, plain_append, List.length_append, List.length_append, List.length_append,
      ih, hgap]
    omega

theorem serialize_of_runs {ts : List Token} (h : runs ts = 0) : serialize ts = plain ts := by
  rw [← plain_woven]
  induction ts with
  | nil => rfl
  | cons t rest ih =>
    obtain ⟨hnone, hrest⟩ := Nat.add_eq_zero_iff.1 h
    rw [woven, List.length_eq_zero_iff.1 hnone, List.nil_append, plain_cons, plain_cons, ih hrest]

/-! ## Where neighbours still run together -/

theorem delimRunsInto_comment (c : Char) (inside : String) : delimRunsInto c (.comment inside) = false := by
  unfold delimRunsInto
  repeat' split
  all_goals rfl

/-- Nothing runs into a comment. -/
theorem runsInto_comment (t : Token) (inside : String) : t.runsInto (.comment inside) = false := by
  cases t with
  | delim c => exact delimRunsInto_comment c inside
  | comment _ => exact delimRunsInto_comment '/' inside
  | _ => rfl

theorem comment_runsInto (inside : String) (next : Token) : (comment inside).runsInto next = next.isStar := rfl

theorem eq_comment_of_isComment {t : Token} (h : t.isComment = true) : ∃ inside, t = .comment inside := by
  cases t <;> first | exact ⟨_, rfl⟩ | cases h

/-- Into a star runs a comment or a slash. -/
theorem isComment_of_runsInto {t next : Token} (h : t.runsInto next = true) (hstar : next.isStar = true)
    (hslash : t ≠ .delim '/') : t.isComment = true := by
  have hnext : next = .delim '*' ∨ next = .matching .part := by simpa [isStar] using hstar
  cases t with
  | comment _ => rfl
  | delim c =>
    exfalso
    have hc : c ≠ '/' := fun hc => hslash (by rw [hc])
    revert h
    show delimRunsInto c next = true → False
    unfold delimRunsInto
    rw [if_neg (c := c = '/') hc]
    rcases hnext with rfl | rfl
    all_goals
      repeat' split
      all_goals
        intro hnever
        cases hnever
  | _ => exfalso; rcases hnext with rfl | rfl <;> cases h

theorem head?_woven (ts : List Token) : (woven ts).head? = ts.head? := by
  cases ts <;> rfl

/-- Once they are woven, tokens run into what comes next only after a comment. -/
theorem apart_woven (ts : List Token) : Everywhere Apart (woven ts) := by
  induction ts with
  | nil => trivial
  | cons t rest ih =>
    rw [woven]
    rcases between_cases t rest with ⟨hnone, hapart⟩ | ⟨hone, -⟩
    · rw [hnone]
      refine ⟨fun next hnext hruns => ?_, ih⟩
      rw [List.nil_append, head?_woven] at hnext
      rw [hapart next hnext] at hruns
      cases hruns
    · rw [hone]
      refine ⟨?_, fun _ _ _ => rfl, ih⟩
      rintro next ⟨⟩ hruns
      rw [runsInto_comment] at hruns
      cases hruns

theorem runs_of_apart {ts : List Token} (h : Everywhere Apart ts) : runs ts = starredComments ts := by
  induction ts with
  | nil => rfl
  | cons t rest ih =>
    obtain ⟨hapart, hrest⟩ := h
    rw [runs, starredComments, ih hrest]
    congr 1
    rcases between_cases t rest with ⟨hnone, hruns⟩ | ⟨hone, next, hnext, hruns⟩
    · rw [hnone, List.length_nil, if_neg]
      intro hstarred
      rw [Bool.and_eq_true, Option.any_eq_true] at hstarred
      obtain ⟨hcomment, next, hnext, hstar⟩ := hstarred
      obtain ⟨inside, rfl⟩ := eq_comment_of_isComment hcomment
      have hnone := hruns next hnext
      rw [comment_runsInto, hstar] at hnone
      cases hnone
    · obtain ⟨inside, rfl⟩ := eq_comment_of_isComment (hapart next hnext hruns)
      rw [hone, hnext, if_pos]
      · rfl
      · rwa [comment_runsInto] at hruns

/-- A comment with a star after it is still one when the two are kept apart. -/
theorem starredComments_woven {ts : List Token} (h : Everywhere Fits ts) :
    starredComments (woven ts) = starredComments ts := by
  induction ts with
  | nil => rfl
  | cons t rest ih =>
    obtain ⟨hfits, hrest⟩ := h
    rw [woven]
    rcases between_cases t rest with ⟨hnone, -⟩ | ⟨hone, next, hnext, hruns⟩
    · rw [hnone, List.nil_append, starredComments, starredComments, head?_woven, ih hrest]
    · -- the comment in between has the star after it that the token had, if that is a comment
      have hstar : t.isComment = false → next.isStar = false := by
        intro hcomment
        refine Bool.eq_false_iff.2 fun hstar => ?_
        by_cases hslash : t = .delim '/'
        · subst hslash
          have hnone := hfits.comment rfl next hnext
          rw [hstar] at hnone
          cases hnone
        · rw [isComment_of_runsInto hruns hstar hslash] at hcomment
          cases hcomment
      rw [hone, List.singleton_append, starredComments, starredComments, starredComments, head?_woven, ih hrest, hnext]
      cases hcomment : t.isComment with
      | true => simp [isComment, isStar]
      | false => simp [isComment, hstar hcomment]

/-! ## What still fits -/

/-- Whether tokens may stand in the place of others: what was looked for still comes next, and nothing else
does but closing brackets. -/
structure Replaces (new old : List Token) : Prop where
  quote : quoteNext old = true → quoteNext new = true
  line : lineNext old = true → lineNext new = true
  head : ∀ next ∈ new.head?, next ∈ old.head? ∨ ∃ b, next = .closing b

section Replaces

variable {t : Token} {old new : List Token}

theorem Replaces.head?_ne (h : Replaces new old) {next : Token} (hclose : ∀ b, next ≠ .closing b)
    (hne : old.head? ≠ some next) : new.head? ≠ some next := by
  intro hhead
  rcases h.head next hhead with hold | ⟨b, hb⟩
  · exact hne hold
  · exact hclose b hb

theorem HashFits.imp {name : List Char}
    (h : old.head? ≠ some (.delim '\\') → new.head? ≠ some (.delim '\\')) (hname : HashFits old name) :
    HashFits new name := by
  cases hname with
  | digit tail hc => exact .digit tail hc
  | dashed tail hc => exact .dashed tail hc
  | dash hold => exact .dash (h hold)

theorem Fits.replace (h : Replaces new old) (ht : Fits t old) : Fits t new := by
  cases t with
  | function name => exact ⟨ht.1, fun hurl => h.quote (ht.2 hurl)⟩
  | badString value => exact ⟨ht.1, h.line ht.2⟩
  | hash name => exact ⟨ht.1, ht.2.imp (h.head?_ne nofun)⟩
  | delim c =>
    exact
      { stray := ht.stray
        close := fun hc => h.head?_ne nofun (ht.close hc)
        slash := fun hc => h.head?_ne nofun (ht.slash hc)
        line := fun hc => h.line (ht.line hc)
        comment := fun hc next hnext => by
          rcases h.head next hnext with hold | ⟨b, rfl⟩
          · exact ht.comment hc next hold
          · rfl }
  | whitespace space =>
    refine ⟨ht.ne_nil, ht.isSpace, fun next hnext => ?_⟩
    rcases h.head next hnext with hold | ⟨b, rfl⟩
    · exact ht.next next hold
    · rfl
  | _ => exact ht

/-- A token that runs into the next one looks for nothing in particular after it. -/
theorem Fits.comment_cons (ht : Fits t old) {next : Token} (hruns : t.runsInto next = true) (rest : List Token) :
    Fits t (.comment "" :: rest) := by
  cases t with
  | hash name => exact ⟨ht.1, ht.2.imp fun _ => nofun⟩
  | delim c =>
    exact
      { stray := ht.stray
        close := fun _ => nofun
        slash := fun _ => nofun
        line := by
          rintro rfl
          cases hruns
        comment := fun _ next hnext => by
          cases hnext
          rfl }
  | function _ | badString _ | whitespace _ => cases hruns
  | _ => exact ht

end Replaces

theorem replaces_append_closing (rest : List Token) (bs : List Bracket) :
    Replaces (rest ++ bs.map .closing) rest := by
  cases rest with
  | nil =>
    refine ⟨nofun, nofun, fun next hnext => .inr ?_⟩
    cases bs with
    | nil => cases hnext
    | cons b bs => exact ⟨b, (Option.some.inj hnext).symm⟩
  | cons t rest =>
    refine ⟨fun hquote => ?_, fun hline => ?_, fun next hnext => .inl hnext⟩
    · rw [quoteNext, Option.any_eq_true] at hquote ⊢
      obtain ⟨next, hnext, hquoted⟩ := hquote
      obtain ⟨tail, htail⟩ := List.head?_eq_some_iff.1 hnext
      refine ⟨next, ?_, hquoted⟩
      rw [List.dropWhile_append, htail]
      rfl
    · cases t <;> exact hline

theorem replaces_woven (rest : List Token) : Replaces (woven rest) rest where
  quote := by
    induction rest with
    | nil => exact id
    | cons t rest ih =>
      cases hspace : t.isWhitespace with
      | true =>
        have hlone (next : Token) : t.runsInto next = false := by cases t <;> first | rfl | cases hspace
        rw [woven_cons hlone, quoteNext, quoteNext, List.dropWhile_cons_of_pos hspace,
          List.dropWhile_cons_of_pos hspace]
        exact ih
      | false =>
        rw [woven, quoteNext, quoteNext, List.dropWhile_cons_of_neg (by simp [hspace]),
          List.dropWhile_cons_of_neg (by simp [hspace])]
        exact id
  line := by
    cases rest with
    | nil => exact id
    | cons t rest => cases t <;> exact id
  head next hnext := .inl (head?_woven rest ▸ hnext)

theorem fits_append_closing {ts : List Token} (h : Everywhere Fits ts) (bs : List Bracket) :
    Everywhere Fits (ts ++ bs.map .closing) := by
  induction ts with
  | nil =>
    induction bs with
    | nil => trivial
    | cons b bs ih => exact ⟨trivial, ih⟩
  | cons t rest ih => exact ⟨h.1.replace (replaces_append_closing rest bs), ih h.2⟩

theorem fits_woven {ts : List Token} (h : Everywhere Fits ts) : Everywhere Fits (woven ts) := by
  induction ts with
  | nil => trivial
  | cons t rest ih =>
    rw [woven]
    rcases between_cases t rest with ⟨hnone, -⟩ | ⟨hone, next, -, hruns⟩
    · rw [hnone]
      exact ⟨h.1.replace (replaces_woven rest), ih h.2⟩
    · rw [hone]
      exact ⟨h.1.comment_cons hruns _, fun _ => rfl, ih h.2⟩

end StyleSelectors.Token
