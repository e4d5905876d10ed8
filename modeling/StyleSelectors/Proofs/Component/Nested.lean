/-
Blocks as a reader takes them that goes into each: from what opens a block it reads on inside, until
this block is closed or the text ends, and goes on after it. Inside a block only its own bracket closes
anything; any other closing bracket is left as it is. `Component.Reads` tells this without a stack of
open blocks, and a text is nested in just this way (`Component.ofLexemes_eq_iff`).
-/
import StyleSelectors.Proofs.Component.Whole

namespace StyleSelectors

/-- Which tokens open a block, and with which bracket. -/
inductive Token.Opens : Token → Bracket → Prop
  | opening (b : Bracket) : Opens (.opening b) b
  | function (name : String) : Opens (.function name) .round

theorem Token.opens?_eq_some_iff {t : Token} {b : Bracket} : t.opens? = some b ↔ t.Opens b := by
  constructor
  · intro h
    cases t with
    | opening k => cases h; exact .opening b
    | function name => cases h; exact .function name
    | _ => cases h
  · rintro (_ | _) <;> rfl

namespace Component

/-- What lexemes are read as inside a block of bracket `b?`, or outside all blocks, and what is left: it
starts with what closes the block, unless the text ends first. -/
inductive Reads : Option Bracket → List Lexeme → List Component → List Lexeme → Prop
  | finish {b? : Option Bracket} : Reads b? [] [] []
  | close {b : Bracket} {x : Lexeme} {xs : List Lexeme} (hx : x.token = .closing b) :
    Reads (some b) (x :: xs) [] (x :: xs)
  | leaf {b? : Option Bracket} {x : Lexeme} {xs ys : List Lexeme} {cs : List Component}
    (hopen : ∀ b, ¬ x.token.Opens b) (hclose : ∀ b, x.token = .closing b → b? ≠ some b) (hxs : Reads b? xs cs ys) :
    Reads b? (x :: xs) (.leaf x :: cs) ys
  | block {b? : Option Bracket} {b : Bracket} {x y : Lexeme} {xs ys zs : List Lexeme} {inside cs : List Component}
    (hx : x.token.Opens b) (hinside : Reads (some b) xs inside (y :: ys)) (hys : Reads b? ys cs zs) :
    Reads b? (x :: xs) (.block x inside (some y) :: cs) zs
  | unclosed {b? : Option Bracket} {b : Bracket} {x : Lexeme} {xs : List Lexeme} {inside : List Component}
    (hx : x.token.Opens b) (hinside : Reads (some b) xs inside []) : Reads b? (x :: xs) [.block x inside none] []

section Reads

variable {b? : Option Bracket} {xs ys : List Lexeme} {cs : List Component}

/-- A reader stops at the end, or where its block is closed. -/
theorem Reads.stops (h : Reads b? xs cs ys) :
    ys = [] ∨ ∃ b y zs, b? = some b ∧ ys = y :: zs ∧ y.token = .closing b := by
  induction h with
  | finish | unclosed => exact .inl rfl
  | close hx => exact .inr ⟨_, _, _, rfl, rfl, hx⟩
  | leaf _ _ _ ih => exact ih
  | block _ _ _ _ ih => exact ih

/-- Every text can be read, and nothing is left of it that was not there. -/
theorem exists_reads (b? : Option Bracket) (xs : List Lexeme) : ∃ cs ys, Reads b? xs cs ys ∧ ys.length ≤ xs.length := by
  induction hn : xs.length using Nat.strongRecOn generalizing b? xs with
  | _ n ih =>
    subst hn
    cases xs with
    | nil => exact ⟨[], [], .finish, Nat.le_refl _⟩
    | cons x xs =>
      by_cases hopen : ∃ b, x.token.Opens b
      · obtain ⟨b, hx⟩ := hopen
        obtain ⟨inside, ys, hinside, hle⟩ := ih xs.length (Nat.lt_succ_self _) (some b) xs rfl
        cases ys with
        | nil => exact ⟨_, [], .unclosed hx hinside, Nat.zero_le _⟩
        | cons y ys =>
          simp only [List.length_cons] at hle ih ⊢
          obtain ⟨cs, zs, hys, hzs⟩ := ih ys.length (by omega) b? ys rfl
          exact ⟨_, zs, .block hx hinside hys, by omega⟩
      · by_cases hclose : ∃ b, x.token = .closing b ∧ b? = some b
        · obtain ⟨b, hx, rfl⟩ := hclose
          exact ⟨[], _, .close hx, Nat.le_refl _⟩
        · obtain ⟨cs, ys, hxs, hle⟩ := ih xs.length (Nat.lt_succ_self _) b? xs rfl
          refine ⟨_, ys, .leaf (fun b hx => hopen ⟨b, hx⟩) (fun b hx hb => hclose ⟨b, hx, hb⟩) hxs, ?_⟩
          simp only [List.length_cons]
          omega

/-- With some blocks open, nesting goes on from what a reader of the innermost leaves. -/
theorem nest_of_reads {blocks : List OpenBlock} {done : List Component} (h : Reads b? xs cs ys)
    (hb : bracketOf blocks = b?) : nest blocks done xs = nest blocks (cs.reverse ++ done) ys := by
  induction h generalizing blocks done with
  | finish | close => rfl
  | @leaf b? x xs ys cs hopen hclose _ ih =>
    have hleaf : x.token.opens? = none := by
      cases hx : x.token.opens? with
      | none => rfl
      | some b => exact absurd (Token.opens?_eq_some_iff.1 hx) (hopen b)
    have hstays (b : Bracket) (hx : x.token.closes? = some b) : bracketOf blocks ≠ some b := by
      rw [hb]
      exact hclose b (Token.closes?_eq_some_iff.1 hx)
    rw [nest_leaf hleaf hstays, ih hb, List.reverse_cons, List.append_assoc, List.singleton_append]
  | @block b? b x y xs ys zs inside cs hx hinside _ ihInside ih =>
    have hopen := Token.opens?_eq_some_iff.2 hx
    obtain hnil | ⟨k, z, more, hk, hcons, hy⟩ := hinside.stops
    · cases hnil
    · cases hk
      cases hcons
      have hinner : bracketOf (⟨x, done⟩ :: blocks) = some b := hopen
      rw [nest_opening hopen, ihInside hinner, List.append_nil, nest_closing hopen (Token.closes?_eq_some_iff.2 hy),
        List.reverse_reverse, ih hb, List.reverse_cons, List.append_assoc, List.singleton_append]
  | @unclosed b? b x xs inside hx _ ih =>
    have hopen := Token.opens?_eq_some_iff.2 hx
    have hinner : bracketOf (⟨x, done⟩ :: blocks) = some b := hopen
    -- the end of the text closes the block
    rw [nest_opening hopen, ih hinner, List.append_nil, nest, closeAll, List.reverse_reverse, nest]
    rfl

end Reads

/-- Nesting a text is reading it block by block. -/
theorem ofLexemes_eq_iff {xs : List Lexeme} {cs : List Component} : ofLexemes xs = cs ↔ Reads none xs cs [] := by
  have hiff {ds ys} (h : Reads none xs ds ys) : ys = [] ∧ ofLexemes xs = ds := by
    obtain rfl | ⟨b, y, zs, hb, -⟩ := h.stops
    · rw [ofLexemes, nest_of_reads h rfl, List.append_nil, nest, closeAll, List.reverse_reverse]
      exact ⟨rfl, rfl⟩
    · cases hb
  constructor
  · intro h
    obtain ⟨ds, ys, hds, -⟩ := exists_reads none xs
    obtain ⟨rfl, heq⟩ := hiff hds
    rwa [← h, heq]
  · exact fun h => (hiff h).2

end Component

end StyleSelectors
