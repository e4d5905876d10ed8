/-
Complex selectors: compounds with combinators between them, as they are written, and the trees
they stand for. The last compound becomes operands on the same element; each one before it must be
a single simple selector, or the whole stands for what nothing matches.
-/
import StyleSelectors.Grammar.Compound

namespace StyleSelectors

/-- Compounds from the first to the subject, with the combinator after each but the last. -/
inductive Complex (P : Type) where
  | subject (k : Compound P)
  | link (k : Compound P) (combinator : Combinator) (rest : Complex P)

/-! ## Reading -/

namespace Cursor

variable {P : Type}

/-- The combinator that a token stands for, blanks aside. -/
def combinatorOf? : Token → Option Combinator
  | .delim '>' => some .child
  | .delim '+' => some .adjacentSibling
  | .delim '~' => some .generalSibling
  | _ => none

/-- The combinator after a compound, and what is after it; nothing at the end. -/
def combinator? (c : Cursor P) : Except (Failure P) (Option (Combinator × Cursor P)) :=
  match c.skipSpace.token? with
  | none => .ok none
  | some t =>
    match combinatorOf? t with
    | some link => .ok (some (link, c.skipSpace.next))
    | none =>
      if c.token?.any Token.isWhitespace then .ok (some (.descendant, c.skipSpace))
      else .error c.unexpectedPast

theorem size_combinator? {c d : Cursor P} {link : Combinator}
    (h : c.combinator? = .ok (some (link, d))) : d.size ≤ c.size := by
  unfold combinator? at h
  split at h
  · cases h
  · split at h
    · cases h
      exact Nat.le_trans (size_next_le _) (size_skipSpace_le _)
    · split at h
      · cases h; exact size_skipSpace_le _
      · cases h

/-- A complex selector, from where its first compound starts to the end. -/
def complex (ns : Namespace) (c : Cursor P) : Report P (Complex P) :=
  match h : (c.compound ns).result with
  | .error e => ⟨(c.compound ns).remarks, .error e⟩
  | .ok (k, d) =>
    match hd : d.combinator? with
    | .error e => ⟨(c.compound ns).remarks, .error e⟩
    | .ok none => ⟨(c.compound ns).remarks, .ok (.subject k)⟩
    | .ok (some (link, e)) =>
      if e.skipSpace.rest.isEmpty then
        ⟨(c.compound ns).remarks, .error ⟨.danglingCombinator, e.skipSpace.here⟩⟩
      else
        have := size_compound h
        have := size_combinator? hd
        have := e.size_skipSpace_le
        let more := complex ns e.skipSpace
        ⟨(c.compound ns).remarks ++ more.remarks, more.result.map (.link k link ·)⟩
termination_by c.size
decreasing_by grind

end Cursor

/-! ## Trees -/

/-- Simple selectors on the same element. -/
def Selector.conjunction (locator : Option Locator) : Simple → List Simple → Selector
  | s, [] => .simple s
  | s, t :: rest => .both s (conjunction locator t rest) locator

namespace Complex

variable {P : Type}

/-- The tree of a complex selector, or why it has none. -/
def tree (locate : P → Locator) : Complex P → Except (Unsupported P) Selector
  | .subject k => .ok (.conjunction (some (locate k.place)) k.first k.others)
  | .link k combinator rest =>
    match rest.tree locate with
    | .error why => .error why
    | .ok second =>
      if k.others.isEmpty then .ok (.related combinator k.first second (some (locate k.place)))
      else .error (.compoundBefore combinator k.place)

/-- The selector that a complex selector stands for. -/
def selector (locate : P → Locator) (x : Complex P) : Report P Selector :=
  match x.tree locate with
  | .ok s => .ok s
  | .error why => .remark why (.ok (.simple .nothing))

end Complex

end StyleSelectors
