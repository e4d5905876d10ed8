/-
Which tokens of a selector are kept apart. The parts of a selector begin and end with few kinds of
tokens; of two that meet, only a name before an identifier is kept apart from it.
-/
import StyleSelectors.Selector.Printer

namespace StyleSelectors.Token

theorem serialize_cons {t : Token} {ts : List Token} (h : ∀ next ∈ ts.head?, t.runsInto next = false) :
    serialize (t :: ts) = t.text ++ serialize ts := by
  cases ts with
  | nil => rw [serialize, serialize, List.append_nil]
  | cons next ts =>
    rw [serialize, separator, if_neg (by simp [h next rfl]), List.append_nil]

/-- The comment that keeps two lists of tokens apart where they meet, if one does. -/
def between (xs ys : List Token) : List Token :=
  match xs.getLast?, ys.head? with
  | some t, some next => if t.runsInto next then [.comment ""] else []
  | _, _ => []

theorem serialize_append (xs : List Token) {ys : List Token} (h : ys ≠ []) :
    serialize (xs ++ ys) = serialize xs ++ (serialize (between xs ys) ++ serialize ys) := by
  obtain ⟨t, ys, rfl⟩ := List.exists_cons_of_ne_nil h
  rw [serialize_append_cons, between]
  cases hlast : xs.getLast? with
  | none => simp [serialize]
  | some last =>
    by_cases hruns : last.runsInto t = true
    · simp [separator, hruns, serialize, text]
    · simp [separator, hruns, serialize]

theorem delimRunsInto_closing (c : Char) (b : Bracket) : delimRunsInto c (.closing b) = false := by
  unfold delimRunsInto
  repeat' split
  all_goals rfl

/-- Nothing runs into a closing bracket. -/
theorem runsInto_closing (t : Token) (b : Bracket) : t.runsInto (.closing b) = false := by
  cases t with
  | delim c => exact delimRunsInto_closing c b
  | comment _ => exact delimRunsInto_closing '/' b
  | _ => rfl

theorem serialize_append_closing (ts : List Token) (b : Bracket) :
    serialize (ts ++ [.closing b]) = serialize ts ++ [b.closeChar] := by
  have hnone : between ts [.closing b] = [] := by
    unfold between
    split
    · next heq =>
      cases heq
      rw [if_neg (by simp [runsInto_closing])]
    · rfl
  rw [serialize_append ts (List.cons_ne_nil _ _), hnone]
  rfl

/-! ## Parts of a selector -/

/-- The tokens that a part of a selector starts with. -/
def StartsPart : Token → Prop
  | .ident _ | .idHash _ | .colon => True
  | .delim c => c = '*' ∨ c = '|' ∨ c = '.'
  | .opening b => b = .square
  | _ => False

/-- The tokens that a part of a selector ends with. -/
def EndsPart : Token → Prop
  | .ident _ | .idHash _ | .closing _ => True
  | .delim c => c = '*'
  | _ => False

def isIdent : Token → Bool
  | .ident _ => true
  | _ => false

def isNamed : Token → Bool
  | .ident _ | .idHash _ => true
  | _ => false

/-- Where two parts meet, only a name before an identifier runs into it. -/
theorem runsInto_of_parts {t next : Token} (ht : t.EndsPart) (hnext : next.StartsPart) :
    t.runsInto next = (t.isNamed && next.isIdent) := by
  cases t with
  | ident _ | idHash _ =>
    cases next with
    | delim c => rcases hnext with rfl | rfl | rfl <;> rfl
    | opening b => cases hnext; rfl
    | ident _ | idHash _ | colon => rfl
    | _ => cases hnext
  | delim c =>
    cases ht
    cases next with
    | delim c => rcases hnext with rfl | rfl | rfl <;> rfl
    | ident _ | idHash _ | colon | opening _ => rfl
    | _ => cases hnext
  | closing _ => rfl
  | _ => cases ht

/-- What a combinator is written with stands between parts as it is. -/
theorem runsInto_combinator {t : Token} (ht : t.EndsPart) (link : Combinator) : t.runsInto link.token = false := by
  cases t with
  | ident _ | idHash _ | closing _ => cases link <;> rfl
  | delim c => cases ht; cases link <;> rfl
  | _ => cases ht

theorem combinator_runsInto {next : Token} (hnext : next.StartsPart) (link : Combinator) :
    link.token.runsInto next = false := by
  cases next with
  | delim c => rcases hnext with rfl | rfl | rfl <;> cases link <;> rfl
  | ident _ | idHash _ | colon | opening _ => cases link <;> rfl
  | _ => cases hnext

theorem runsInto_comma {t : Token} (ht : t.EndsPart) : t.runsInto .comma = false := by
  cases t with
  | ident _ | idHash _ | closing _ => rfl
  | delim c => cases ht; rfl
  | _ => cases ht

end StyleSelectors.Token
