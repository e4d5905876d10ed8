/-
Which member of a group decides the cascade: of those that match, the one that weighs most, and of
several that weigh the same, the last. Finding it leaves one note.
-/
import StyleSelectors.Matching.Search
import StyleSelectors.Selector.Specificity

namespace StyleSelectors

variable {E : Type}

/-- A member that decides the cascade. -/
structure Winner where
  /-- Its place among the members, from 0. -/
  index : Nat
  weight : UInt32
deriving DecidableEq, Repr

def Winner.message (w : Winner) : String :=
  "selector group member " ++ toString w.index ++ " wins with specificity " ++ toString w.weight

namespace Group

/-- The better of the winner so far and the next member, at `index`. -/
def better (m : Model E) (e : E) (best : Option Winner) (index : Nat) (s : Selector) : Option Winner :=
  if s.holds m e && best.all fun w => w.weight ≤ s.weight then some ⟨index, s.weight⟩ else best

/-- The winner among members, the first of which is at `index`, and the winner before them. -/
def winnerFrom (m : Model E) (e : E) (best : Option Winner) (index : Nat) : List Selector → Option Winner
  | [] => best
  | s :: rest => winnerFrom m e (better m e best index s) (index + 1) rest

/-- The member that decides the cascade for an element. -/
def winner? (m : Model E) (g : Group) (e : E) : Option Winner := winnerFrom m e none 0 g.members

/-- The winner as a selector, and the note that finding it leaves. -/
def select (m : Model E) (g : Group) (e : E) : Option Selector × List String :=
  match g.winner? m e with
  | none => (none, [])
  | some w => (g.members[w.index]?, [w.message])

end Group

end StyleSelectors
