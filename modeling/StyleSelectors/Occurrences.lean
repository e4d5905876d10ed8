/-
Telling equal things apart from new ones: for each item of a list, where the first one equal to it
stands.
-/
import Std.Data.HashMap

namespace StyleSelectors

variable {α : Type} [BEq α] [Hashable α]

/-- The numbers of items that start at `index`, where `seen` has the first place of each one before. -/
def firstPlacesFrom (seen : Std.HashMap α Nat) (index : Nat) : List α → List Nat
  | [] => []
  | a :: rest =>
    match seen[a]? with
    | some i => i :: firstPlacesFrom seen (index + 1) rest
    | none => index :: firstPlacesFrom (seen.insert a index) (index + 1) rest

/-- For each item, the place of the first one equal to it. -/
def firstPlaces (xs : List α) : List Nat := firstPlacesFrom ∅ 0 xs

end StyleSelectors
