/-
A cursor stands somewhere in a stretch of nodes: it has the place reached, the nodes ahead, and
the place where the stretch ends. A stretch is a whole text, what is inside a block, or what is
between two commas (`Cursor.pieces`).
-/
import StyleSelectors.Grammar.Node
import StyleSelectors.Grammar.Report

namespace StyleSelectors

structure Cursor (P : Type) where
  here : P
  rest : List (Node P)
  stop : P

namespace Cursor

open Text

variable {P : Type}

/-- The start of a text. -/
def ofChars (cs : List Char) : Cursor Position :=
  let nodes := Node.ofComponents .start (Component.ofChars cs)
  ⟨.start, nodes.1, nodes.2⟩

/-- The start of what is inside a block. -/
def inside : Node P → Cursor P
  | .leaf _ _ after => ⟨after, [], after⟩
  | .block _ _ after nodes stop _ _ => ⟨after, nodes, stop⟩

/-- Past the first node. -/
def next (c : Cursor P) : Cursor P :=
  match c.rest with
  | [] => c
  | n :: rest => { c with here := n.finish, rest := rest }

/-- Past blanks and comments. -/
def skipSpace (c : Cursor P) : Cursor P :=
  let ahead := c.rest.dropWhile fun n => n.token.isWhitespace
  { c with here := (ahead.head?.map Node.start).getD c.stop, rest := ahead }

/-- The token right ahead. -/
def token? (c : Cursor P) : Option Token := c.rest.head?.map Node.token

/-- The failure that whatever is ahead should not be there. -/
def unexpected (c : Cursor P) : Failure P :=
  match c.token? with
  | some t => ⟨.unexpectedToken t, c.here⟩
  | none => ⟨.unexpectedEnd, c.stop⟩

/-- The same failure, told after the token. -/
def unexpectedPast (c : Cursor P) : Failure P :=
  match c.rest with
  | n :: _ => ⟨.unexpectedToken n.token, n.after⟩
  | [] => ⟨.unexpectedEnd, c.stop⟩

/-- How many nodes are ahead, those inside blocks included. -/
def size (c : Cursor P) : Nat := Node.sizeAll c.rest

/-- The stretches between commas. -/
def pieces (here : P) (stop : P) : List (Node P) → Cursor P × List (Cursor P)
  | [] => (⟨here, [], stop⟩, [])
  | n :: rest =>
    match n.token with
    | .comma =>
      let more := pieces n.finish stop rest
      (⟨here, [], n.start⟩, more.1 :: more.2)
    | _ =>
      let more := pieces here stop rest
      ({ more.1 with rest := n :: more.1.rest }, more.2)

/-! ## Size -/

theorem size_next_le (c : Cursor P) : c.next.size ≤ c.size := by
  unfold next
  split
  · exact Nat.le_refl _
  · next h => simp [size, h, Node.sizeAll]

theorem size_next_lt {c : Cursor P} (h : c.rest ≠ []) : c.next.size < c.size := by
  unfold next
  split
  · next hnil => exact absurd hnil h
  · next n rest hcons => simpa [size, hcons, Node.sizeAll] using n.size_pos

theorem sizeAll_dropWhile_le (p : Node P → Bool) (ns : List (Node P)) :
    Node.sizeAll (ns.dropWhile p) ≤ Node.sizeAll ns := by
  induction ns with
  | nil => exact Nat.le_refl _
  | cons n ns ih =>
    rw [List.dropWhile_cons]
    split
    · simp only [Node.sizeAll]; omega
    · exact Nat.le_refl _

theorem size_skipSpace_le (c : Cursor P) : c.skipSpace.size ≤ c.size := sizeAll_dropWhile_le _ _

end Cursor

end StyleSelectors
