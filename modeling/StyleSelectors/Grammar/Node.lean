/-
What the grammar of selectors reads: components without comments, each with the places where it
starts and ends. `Node.ofComponents` finds the places by reading along; a comment moves the place
and leaves no node.
-/
import StyleSelectors.Component.Nesting
import StyleSelectors.Text.Position

namespace StyleSelectors

open Text

/-- A token that opens nothing, or a block, whose token is what opens it. -/
inductive Node (P : Type) where
  | leaf (token : Token) (start after : P)
  /-- The places are those before and after the opening token, before and after the closing one. What
  is inside is kept as it was written, too. -/
  | block (token : Token) (start after : P) (inside : List (Node P)) (stop finish : P)
    (written : List Component)

namespace Node

variable {P : Type}

def token : Node P → Token
  | .leaf token .. => token
  | .block token .. => token

def start : Node P → P
  | .leaf _ start _ => start
  | .block _ start .. => start

/-- The place after the token itself. -/
def after : Node P → P
  | .leaf _ _ after => after
  | .block _ _ after .. => after

/-- The place after the node. -/
def finish : Node P → P
  | .leaf _ _ after => after
  | .block _ _ _ _ _ finish _ => finish

mutual

/-- How many nodes there are in a node. -/
def size : Node P → Nat
  | .leaf .. => 1
  | .block _ _ _ inside .. => 1 + sizeAll inside

def sizeAll : List (Node P) → Nat
  | [] => 0
  | n :: rest => size n + sizeAll rest

end

/-- The nodes of components that start at a place, and the place after them. -/
def ofComponents (p : Position) : List Component → List (Node Position) × Position
  | [] => ([], p)
  | .leaf x :: rest =>
    let q := p.advance x.text
    let more := ofComponents q rest
    (if x.token.isComment then more.1 else .leaf x.token p q :: more.1, more.2)
  | .block head inside close :: rest =>
    let q := p.advance head.text
    let within := ofComponents q inside
    let r := within.2.advance (Lexeme.chars close.toList)
    let more := ofComponents r rest
    (.block head.token p q within.1 within.2 r inside :: more.1, more.2)

theorem size_pos (n : Node P) : 0 < n.size := by
  cases n with
  | leaf => exact Nat.one_pos
  | block => rw [size]; omega

end Node

end StyleSelectors
