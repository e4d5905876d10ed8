/-
How a number is laid out as text. A layout keeps a number of digits, a half going up, and says
which orders of magnitude are written with a power of ten. The order is taken before rounding,
so a coefficient that rounds up to ten is written as ten.
-/
import StyleSelectors.Numeric.Decimal

namespace StyleSelectors.Numeric

/-! ## Digits -/

def digits (n : Nat) : List Char := Nat.toDigits 10 n

/-- The place of the first digit, counted from the point: 1 for `5`, 0 for `0.5`. -/
def Decimal.order (d : Decimal) : Int := (digits d.coefficient).length + d.exponent

/-- At most `places` digits of a number, a half going up. -/
def Decimal.round (d : Decimal) (places : Nat) : Decimal :=
  let excess := (digits d.coefficient).length - places
  if excess = 0 then d
  else ⟨(d.coefficient + 5 * Nat.pow 10 (excess - 1)) / Nat.pow 10 excess, d.exponent + excess⟩

/-- The digits after the point of `n · 10^(-places)`, without the zeros at their end. -/
def fractionDigits (n places : Nat) : List Char :=
  let ds := digits (n % Nat.pow 10 places)
  ((List.replicate (places - ds.length) '0' ++ ds).reverse.dropWhile (· == '0')).reverse

/-- A number without a power of ten: the digits before the point, and those after it. -/
def Decimal.positional (d : Decimal) : List Char × List Char :=
  if 0 ≤ d.exponent then (digits (d.coefficient * Nat.pow 10 d.exponent.toNat), [])
  else
    let places := (-d.exponent).toNat
    (digits (d.coefficient / Nat.pow 10 places),
      if d.coefficient % Nat.pow 10 places = 0 then [] else fractionDigits d.coefficient places)

/-! ## Layouts -/

structure Layout where
  /-- Digits kept. -/
  places : Nat
  /-- Numbers whose order is above this, and at most `greatest`, are written without a power of ten. -/
  least : Int
  greatest : Int

/-- Numbers in style sheets have six digits, and a power of ten below `1e-6` and from `1e21` on. -/
def Layout.styleSheet : Layout := ⟨6, -6, 21⟩

/-- A number as text, and whether the text shows that it is not an integer. -/
structure Written where
  text : List Char
  marked : Bool

def Layout.write (l : Layout) (d : Decimal) : Written :=
  let kept := d.round l.places
  let scientific := !(l.least < d.order && d.order ≤ l.greatest)
  let power := d.order - 1
  let (front, back) :=
    if scientific then Decimal.positional ⟨kept.coefficient, kept.exponent - power⟩ else kept.positional
  let point := if back.isEmpty then [] else '.' :: back
  let tail := if scientific then 'e' :: (if power < 0 then ['-'] else []) ++ digits power.natAbs else []
  ⟨front ++ point ++ tail, scientific || !back.isEmpty⟩

end StyleSelectors.Numeric
