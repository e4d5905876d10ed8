/-
Binary32 numbers as their bits, and the magnitude `m · 2^e` that the bits of a finite number
stand for. Arithmetic rounds to nearest, a half to the even neighbour.
-/
namespace StyleSelectors.Numeric

structure Single where
  bits : UInt32
deriving DecidableEq, Repr

namespace Single

/-- The binary32 number nearest to a binary64 one. -/
def ofFloat (x : Float) : Single := ⟨x.toFloat32.toBits⟩

/-- A hundred times a number, rounded. -/
def hundredfold (x : Single) : Single := ⟨(Float32.ofBits x.bits * 100).toBits⟩

def isNegative (x : Single) : Bool := x.bits >>> 31 == 1

/-- The significand and the power of two of the magnitude. -/
def magnitude (x : Single) : Nat × Int :=
  let exponent := ((x.bits >>> 23) &&& 0xFF).toNat
  let fraction := (x.bits &&& 0x7FFFFF).toNat
  if exponent = 0 then (fraction, -149) else (0x800000 + fraction, (exponent : Int) - 150)

def isZero (x : Single) : Bool := x.magnitude.1 == 0

/-- Whether the number is an integer. -/
def isWhole (x : Single) : Bool :=
  let (m, e) := x.magnitude
  m % (1 <<< (-e).toNat) == 0

/-- The magnitudes between these two round to this one. They are told in quarters of the last place;
a power of two is given half the room below it. -/
def roundingInterval (x : Single) : Nat × Nat :=
  let m := x.magnitude.1
  (4 * m - (if m = 0x800000 then 1 else 2), 4 * m + 2)

end Single

end StyleSelectors.Numeric
