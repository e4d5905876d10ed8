/-
The decimal that a binary32 number is written as. The numbers that round to it are measured on a
scale: multiplied by a power of ten, so that 4 to 30 bits of 32 stand before the point. The power
and each product are rounded to 32 bits, so a measured end may be one too far out, and is drawn in
by one. Of the decimals inside, `Single.decimal` takes one with the greatest power of ten, and of
two such the nearer one. It lies inside (`multipleAt?_inside`), so it reads back; where a decimal
with fewer digits is all but half a last place away, it may be passed over.
-/
import StyleSelectors.Numeric.Single

namespace StyleSelectors.Numeric

/-- The number `coefficient · 10^exponent`. -/
structure Decimal where
  coefficient : Nat
  exponent : Int
deriving DecidableEq, Repr

/-! ## Scales -/

/-- The quotient as a natural number, a half going up. -/
def nearest (n d : Nat) : Nat := (2 * n + d) / (2 * d)

theorem nearest_cases (n d : Nat) : nearest n d = n / d ∨ nearest n d = n / d + 1 := by
  rcases Nat.eq_zero_or_pos d with rfl | hd
  · simp [nearest]
  have hn := Nat.div_add_mod n d
  have hr := Nat.mod_lt n hd
  have hq : n / d * (2 * d) = 2 * (d * (n / d)) := by rw [Nat.mul_left_comm, Nat.mul_comm (n / d)]
  have low : n / d ≤ nearest n d := (Nat.le_div_iff_mul_le (by omega)).2 (by omega)
  have high : nearest n d < n / d + 2 := (Nat.div_lt_iff_lt_mul (by omega)).2 (by rw [Nat.add_mul]; omega)
  omega

/-- The power of two that is the leading bit of `10^k`. -/
def leadingBit (k : Int) : Int :=
  if 0 ≤ k then (Nat.pow 10 k.toNat).log2 else -((Nat.pow 10 (-k).toNat).log2 : Int) - 1

/-- A power of ten in 32 bits: `10^power` is nearly `significand · 2^exponent`. -/
structure Scale where
  power : Int
  significand : Nat
  exponent : Int
deriving DecidableEq, Repr

namespace Scale

def ofPower (k : Int) : Scale :=
  let e := leadingBit k - 31
  ⟨k, nearest (Nat.pow 10 k.toNat <<< (-e).toNat) (Nat.pow 10 (-k).toNat <<< e.toNat), e⟩

/-- Every eighth power of ten from `10^-36` on, as many as finite numbers need. -/
def all : List Scale := (List.range 12).map fun (i : Nat) => ofPower (8 * i - 36)

/-- The least scale on which a product with 32 bits times `2^e` has at most 28 bits after the point. -/
def fitting (e : Int) : Scale := (all.find? fun s => -28 ≤ e + s.exponent + 32).getD (ofPower 0)

/-- The leading 32 bits of a product. -/
def times (s : Scale) (n : Nat) : Nat := nearest (n * s.significand) 0x100000000

end Scale

/-! ## Measured intervals -/

/-- A number and the ends of the interval that rounds to it, multiplied by `10^power` and counted in
units of `2^(-places)`. -/
structure Measured where
  low : Nat
  value : Nat
  high : Nat
  places : Nat
  power : Int
deriving DecidableEq, Repr

/-- The interval that rounds to the magnitude of `x`, without what its measured ends may be off by. -/
def Single.measured (x : Single) : Measured :=
  let (low, high) := x.roundingInterval
  let shift := 31 - high.log2
  let e := x.magnitude.2 - 2 - shift
  let scale := Scale.fitting e
  { low := scale.times (low <<< shift) + 1
    value := scale.times ((4 * x.magnitude.1) <<< shift)
    high := scale.times (high <<< shift) - 1
    places := (-(e + scale.exponent + 32)).toNat
    power := scale.power }

namespace Measured

/-- What `10^k` counts, and the factor by which all other counts grow to be compared with it. -/
def step (w : Measured) (k : Int) : Nat × Nat := (Nat.pow 10 k.toNat <<< w.places, Nat.pow 10 (-k).toNat)

/-- Whether `c · 10^k` lies in the interval. -/
def admits (w : Measured) (k : Int) (c : Nat) : Bool :=
  let (unit, up) := w.step k
  w.low * up ≤ c * unit && c * unit ≤ w.high * up

/-- The multiple of `10^k` in the interval that is nearest to the number, a half going up. -/
def multipleAt? (w : Measured) (k : Int) : Option Nat :=
  let (unit, up) := w.step k
  let below := w.value * up / unit
  match w.admits k below, w.admits k (below + 1) with
  | true, true => some (nearest (w.value * up) unit)
  | true, false => some below
  | false, true => some (below + 1)
  | false, false => none

/-- The powers of ten that the last digit of a measured number may stand for, the greatest first. -/
def lastDigits : List Int := (List.range 19).map fun (i : Nat) => 9 - (i : Int)

/-- The decimal in the interval with the greatest power of ten. -/
def decimal? (w : Measured) : Option Decimal :=
  lastDigits.findSome? fun k => (w.multipleAt? k).map fun c => ⟨c, k - w.power⟩

/-- Rounding to the nearest multiple does not leave the interval. -/
theorem multipleAt?_inside {w : Measured} {k : Int} {c : Nat} (h : w.multipleAt? k = some c) :
    w.admits k c = true := by
  unfold multipleAt? at h
  dsimp only at h
  split at h
  · next hb ha =>
    cases h
    rcases nearest_cases (w.value * (w.step k).2) (w.step k).1 with hn | hn <;> rw [hn] <;> assumption
  · next hb _ => cases h; exact hb
  · next _ ha => cases h; exact ha
  · cases h

end Measured

/-- The magnitude of a finite number in decimal digits that read back to it. -/
def Single.decimal (x : Single) : Decimal := if x.isZero then ⟨0, 0⟩ else x.measured.decimal?.getD ⟨0, 0⟩

end StyleSelectors.Numeric
