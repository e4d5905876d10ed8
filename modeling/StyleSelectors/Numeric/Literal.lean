/-
Numbers as they are written: a sign, digits, a fraction, a power of ten. The value is gathered
digit by digit in binary64 and rounded once to binary32. A fraction needs a digit after the
point, and a power of ten a digit after its sign; without one they belong to what follows.
-/
import StyleSelectors.Numeric.Layout

namespace StyleSelectors.Numeric

/-- A number as tokens carry it. -/
structure Numeral where
  /-- Whether a sign was written. -/
  signed : Bool
  /-- Whether it has neither a fraction nor a power of ten. -/
  whole : Bool
  value : Single
deriving DecidableEq, Repr

/-- The parts of a written number. -/
structure Literal where
  sign : Option Char
  integral : List Char
  fraction : List Char
  /-- The sign and the digits of the power of ten. -/
  power : Option (Option Char × List Char)

/-! ## Reading -/

def isSign (c : Char) : Bool := c == '+' || c == '-'

/-- Whether a number without a sign starts here. -/
def startsUnsigned : List Char → Bool
  | '.' :: c :: _ => c.isDigit
  | c :: _ => c.isDigit
  | [] => false

/-- Whether a number starts here. -/
def startsNumber : List Char → Bool
  | c :: rest => startsUnsigned (c :: rest) || (isSign c && startsUnsigned rest)
  | [] => false

def readSign : List Char → Option Char × List Char
  | c :: rest => if isSign c then (some c, rest) else (none, c :: rest)
  | [] => (none, [])

def readDigits (cs : List Char) : List Char × List Char :=
  (cs.takeWhile Char.isDigit, cs.dropWhile Char.isDigit)

def readFraction : List Char → List Char × List Char
  | '.' :: c :: rest => if c.isDigit then readDigits (c :: rest) else ([], '.' :: c :: rest)
  | cs => ([], cs)

def readPower : List Char → Option (Option Char × List Char) × List Char
  | c :: rest =>
    let (sign, digits) := readSign rest
    if (c == 'e' || c == 'E') && digits.head?.any Char.isDigit then
      (some (sign, (readDigits digits).1), (readDigits digits).2)
    else (none, c :: rest)
  | [] => (none, [])

def Literal.read (cs : List Char) : Literal × List Char :=
  let (sign, cs) := readSign cs
  let (integral, cs) := readDigits cs
  let (fraction, cs) := readFraction cs
  let (power, cs) := readPower cs
  (⟨sign, integral, fraction, power⟩, cs)

/-! ## Value -/

def digitValue (c : Char) : Float := (c.toNat - '0'.toNat).toFloat

def signValue (sign : Option Char) : Float := if sign = some '-' then -1 else 1

/-- The value of digits before a point. -/
def integralValue (ds : List Char) : Float := ds.foldl (fun n c => n * 10 + digitValue c) 0

/-- The value of digits after a point. -/
def fractionValue (ds : List Char) : Float :=
  (ds.foldl (fun (sum, unit) c => (sum + digitValue c * unit, unit * 0.1)) ((0 : Float), (0.1 : Float))).1

namespace Literal

def value (l : Literal) : Float :=
  let mantissa := signValue l.sign * (integralValue l.integral + fractionValue l.fraction)
  match l.power with
  | none => mantissa
  | some (sign, ds) => mantissa * (10 : Float) ^ (signValue sign * integralValue ds)

/-- The number itself, or the part of a whole that it is in hundredths. -/
def numeral (l : Literal) (hundredths : Bool) : Numeral :=
  { signed := l.sign.isSome
    whole := l.fraction.isEmpty && l.power.isNone
    value := .ofFloat (if hundredths then l.value / 100 else l.value) }

end Literal

/-! ## Writing -/

/-- A whole number as a token carries it. -/
def Numeral.ofInt (n : Int) (signed : Bool) : Numeral := ⟨signed, true, .ofFloat (Float.ofInt n)⟩

/-- A whole number of hundredths as a token carries it. -/
def Numeral.ofHundredths (n : Int) (signed : Bool) : Numeral := ⟨signed, true, .ofFloat (Float.ofInt n / 100)⟩

/-- The text of a number: a sign that was written is kept on one that is not negative, and `.0`
tells an integer that was not written as one. -/
def Numeral.write (n : Numeral) : List Char :=
  let plus := if n.signed && !n.value.isNegative then ['+'] else []
  let minus := if n.value.isNegative then ['-'] else []
  let body := Layout.styleSheet.write n.value.decimal
  let mark := if !n.whole && n.value.isWhole && !body.marked then ['.', '0'] else []
  plus ++ minus ++ body.text ++ mark

/-- The text of a part of a whole, in hundredths and without their sign. -/
def Numeral.writeHundredths (n : Numeral) : List Char := Numeral.write { n with value := n.value.hundredfold }

end StyleSelectors.Numeric
