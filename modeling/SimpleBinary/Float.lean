import SimpleBinary.Decimal.Round

/-! Binary floating point as bit patterns. Numbers are kept by their bits, so
two NaNs with different bits are different values; every operation is exact
arithmetic on naturals followed by one rounding to nearest, ties to even. -/
namespace SimpleBinary

structure FloatFormat where
  fractionBits : Nat
  exponentBits : Nat

namespace FloatFormat

def single : FloatFormat := ⟨23, 8⟩

def double : FloatFormat := ⟨52, 11⟩

variable (format : FloatFormat)

def minExponent : Int := 2 - (1 <<< (format.exponentBits - 1) : Nat)

def infinity : Nat := ((1 <<< format.exponentBits) - 1) <<< format.fractionBits

def quiet : Nat := 1 <<< (format.fractionBits - 1)

def sign : Nat := 1 <<< (format.fractionBits + format.exponentBits)

/-- The bits of the positive number nearest to a quotient. The exponent field
counts from the least normal exponent, and the leading bit of a normal
significand carries into it, so one addition packs both fields. -/
def ofRatio (numerator denominator : Nat) : Nat :=
  if numerator = 0 then 0
  else
    let guess : Int := (Nat.log2 numerator : Int) - Nat.log2 denominator
    let below := numerator <<< (-guess).toNat < denominator <<< guess.toNat
    let exponent := max (if below then guess - 1 else guess) format.minExponent
    let unit := exponent - format.fractionBits
    let significand :=
      Decimal.roundDiv (numerator <<< (-unit).toNat) (denominator <<< unit.toNat)
    min (((exponent - format.minExponent).toNat <<< format.fractionBits) + significand)
      format.infinity

end FloatFormat

structure Double where
  bits : UInt64
  deriving DecidableEq

namespace Double

def ofFields (negative : Bool) (magnitude : Nat) : Double :=
  ⟨UInt64.ofNat ((if negative then FloatFormat.double.sign else 0) + magnitude)⟩

def isNegative (d : Double) : Bool := 0x8000000000000000 ≤ d.bits

def magnitude (d : Double) : Nat := d.bits.toNat % (1 <<< 63)

def isNaN (d : Double) : Bool := FloatFormat.double.infinity < d.magnitude

def isInfinite (d : Double) : Bool := d.magnitude = FloatFormat.double.infinity

def nan : Double := ⟨0x7FF8000000000000⟩

def greatest : Double := ⟨0x7FEFFFFFFFFFFFFF⟩

def least : Double := ⟨0xFFEFFFFFFFFFFFFF⟩

def ofInt (n : Int) : Double :=
  ofFields (n < 0) (FloatFormat.double.ofRatio n.natAbs 1)

/-- The significand and exponent of a finite magnitude: it is the first times
two to the second. -/
def scaled (d : Double) : Nat × Int :=
  let field : Nat := d.magnitude >>> 52
  let fraction := d.magnitude % (1 <<< 52)
  if field = 0 then (fraction, -1074) else ((1 <<< 52) + fraction, (field : Int) - 1075)

/-- Widening is exact; a NaN keeps its sign and payload and becomes quiet. -/
def ofSingleBits (bits : UInt32) : Double :=
  let negative : Bool := 0x80000000 ≤ bits
  let magnitude := bits.toNat % (1 <<< 31)
  let field := magnitude >>> 23
  let fraction := magnitude % (1 <<< 23)
  if field = 255 then
    if fraction = 0 then ofFields negative FloatFormat.double.infinity
    else ofFields negative
      (FloatFormat.double.infinity + ((fraction % (1 <<< 22) + (1 <<< 22)) <<< 29))
  else if field = 0 then
    if fraction = 0 then ofFields negative 0
    else
      let lead := Nat.log2 fraction
      ofFields negative (((lead + 874) <<< 52) + ((fraction - (1 <<< lead)) <<< (52 - lead)))
  else ofFields negative (((field + 896) <<< 52) + (fraction <<< 29))

/-- Narrowing rounds; a NaN keeps its sign and the top of its payload and
becomes quiet. Below the least normal single the significand loses one more
bit for every step of the exponent. -/
def toSingleBits (d : Double) : UInt32 :=
  let field := d.magnitude >>> 52
  let fraction := d.magnitude % (1 <<< 52)
  let magnitude :=
    if field = 2047 then
      if fraction = 0 then FloatFormat.single.infinity
      else FloatFormat.single.infinity + ((fraction >>> 29) % (1 <<< 22) + (1 <<< 22))
    else if 897 ≤ field then
      min (Decimal.roundDiv d.magnitude (1 <<< 29) - (896 <<< 23)) FloatFormat.single.infinity
    else Decimal.roundDiv ((1 <<< 52) + fraction) (1 <<< (29 + (897 - field)))
  UInt32.ofNat ((if d.isNegative then FloatFormat.single.sign else 0) + magnitude)

end Double
end SimpleBinary
