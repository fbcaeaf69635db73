import SimpleBinary.Float

/-! The shortest decimal that reads back as a given double. Of several
decimals with the fewest digits the one nearest to the double is taken; when
two are equally near, the format decides. -/
namespace SimpleBinary

/-- The number `coefficient * 10 ^ exponent`. -/
structure Decimal where
  coefficient : Nat
  exponent : Int
  deriving DecidableEq

namespace Decimal

inductive Tie where
  | up | even

/-- Numbers over one denominator: the value and the ends of the interval that
rounds to it, with the ends included or not. -/
structure Interval where
  denominator : Nat
  low : Nat
  value : Nat
  high : Nat
  closed : Bool

/-- The interval below a power of two is half as wide, unless the numbers
below are as far apart. -/
def Interval.ofScaled (significand : Nat) (exponent : Int) : Interval :=
  let unit := 1 <<< exponent.toNat
  let narrow := significand = 1 <<< 52 ∧ -1074 < exponent
  { denominator := 4 <<< (-exponent).toNat
    low := (4 * significand - if narrow then 1 else 2) * unit
    value := 4 * significand * unit
    high := (4 * significand + 2) * unit
    closed := significand % 2 = 0 }

def Interval.leading (interval : Interval) : Int :=
  if interval.denominator ≤ interval.value then
    (digitCount (interval.value / interval.denominator) : Int) - 1
  else -(digitCount ((interval.denominator - 1) / interval.value) : Int)

/-- The nearest multiple of `10 ^ exponent` inside the interval, if one of
the two neighbours of the value on that grid is inside. -/
def Interval.onGrid? (interval : Interval) (tie : Tie) (exponent : Int) : Option Decimal :=
  let up := Nat.pow 10 (-exponent).toNat
  let step := Nat.pow 10 exponent.toNat * interval.denominator
  let low := interval.low * up
  let value := interval.value * up
  let high := interval.high * up
  let inside (n : Nat) : Bool :=
    (low < n * step && n * step < high) ||
      (interval.closed && (n * step = low || n * step = high))
  let below := value / step
  let middle := (2 * below + 1) * step
  let preferAbove : Bool :=
    middle < 2 * value ||
      (middle = 2 * value && (match tie with | .up => true | .even => below % 2 = 1))
  if inside below && !(inside (below + 1) && preferAbove) then some ⟨below, exponent⟩
  else if inside (below + 1) then some ⟨below + 1, exponent⟩
  else none

/-- Seventeen digits always suffice. -/
def Interval.shortest (interval : Interval) (tie : Tie) : Decimal :=
  let leading := interval.leading
  ((List.range 17).findSome? fun (n : Nat) => interval.onGrid? tie (leading - n)).getD
    ⟨interval.value / interval.denominator, 0⟩

def strip : Nat → Decimal → Decimal
  | 0, d => d
  | fuel + 1, d =>
    if d.coefficient ≠ 0 ∧ d.coefficient % 10 = 0 then
      strip fuel ⟨d.coefficient / 10, d.exponent + 1⟩
    else d

def ofDouble (tie : Tie) (d : Double) : Decimal :=
  let (significand, exponent) := d.scaled
  if significand = 0 then ⟨0, 0⟩
  else strip 17 ((Interval.ofScaled significand exponent).shortest tie)

def digits (d : Decimal) : List Char := Nat.toDigits 10 d.coefficient

def positional (d : Decimal) : List Char :=
  let digits := d.digits
  if 0 ≤ d.exponent then
    if d.coefficient = 0 then digits else digits ++ List.replicate d.exponent.toNat '0'
  else
    let places := (-d.exponent).toNat
    if places < digits.length then
      digits.take (digits.length - places) ++ '.' :: digits.drop (digits.length - places)
    else '0' :: '.' :: List.replicate (places - digits.length) '0' ++ digits

def leading (d : Decimal) : Int := d.exponent + d.digits.length - 1

def scientific (d : Decimal) : List Char :=
  let mantissa := match d.digits with
    | [] => []
    | [c] => [c]
    | c :: rest => c :: '.' :: rest
  let sign := if d.leading < 0 then '-' else '+'
  mantissa ++ 'e' :: sign :: Nat.toDigits 10 d.leading.natAbs

end Decimal

/-- Doubles are displayed in positional notation whatever their size, ties
going up. -/
def Double.display (d : Double) : String :=
  if d.isNaN then "NaN"
  else
    let sign := if d.isNegative then "-" else ""
    if d.isInfinite then sign ++ "inf"
    else sign ++ String.ofList (Decimal.ofDouble .up d).positional

end SimpleBinary
