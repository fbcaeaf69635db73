/-! Rounding of quotients to the nearest integer, a half going to the even
neighbour. -/
namespace SimpleBinary.Decimal

def roundDiv (numerator denominator : Nat) : Nat :=
  let floor := numerator / denominator
  let rest := 2 * (numerator % denominator)
  if rest < denominator then floor
  else if rest > denominator then floor + 1
  else if floor % 2 = 0 then floor
  else floor + 1

theorem roundDiv_mul (quotient denominator : Nat) (positive : 0 < denominator) :
    roundDiv (quotient * denominator) denominator = quotient := by
  simp [roundDiv, Nat.mul_div_cancel _ positive, positive]

def digitCount (n : Nat) : Nat := (Nat.toDigits 10 n).length

end SimpleBinary.Decimal
