/-! Decimal integers as schema documents write them: an optional sign and
one or more ASCII digits, of any length. -/
namespace SimpleBinary.Text

def digitValue (c : Char) : Nat := c.toNat - '0'.toNat

def decimalValue (digits : List Char) : Nat :=
  digits.foldl (fun value c => 10 * value + digitValue c) 0

def digits? (chars : List Char) : Option Nat :=
  if chars ≠ [] ∧ chars.all Char.isDigit then some (decimalValue chars) else none

def natural? : List Char → Option Nat
  | '+' :: digits => digits? digits
  | digits => digits? digits

def integer? : List Char → Option Int
  | '-' :: digits => (digits? digits).map fun n => -(n : Int)
  | '+' :: digits => (digits? digits).map fun n => (n : Int)
  | digits => (digits? digits).map fun n => (n : Int)

def word? (text : String) : Option Int32 := do
  let n ← integer? text.toList
  if -2147483648 ≤ n ∧ n ≤ 2147483647 then some (Int32.ofInt n) else none

end SimpleBinary.Text
