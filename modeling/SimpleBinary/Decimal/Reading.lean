import SimpleBinary.Decimal.Shortest
import SimpleBinary.Text.Integer

/-! Floating point literals: an optional sign, then `inf`, `infinity` or `nan`
in any case, or digits with an optional point and an optional exponent. -/
namespace SimpleBinary

inductive FloatLiteral where
  | number (value : Decimal)
  | infinity
  | nan

namespace FloatLiteral

/-- Exponent digits stop counting once the number is past any format. -/
def exponentValue (digits : List Char) : Nat :=
  digits.foldl (fun value c =>
    if value < 0x10000 then 10 * value + Text.digitValue c else value) 0

def exponent? : List Char → Option Int
  | [] => some 0
  | mark :: rest =>
    if mark = 'e' ∨ mark = 'E' then
      let (negative, digits) := match rest with
        | '-' :: digits => (true, digits)
        | '+' :: digits => (false, digits)
        | digits => (false, digits)
      if digits ≠ [] ∧ digits.all Char.isDigit then
        let value : Int := exponentValue digits
        some (if negative then -value else value)
      else none
    else none

def number? (chars : List Char) : Option Decimal := do
  let whole := chars.takeWhile Char.isDigit
  let afterWhole := chars.dropWhile Char.isDigit
  let (fraction, rest) := match afterWhole with
    | '.' :: more => (more.takeWhile Char.isDigit, more.dropWhile Char.isDigit)
    | more => ([], more)
  if whole = [] ∧ fraction = [] then none
  else
    let exponent ← exponent? rest
    some ⟨Text.decimalValue (whole ++ fraction), exponent - fraction.length⟩

def unsigned? (chars : List Char) : Option FloatLiteral :=
  let lower := String.ofList (chars.map Char.toLower)
  if lower = "inf" ∨ lower = "infinity" then some .infinity
  else if lower = "nan" then some .nan
  else (number? chars).map .number

def read? : List Char → Option (Bool × FloatLiteral)
  | '-' :: rest => (unsigned? rest).map (true, ·)
  | '+' :: rest => (unsigned? rest).map (false, ·)
  | rest => (unsigned? rest).map (false, ·)

/-- The bits nearest to a decimal. Decimals far outside every format are
settled by their leading digit alone, so no power grows with the literal. -/
def nearest (format : FloatFormat) (d : Decimal) : Nat :=
  if d.coefficient = 0 then 0
  else if 400 < d.leading then format.infinity
  else if d.leading < -400 then 0
  else format.ofRatio (d.coefficient * Nat.pow 10 d.exponent.toNat)
    (Nat.pow 10 (-d.exponent).toNat)

def bits (format : FloatFormat) : Bool × FloatLiteral → Nat
  | (negative, literal) =>
    (if negative then format.sign else 0) + match literal with
      | .number value => nearest format value
      | .infinity => format.infinity
      | .nan => format.infinity + format.quiet

end FloatLiteral

def Double.read? (chars : List Char) : Option Double :=
  (FloatLiteral.read? chars).map fun literal =>
    ⟨UInt64.ofNat (FloatLiteral.bits .double literal)⟩

/-- A single, rounded once and then widened. -/
def Double.readSingle? (chars : List Char) : Option Double :=
  (FloatLiteral.read? chars).map fun literal =>
    .ofSingleBits (UInt32.ofNat (FloatLiteral.bits .single literal))

end SimpleBinary
