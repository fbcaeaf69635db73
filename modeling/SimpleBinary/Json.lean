import SimpleBinary.Decimal.Shortest
import SimpleBinary.Text.Quoted

/-! JSON documents and their indented text. -/
namespace SimpleBinary

inductive Json where
  | null
  | integer (value : Int)
  | double (value : Double)
  | text (value : String)
  | array (items : List Json)
  | object (members : List (String × Json))

namespace Json

/-- Shortest digits, ties to even; positional with a fraction while the
leading digit stands for a power of ten from -5 to 15, scientific beyond. What
is not finite has no number. -/
def number (d : Double) : String :=
  if d.isNaN || d.isInfinite then "null"
  else
    let sign := if d.isNegative then "-" else ""
    let decimal := Decimal.ofDouble .even d
    let isPlain := decimal.coefficient = 0 ∨ (-5 ≤ decimal.leading ∧ decimal.leading < 16)
    if isPlain then
      let fraction := if decimal.exponent < 0 then [] else ".0".toList
      sign ++ String.ofList (decimal.positional ++ fraction)
    else sign ++ String.ofList decimal.scientific

def newline (depth : Nat) : String := "\n" ++ String.ofList (List.replicate (2 * depth) ' ')

mutual

def render (depth : Nat) : Json → String
  | .null => "null"
  | .integer value => toString value
  | .double value => number value
  | .text value => Text.quote value
  | .array [] => "[]"
  | .array (item :: items) =>
    "[" ++ newline (depth + 1) ++ item.render (depth + 1) ++ renderItems (depth + 1) items ++
      newline depth ++ "]"
  | .object [] => "\x7b\x7d"
  | .object ((key, value) :: members) =>
    "\x7b" ++ newline (depth + 1) ++ Text.quote key ++ ": " ++ value.render (depth + 1) ++
      renderMembers (depth + 1) members ++ newline depth ++ "\x7d"

def renderItems (depth : Nat) : List Json → String
  | [] => ""
  | item :: items => "," ++ newline depth ++ item.render depth ++ renderItems depth items

def renderMembers (depth : Nat) : List (String × Json) → String
  | [] => ""
  | (key, value) :: members =>
    "," ++ newline depth ++ Text.quote key ++ ": " ++ value.render depth ++
      renderMembers depth members

end

def pretty (json : Json) : String := json.render 0

def optional (value : Option α) (json : α → Json) : Json := (value.map json).getD .null

end Json
end SimpleBinary
