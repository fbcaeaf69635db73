/-! Blank characters, those with the property White_Space, and the trimming
of blanks from both ends of a text. -/
namespace SimpleBinary.Text

def isBlank (c : Char) : Bool :=
  let n := c.toNat
  (0x09 ≤ n && n ≤ 0x0D) || n = 0x20 || n = 0x85 || n = 0xA0 || n = 0x1680 ||
    (0x2000 ≤ n && n ≤ 0x200A) || n = 0x2028 || n = 0x2029 || n = 0x202F ||
    n = 0x205F || n = 0x3000

def trimChars (chars : List Char) : List Char :=
  ((chars.dropWhile isBlank).reverse.dropWhile isBlank).reverse

def trim (text : String) : String :=
  String.ofList (trimChars text.toList)

def trimmed? (text : String) : Option String :=
  match trimChars text.toList with
  | [] => none
  | chars => some (String.ofList chars)

end SimpleBinary.Text
