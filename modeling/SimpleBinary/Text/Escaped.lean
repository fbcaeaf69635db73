import SimpleBinary.Text.Quoted
import SimpleBinary.Text.Hidden

/-! Quoted text in which every hidden character is written by its number, so
that what is wrong with a literal can be seen. -/
namespace SimpleBinary.Text

def escapeChar (c : Char) : List Char :=
  if c = '"' then ['\\', '"']
  else if c = '\\' then ['\\', '\\']
  else if c = '\n' then ['\\', 'n']
  else if c = '\r' then ['\\', 'r']
  else if c = '\t' then ['\\', 't']
  else if c.toNat = 0 then ['\\', '0']
  else if isHidden c then "\\u\x7b".toList ++ hexDigits 1 c.toNat ++ ['\x7d']
  else [c]

def escape (text : String) : String :=
  String.ofList ('"' :: text.toList.flatMap escapeChar ++ ['"'])

end SimpleBinary.Text
