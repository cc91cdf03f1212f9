/-
Text between double quotes, as messages show it: the quote, the backslash and
what has no shape of its own are written as escapes.
-/
import TypeInfer.Text.Shapeless

namespace TypeInfer.Text

/-- Hexadecimal digits of `n`, without leading zeros. -/
def hex (n : Nat) : String := String.ofList (Nat.toDigits 16 n)

def quotedChar (c : Char) : String :=
  if c = '"' then "\\\""
  else if c = '\\' then "\\\\"
  else if c = '\n' then "\\n"
  else if c = '\r' then "\\r"
  else if c = '\t' then "\\t"
  else if c.toNat = 0 then "\\0"
  else if isShapeless c then "\\u\x7b" ++ hex c.toNat ++ "\x7d"
  else String.singleton c

def quoted (cs : List Char) : String :=
  "\"" ++ String.join (cs.map quotedChar) ++ "\""

end TypeInfer.Text
