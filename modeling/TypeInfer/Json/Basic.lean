/-
JSON values and their two written forms: compact, without any blank, and
indented by two spaces. Only the quote, the backslash and the characters below
the space are escaped. An object keeps its members in the order given.
-/
import TypeInfer.Text.Quoted

namespace TypeInfer

/-- A JSON value. Numbers beyond 64 bits are kept as written, and so is what writes half of a surrogate
pair. -/
inductive Json where
  | null
  | bool (b : Bool)
  | num (n : Nat)
  | real (text : String)
  | str (s : String)
  | arr (items : List Json)
  | obj (members : List (String × Json))
  | unpaired (written : String)
deriving Inhabited

namespace Json

/-- Four hexadecimal digits of a small number. -/
def hex4 (n : Nat) : String :=
  let digits := Text.hex n
  String.ofList (List.replicate (4 - digits.length) '0') ++ digits

def escapeChar (c : Char) : String :=
  if c = '"' then "\\\""
  else if c = '\\' then "\\\\"
  else if c = '\n' then "\\n"
  else if c = '\r' then "\\r"
  else if c = '\t' then "\\t"
  else if c.toNat = 0x08 then "\\b"
  else if c.toNat = 0x0c then "\\f"
  else if c.toNat < 0x20 then "\\u" ++ hex4 c.toNat
  else String.singleton c

def renderText (s : String) : String :=
  "\"" ++ String.join (s.toList.map escapeChar) ++ "\""

mutual

/-- The compact form. -/
def render : Json → String
  | .null => "null"
  | .bool true => "true"
  | .bool false => "false"
  | .num n => toString n
  | .real text => text
  | .str s => renderText s
  | .arr [] => "[]"
  | .arr (item :: items) => "[" ++ render item ++ renderItems items ++ "]"
  | .obj [] => "\x7b\x7d"
  | .obj ((key, value) :: members) =>
    "\x7b" ++ renderText key ++ ":" ++ render value ++ renderMembers members ++ "\x7d"
  | .unpaired written => written

/-- The items after the first one, each with its comma. -/
def renderItems : List Json → String
  | [] => ""
  | item :: items => "," ++ render item ++ renderItems items

def renderMembers : List (String × Json) → String
  | [] => ""
  | (key, value) :: members => "," ++ renderText key ++ ":" ++ render value ++ renderMembers members

end

/-- A new line, indented to the given depth. -/
def newLine (depth : Nat) : String :=
  "\n" ++ String.ofList (List.replicate (2 * depth) ' ')

mutual

/-- The indented form, at the given depth. -/
def prettyAt (depth : Nat) : Json → String
  | .arr (item :: items) =>
    "[" ++ newLine (depth + 1) ++ prettyAt (depth + 1) item ++ prettyItems (depth + 1) items ++
      newLine depth ++ "]"
  | .obj ((key, value) :: members) =>
    "\x7b" ++ newLine (depth + 1) ++ renderText key ++ ": " ++ prettyAt (depth + 1) value ++
      prettyMembers (depth + 1) members ++ newLine depth ++ "\x7d"
  | .null => render .null
  | .bool b => render (.bool b)
  | .num n => render (.num n)
  | .real text => render (.real text)
  | .str s => render (.str s)
  | .arr [] => render (.arr [])
  | .obj [] => render (.obj [])
  | .unpaired written => render (.unpaired written)

def prettyItems (depth : Nat) : List Json → String
  | [] => ""
  | item :: items => "," ++ newLine depth ++ prettyAt depth item ++ prettyItems depth items

def prettyMembers (depth : Nat) : List (String × Json) → String
  | [] => ""
  | (key, value) :: members =>
    "," ++ newLine depth ++ renderText key ++ ": " ++ prettyAt depth value ++
      prettyMembers depth members

end

def pretty (j : Json) : String := prettyAt 0 j

end Json

end TypeInfer
