/-
Writing TOML strings and lists. A string is written in the plainest way that
shows it as it is: in double quotes, in single quotes, on several lines in
either kind of quotes, and only then with escapes.
-/
import TypeInfer.Json.Basic

namespace TypeInfer.Toml

/-- Characters that can only be written as an escape. -/
def needsEscape (c : Char) : Bool :=
  (c.toNat ≤ 0x1f && c != '\t' && c != '\n') || c.toNat == 0x7f

def longestRun (c : Char) (cs : List Char) : Nat :=
  (cs.foldl (fun (best, run) d => if d = c then (max best (run + 1), run + 1) else (best, 0)) (0, 0)).1

/-- How a character is written in double quotes. On several lines, a line end and two quotes in a row stand
for themselves; `quotes` counts those before. -/
def escapeChar (block : Bool) (quotes : Nat) (c : Char) : String × Nat :=
  if c = '"' then if block && quotes < 2 then ("\"", quotes + 1) else ("\\\"", 0)
  else if c = '\\' then ("\\\\", 0)
  else if c = '\t' then ("\\t", 0)
  else if c = '\n' then (if block then "\n" else "\\n", 0)
  else if c = '\r' then ("\\r", 0)
  else if c.toNat = 0x08 then ("\\b", 0)
  else if c.toNat = 0x0c then ("\\f", 0)
  else if needsEscape c then ("\\u" ++ (Json.hex4 c.toNat).map Char.toUpper, 0)
  else (String.singleton c, 0)

def escaped (block : Bool) : Nat → List Char → String
  | _, [] => ""
  | quotes, c :: cs =>
    let (s, quotes) := escapeChar block quotes c
    s ++ escaped block quotes cs

/-- A string in the style that suits it. -/
def renderText (s : String) : String :=
  let cs := s.toList
  let coded := cs.any needsEscape
  let lines := cs.contains '\n'
  let opening := if lines then "\n" else ""
  if !coded && !cs.contains '\\' && !cs.contains '"' && !lines then
    "\"" ++ escaped false 0 cs ++ "\""
  else if !coded && !cs.contains '\'' && !lines then "'" ++ s ++ "'"
  else if !coded && !cs.contains '\\' && longestRun '"' cs ≤ 2 then
    "\"\"\"" ++ opening ++ escaped true 0 cs ++ "\"\"\""
  else if !coded && longestRun '\'' cs ≤ 2 then "'''" ++ opening ++ s ++ "'''"
  else if lines then "\"\"\"\n" ++ escaped true 0 cs ++ "\"\"\""
  else "\"" ++ escaped false 0 cs ++ "\""

/-- A list of strings; two or more stand on lines of their own. -/
def renderList (items : List String) : String :=
  match items with
  | [] => "[]"
  | [item] => "[" ++ renderText item ++ "]"
  | items => "[\n" ++ String.join (items.map fun item => "    " ++ renderText item ++ ",\n") ++ "]"

def renderBool (b : Bool) : String := if b then "true" else "false"

end TypeInfer.Toml
