/-
The characters of TOML: blanks, comments, keys and the four kinds of strings.
Every reader takes the text that is left and gives back what it read and what
is left after it.
-/
import TypeInfer.Json.Parser

namespace TypeInfer.Toml

abbrev Reader (α : Type) := List Char → Option (α × List Char)

def isBlank (c : Char) : Bool := c == ' ' || c == '\t'

def skipBlank (cs : List Char) : List Char := cs.dropWhile isBlank

/-- Printable characters, the tab and all beyond ASCII. -/
def isPrintable (c : Char) : Bool :=
  c == '\t' || (0x20 ≤ c.toNat && c.toNat ≤ 0x7e) || 0x80 ≤ c.toNat

/-- What follows a line end, if the text starts with one. -/
def newline? : List Char → Option (List Char)
  | '\n' :: cs => some cs
  | '\r' :: '\n' :: cs => some cs
  | _ => none

/-- What follows a comment, if the text starts with one. -/
def skipComment : List Char → List Char
  | '#' :: cs => cs.dropWhile isPrintable
  | cs => cs

/-- What follows the rest of a line, on which only a comment may stand. -/
def lineRest? (cs : List Char) : Option (List Char) :=
  match skipComment (skipBlank cs) with
  | [] => some []
  | cs => newline? cs

/-- Skips blanks, comments and line ends. -/
def skipLines : Nat → List Char → List Char
  | 0, cs => cs
  | fuel + 1, cs =>
    let cs := skipBlank cs
    match lineRest? cs with
    | some rest => if rest.length < cs.length then skipLines fuel rest else cs
    | none => cs

def skipSpace (cs : List Char) : List Char := skipLines cs.length cs

/-! ### Strings -/

/-- The character with the code that the hexadecimal digits write. -/
def scalarValue? (digits : List Char) : Option Char := do
  let code ← digits.foldlM (fun n c => (Json.hexDigit? c).map (16 * n + ·)) 0
  if code < 0xD800 ∨ (0xE000 ≤ code ∧ code < 0x110000) then some (Char.ofNat code) else none

/-- The character that an escape stands for; the backslash is gone. -/
def escape? : Reader Char
  | 'u' :: a :: b :: c :: d :: cs => (scalarValue? [a, b, c, d]).map (·, cs)
  | 'U' :: a :: b :: c :: d :: e :: f :: g :: h :: cs =>
    (scalarValue? [a, b, c, d, e, f, g, h]).map (·, cs)
  | 'b' :: cs => some (Char.ofNat 0x08, cs)
  | 't' :: cs => some ('\t', cs)
  | 'n' :: cs => some ('\n', cs)
  | 'f' :: cs => some (Char.ofNat 0x0c, cs)
  | 'r' :: cs => some ('\r', cs)
  | '"' :: cs => some ('"', cs)
  | '\\' :: cs => some ('\\', cs)
  | _ => none

/-- The rest of a string in double quotes. -/
def basicRest? : Nat → Reader (List Char)
  | 0, _ => none
  | _ + 1, '"' :: cs => some ([], cs)
  | fuel + 1, '\\' :: cs => do
    let (c, cs) ← escape? cs
    let (text, cs) ← basicRest? fuel cs
    return (c :: text, cs)
  | fuel + 1, c :: cs =>
    if isPrintable c then (basicRest? fuel cs).map fun (text, cs) => (c :: text, cs) else none
  | _ + 1, [] => none

/-- The rest of a string in single quotes. -/
def literalRest? : Reader (List Char)
  | '\'' :: cs => some ([], cs)
  | c :: cs =>
    if isPrintable c then (literalRest? cs).map fun (text, cs) => (c :: text, cs) else none
  | [] => none

/-- Skips blanks and line ends; a carriage return alone ends no line. -/
def skipEmpty : List Char → List Char
  | '\r' :: '\n' :: cs => skipEmpty cs
  | c :: cs => if isBlank c || c == '\n' then skipEmpty cs else c :: cs
  | [] => []

/-- What follows the blanks and line ends after a backslash at the end of a line. -/
def continuation? (cs : List Char) : Option (List Char) := (newline? (skipBlank cs)).map skipEmpty

/-- The quotes that end a string of several lines: up to two more belong to it. -/
def blockEnd? (quote : Char) (cs : List Char) : Option (List Char × List Char) :=
  let run := cs.takeWhile (· == quote)
  if 3 ≤ run.length then
    let inner := min (run.length - 3) 2
    some (List.replicate inner quote, cs.drop (inner + 3))
  else none

/-- The rest of a string of several lines in double quotes. -/
def basicBlockRest? : Nat → Reader (List Char)
  | 0, _ => none
  | fuel + 1, cs =>
    match blockEnd? '"' cs with
    | some done => some done
    | none =>
      match cs with
      | [] => none
      | '\\' :: rest =>
        match continuation? rest with
        | some rest => basicBlockRest? fuel rest
        | none => do
          let (c, rest) ← escape? rest
          let (text, rest) ← basicBlockRest? fuel rest
          return (c :: text, rest)
      | c :: rest =>
        match newline? cs with
        | some rest => (basicBlockRest? fuel rest).map fun (text, cs) => ('\n' :: text, cs)
        | none =>
          if isPrintable c then (basicBlockRest? fuel rest).map fun (text, cs) => (c :: text, cs)
          else none

/-- The rest of a string of several lines in single quotes. -/
def literalBlockRest? : Nat → Reader (List Char)
  | 0, _ => none
  | fuel + 1, cs =>
    match blockEnd? '\'' cs with
    | some done => some done
    | none =>
      match cs with
      | [] => none
      | c :: rest =>
        match newline? cs with
        | some rest => (literalBlockRest? fuel rest).map fun (text, cs) => ('\n' :: text, cs)
        | none =>
          if isPrintable c then (literalBlockRest? fuel rest).map fun (text, cs) => (c :: text, cs)
          else none

/-- A line end right after the opening quotes does not count. -/
def skipFirstLine (cs : List Char) : List Char := (newline? cs).getD cs

def string? : Reader (List Char)
  | '"' :: '"' :: '"' :: cs => basicBlockRest? (cs.length + 1) (skipFirstLine cs)
  | '\'' :: '\'' :: '\'' :: cs => literalBlockRest? (cs.length + 1) (skipFirstLine cs)
  | '"' :: cs => basicRest? (cs.length + 1) cs
  | '\'' :: cs => literalRest? cs
  | _ => none

/-! ### Keys -/

def isBareKeyChar (c : Char) : Bool := c.isAlphanum || c == '_' || c == '-'

/-- One part of a key: bare, or a string on one line. -/
def simpleKey? : Reader String
  | '"' :: cs => (basicRest? (cs.length + 1) cs).map fun (text, cs) => (String.ofList text, cs)
  | '\'' :: cs => (literalRest? cs).map fun (text, cs) => (String.ofList text, cs)
  | cs =>
    let key := cs.takeWhile isBareKeyChar
    if key.isEmpty then none else some (String.ofList key, cs.dropWhile isBareKeyChar)

/-- The parts after the first one, each behind a dot. -/
def moreKeys? : Nat → Reader (List String)
  | 0, _ => none
  | fuel + 1, cs =>
    match skipBlank cs with
    | '.' :: rest => do
      let (key, rest) ← simpleKey? (skipBlank rest)
      let (keys, rest) ← moreKeys? fuel rest
      return (key :: keys, rest)
    | rest => some ([], rest)

/-- How many parts a key may have, and how deep values may nest. -/
def depthLimit : Nat := 79

def key? (cs : List Char) : Option (List String × List Char) := do
  let (first, cs) ← simpleKey? cs
  let (more, cs) ← moreKeys? (cs.length + 1) cs
  if more.length < depthLimit then return (first :: more, cs) else none

end TypeInfer.Toml
