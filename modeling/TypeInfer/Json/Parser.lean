/-
Reading JSON text. `parse?` accepts one value with blanks around it and nothing after it. The fuel
of the mutual functions only makes their recursion visible: a text of `n` characters nests and
lists at most `n` values.
-/
import TypeInfer.Json.Basic

namespace TypeInfer.Json

def isBlank (c : Char) : Bool := c == ' ' || c == '\n' || c == '\r' || c == '\t'

def skipBlank (cs : List Char) : List Char := cs.dropWhile isBlank

def hexDigit? (c : Char) : Option Nat :=
  if '0' ≤ c ∧ c ≤ '9' then some (c.toNat - '0'.toNat)
  else if 'a' ≤ c ∧ c ≤ 'f' then some (c.toNat - 'a'.toNat + 10)
  else if 'A' ≤ c ∧ c ≤ 'F' then some (c.toNat - 'A'.toNat + 10)
  else none

/-- The code unit written by four hexadecimal digits. -/
def unit? (a b c d : Char) : Option Nat := do
  return (((← hexDigit? a) * 16 + (← hexDigit? b)) * 16 + (← hexDigit? c)) * 16 + (← hexDigit? d)

/-- The character that a one-letter escape stands for. -/
def shortEscape? (c : Char) : Option Char :=
  match c with
  | '"' => some '"'
  | '\\' => some '\\'
  | '/' => some '/'
  | 'b' => some (Char.ofNat 0x08)
  | 'f' => some (Char.ofNat 0x0c)
  | 'n' => some '\n'
  | 'r' => some '\r'
  | 't' => some '\t'
  | _ => none

/-- A part of a text: a character, or a code unit that was written by its number. -/
inductive TextPart where
  | char (c : Char)
  | unit (code : Nat)
deriving DecidableEq, Repr, Inhabited

/-- The parts of a text up to the closing quote, and what follows the quote. -/
def textParts? : List Char → Option (List TextPart × List Char)
  | [] => none
  | '"' :: rest => some ([], rest)
  | '\\' :: 'u' :: a :: b :: c :: d :: rest => do
    let code ← unit? a b c d
    let (parts, rest) ← textParts? rest
    return (.unit code :: parts, rest)
  | '\\' :: c :: rest => do
    let c ← shortEscape? c
    let (parts, rest) ← textParts? rest
    return (.char c :: parts, rest)
  | c :: rest => do
    if c.toNat < 0x20 ∨ c = '\\' then none
    let (parts, rest) ← textParts? rest
    return (.char c :: parts, rest)

def isHighUnit (code : Nat) : Bool := 0xD800 ≤ code && code < 0xDC00

def isLowUnit (code : Nat) : Bool := 0xDC00 ≤ code && code < 0xE000

/-- The characters that the parts stand for. A character above the first plane is
written as two units, and one of these alone stands for nothing. -/
def charsOf? : List TextPart → Option (List Char)
  | [] => some []
  | .char c :: parts => (charsOf? parts).map (c :: ·)
  | .unit high :: .unit low :: parts =>
    if isHighUnit high && isLowUnit low then
      (charsOf? parts).map (Char.ofNat (0x10000 + (high - 0xD800) * 0x400 + (low - 0xDC00)) :: ·)
    else if isHighUnit high || isLowUnit high then none
    else (charsOf? (.unit low :: parts)).map (Char.ofNat high :: ·)
  | .unit code :: parts =>
    if isHighUnit code || isLowUnit code then none
    else (charsOf? parts).map (Char.ofNat code :: ·)

/-- The text up to the closing quote, unless it writes half of a pair, and what
follows the quote. -/
def text? (cs : List Char) : Option (Option (List Char) × List Char) :=
  (textParts? cs).map fun (parts, rest) => (charsOf? parts, rest)

/-- What stands in `cs` before `rest`, its end. -/
def written (cs rest : List Char) : String := String.ofList (cs.take (cs.length - rest.length))

def digitsValue (cs : List Char) : Nat :=
  cs.foldl (fun n c => 10 * n + (c.toNat - '0'.toNat)) 0

/-- The digits before a fraction: a leading zero stands alone. -/
def wholePart? : List Char → Option (List Char × List Char)
  | '0' :: rest =>
    match rest with
    | c :: _ => if c.isDigit then none else some (['0'], rest)
    | [] => some (['0'], rest)
  | cs =>
    let digits := cs.takeWhile Char.isDigit
    if digits.isEmpty then none else some (digits, cs.dropWhile Char.isDigit)

/-- A point and at least one digit, if there is a point. -/
def fraction? : List Char → Option (List Char × List Char)
  | '.' :: rest =>
    let digits := rest.takeWhile Char.isDigit
    if digits.isEmpty then none else some ('.' :: digits, rest.dropWhile Char.isDigit)
  | cs => some ([], cs)

/-- An exponent, if there is one. -/
def exponent? : List Char → Option (List Char × List Char)
  | e :: rest =>
    if e = 'e' ∨ e = 'E' then
      let (sign, rest) :=
        match rest with
        | s :: more => if s = '+' ∨ s = '-' then ([s], more) else ([], rest)
        | [] => ([], rest)
      let digits := rest.takeWhile Char.isDigit
      if digits.isEmpty then none else some (e :: sign ++ digits, rest.dropWhile Char.isDigit)
    else some ([], e :: rest)
  | [] => some ([], [])

def number? (cs : List Char) : Option (Json × List Char) := do
  let (sign, cs) := if cs.head? = some '-' then (['-'], cs.drop 1) else ([], cs)
  let (whole, cs) ← wholePart? cs
  let (fraction, cs) ← fraction? cs
  let (exponent, cs) ← exponent? cs
  let value := digitsValue whole
  if sign.isEmpty && fraction.isEmpty && exponent.isEmpty && value < UInt64.size then
    return (.num value, cs)
  return (.real (String.ofList (sign ++ whole ++ fraction ++ exponent)), cs)

mutual

def value? : Nat → List Char → Option (Json × List Char)
  | 0, _ => none
  | fuel + 1, cs =>
    match skipBlank cs with
    | [] => none
    | '"' :: rest => do
      let (text, after) ← text? rest
      match text with
      | some text => return (.str (String.ofList text), after)
      | none => return (.unpaired (written ('"' :: rest) after), after)
    | '[' :: rest =>
      match skipBlank rest with
      | ']' :: rest => some (.arr [], rest)
      | rest => do
        let (items, rest) ← items? fuel rest
        return (.arr items, rest)
    | '\x7b' :: rest =>
      match skipBlank rest with
      | '\x7d' :: rest => some (.obj [], rest)
      | inner => do
        let (members, after) ← members? fuel inner
        match members with
        | some members => return (.obj members, after)
        | none => return (.unpaired (written ('\x7b' :: rest) after), after)
    | 'n' :: 'u' :: 'l' :: 'l' :: rest => some (.null, rest)
    | 't' :: 'r' :: 'u' :: 'e' :: rest => some (.bool true, rest)
    | 'f' :: 'a' :: 'l' :: 's' :: 'e' :: rest => some (.bool false, rest)
    | rest => number? rest

/-- The items of an array that has at least one, up to its end. -/
def items? : Nat → List Char → Option (List Json × List Char)
  | 0, _ => none
  | fuel + 1, cs => do
    let (item, rest) ← value? fuel cs
    match skipBlank rest with
    | ',' :: rest =>
      let (items, rest) ← items? fuel rest
      return (item :: items, rest)
    | ']' :: rest => return ([item], rest)
    | _ => none

/-- The members of an object that has at least one, unless a key writes half of a
pair, up to its end. -/
def members? : Nat → List Char → Option (Option (List (String × Json)) × List Char)
  | 0, _ => none
  | fuel + 1, cs =>
    match skipBlank cs with
    | '"' :: rest => do
      let (key, rest) ← text? rest
      match skipBlank rest with
      | ':' :: rest =>
        let (value, rest) ← value? fuel rest
        match skipBlank rest with
        | ',' :: rest =>
          let (members, rest) ← members? fuel rest
          return (key.bind fun key => members.map ((String.ofList key, value) :: ·), rest)
        | '\x7d' :: rest => return (key.map fun key => [(String.ofList key, value)], rest)
        | _ => none
      | _ => none
    | _ => none

end

/-- The value that the whole text writes. -/
def parse? (s : String) : Option Json :=
  let cs := s.toList
  match value? (2 * cs.length + 2) cs with
  | some (j, rest) => if (skipBlank rest).isEmpty then some j else none
  | none => none

end TypeInfer.Json
