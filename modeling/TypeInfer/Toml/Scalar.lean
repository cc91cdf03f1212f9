/-
Numbers, dates and times of TOML. Only whether they are well formed and within
their ranges matters here: what is left after them is all that a reader gives.
-/
import TypeInfer.Toml.Text

namespace TypeInfer.Toml

/-- Digits that may each have a bar before them; the digits alone are given. -/
def moreDigits (isDigit : Char → Bool) : List Char → List Char × List Char
  | '_' :: c :: cs =>
    if isDigit c then
      let (more, rest) := moreDigits isDigit cs
      (c :: more, rest)
    else ([], '_' :: c :: cs)
  | c :: cs =>
    if isDigit c then
      let (more, rest) := moreDigits isDigit cs
      (c :: more, rest)
    else ([], c :: cs)
  | [] => ([], [])

/-- Digits with single bars between them. -/
def digits? (isDigit : Char → Bool) : Reader (List Char)
  | c :: cs =>
    if isDigit c then
      let (more, rest) := moreDigits isDigit cs
      some (c :: more, rest)
    else none
  | [] => none

def sign : List Char → Option Char × List Char
  | '+' :: cs => (some '+', cs)
  | '-' :: cs => (some '-', cs)
  | cs => (none, cs)

/-- Decimal digits of which the first is zero only if it stands alone. -/
def decimal? (cs : List Char) : Option (List Char × List Char) :=
  match cs with
  | '0' :: cs => some (['0'], cs)
  | cs => digits? Char.isDigit cs

def valueOf (base : Nat) (digits : List Char) : Nat :=
  digits.foldl (fun n c => base * n + (Json.hexDigit? c).getD 0) 0

/-- Whole numbers have 64 bits with a sign. -/
def basedInteger? (base : Nat) (isDigit : Char → Bool) (cs : List Char) : Option (List Char) := do
  let (digits, cs) ← digits? isDigit cs
  if valueOf base digits < Nat.pow 2 63 then some cs else none

def integer? : List Char → Option (List Char)
  | '0' :: 'x' :: cs => basedInteger? 16 (fun c => (Json.hexDigit? c).isSome) cs
  | '0' :: 'o' :: cs => basedInteger? 8 (fun c => '0' ≤ c && c ≤ '7') cs
  | '0' :: 'b' :: cs => basedInteger? 2 (fun c => c == '0' || c == '1') cs
  | cs => do
    let (mark, cs) := sign cs
    let (digits, cs) ← decimal? cs
    let limit := if mark = some '-' then Nat.pow 2 63 else Nat.pow 2 63 - 1
    if valueOf 10 digits ≤ limit then some cs else none

/-- Whether a positive decimal lies beyond the largest double. -/
def isTooLarge (digits : List Char) (exponent : Int) : Bool :=
  let n := valueOf 10 digits
  let size : Int := (Nat.toDigits 10 n).length + exponent
  let bound := Nat.pow 2 1024 - Nat.pow 2 970
  if n = 0 || size < 308 then false
  else if 310 < size then true
  else if 0 ≤ exponent then bound ≤ n * Nat.pow 10 exponent.toNat
  else bound * Nat.pow 10 (-exponent).toNat ≤ n

/-- The digits of a fraction, if there is one. -/
def fraction? : Reader (List Char)
  | '.' :: cs => digits? Char.isDigit cs
  | _ => none

def exponent? : Reader Int
  | c :: cs =>
    if c == 'e' || c == 'E' then do
      let (mark, cs) := sign cs
      let (digits, cs) ← digits? Char.isDigit cs
      let n : Int := valueOf 10 digits
      return (if mark = some '-' then -n else n, cs)
    else none
  | [] => none

/-- A number with a fraction or an exponent. -/
def float? (cs : List Char) : Option (List Char) := do
  let (mark, cs) := sign cs
  match cs with
  | 'i' :: 'n' :: 'f' :: cs => return cs
  | 'n' :: 'a' :: 'n' :: cs => return cs
  | _ =>
    let (whole, cs) ← decimal? cs
    let (fraction, exponent, cs) ←
      match fraction? cs with
      | some (fraction, cs) =>
        match exponent? cs with
        | some (exponent, cs) => some (fraction, exponent, cs)
        | none => some (fraction, 0, cs)
      | none => (exponent? cs).map fun (exponent, cs) => ([], exponent, cs)
    if mark != some '-' && isTooLarge (whole ++ fraction) (exponent - fraction.length) then none
    else return cs

/-- A number of exactly `n` digits that lies between the bounds. -/
def field? (n low high : Nat) (cs : List Char) : Option (Nat × List Char) :=
  let digits := cs.take n
  let value := valueOf 10 digits
  if digits.length = n ∧ digits.all Char.isDigit ∧ low ≤ value ∧ value ≤ high then
    some (value, cs.drop n)
  else none

def expectChar? (c : Char) : List Char → Option (List Char)
  | d :: cs => if c = d then some cs else none
  | [] => none

def daysIn (year month : Nat) : Nat :=
  let isLeap := year % 4 = 0 ∧ (year % 100 ≠ 0 ∨ year % 400 = 0)
  if month = 2 then (if isLeap then 29 else 28)
  else if [4, 6, 9, 11].contains month then 30 else 31

def date? (cs : List Char) : Option (List Char) := do
  let (year, cs) ← field? 4 0 9999 cs
  let cs ← expectChar? '-' cs
  let (month, cs) ← field? 2 1 12 cs
  let cs ← expectChar? '-' cs
  let (_, cs) ← field? 2 1 (daysIn year month) cs
  return cs

def time? (cs : List Char) : Option (List Char) := do
  let (_, cs) ← field? 2 0 23 cs
  let cs ← expectChar? ':' cs
  let (_, cs) ← field? 2 0 59 cs
  let cs ← expectChar? ':' cs
  let (_, cs) ← field? 2 0 60 cs
  match cs with
  | '.' :: rest =>
    if (rest.head?.any Char.isDigit) then return rest.dropWhile Char.isDigit else return cs
  | _ => return cs

/-- What follows the offset from universal time, which may be missing. -/
def skipOffset (cs : List Char) : List Char :=
  match cs with
  | 'Z' :: rest | 'z' :: rest => rest
  | c :: rest =>
    if c == '+' || c == '-' then
      (do
        let (_, rest) ← field? 2 0 23 rest
        let rest ← expectChar? ':' rest
        let (_, rest) ← field? 2 0 59 rest
        return rest).getD cs
    else cs
  | [] => cs

def dateTime? (cs : List Char) : Option (List Char) :=
  match date? cs with
  | some rest =>
    match rest with
    | c :: more =>
      if c == 'T' || c == 't' || c == ' ' then
        match time? more with
        | some rest => some (skipOffset rest)
        | none => some rest
      else some rest
    | [] => some rest
  | none => time? cs

/-- What follows a number, a date or a time. -/
def scalar? (cs : List Char) : Option (List Char) :=
  dateTime? cs <|> float? cs <|> integer? cs

end TypeInfer.Toml
