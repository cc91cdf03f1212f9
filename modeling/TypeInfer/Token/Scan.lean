/-
Cutting text into lexemes. `scan` says which lexeme starts at a character and how many further
characters it takes; `lexemes` repeats that. The longest match wins: a word is taken whole before it
is looked up as a keyword, marks are tried from the longest on, and a part of a number that does not
complete (`1e+`, `0xg`) is left for the next lexeme.
-/
import TypeInfer.Token.Basic

namespace TypeInfer.Token

inductive Lexeme where
  /-- A blank, a comment, or a line end that a backslash takes away. -/
  | blank
  | lineEnd
  | token (kind : TokenKind)
  /-- A string without its closing quote. -/
  | unterminated
  /-- A character that starts nothing. -/
  | stray
deriving DecidableEq, Repr, Inhabited

def isBlank (c : Char) : Bool := c == ' ' || c == '\t' || c.toNat == 0x0c

def isLineEnd (c : Char) : Bool := c == '\n' || c == '\r'

def isWordStart (c : Char) : Bool := c.isAlpha || c == '_'

def isWordChar (c : Char) : Bool := c.isAlphanum || c == '_'

def isDigitOrBar (c : Char) : Bool := c.isDigit || c == '_'

def isQuote (c : Char) : Bool := c == '"' || c == '\''

/-! ### Numbers -/

/-- The digits that may follow `0` and a letter that names their base. -/
def baseDigit? (letter : Char) : Option (Char → Bool) :=
  if letter == 'x' || letter == 'X' then
    some fun c => isDigitOrBar c || ('a' ≤ c && c ≤ 'f') || ('A' ≤ c && c ≤ 'F')
  else if letter == 'o' || letter == 'O' then some fun c => ('0' ≤ c && c ≤ '7') || c == '_'
  else if letter == 'b' || letter == 'B' then some fun c => c == '0' || c == '1' || c == '_'
  else none

/-- A number with a base other than ten. -/
def basedNumber? : List Char → Option (List Char)
  | '0' :: letter :: cs => do
    let isDigit ← baseDigit? letter
    let digits := cs.takeWhile isDigit
    if digits.isEmpty then none else some ('0' :: letter :: digits)
  | _ => none

/-- A point and the digits after it. -/
def fractionPart : List Char → List Char
  | '.' :: cs => '.' :: cs.takeWhile isDigitOrBar
  | _ => []

def signPart : List Char → List Char
  | c :: _ => if c == '+' || c == '-' then [c] else []
  | [] => []

/-- An exponent that has at least one digit. -/
def exponentPart : List Char → List Char
  | c :: cs =>
    if c == 'e' || c == 'E' then
      let sign := signPart cs
      let digits := (cs.drop sign.length).takeWhile Char.isDigit
      if digits.isEmpty then [] else c :: sign ++ digits
    else []
  | [] => []

def imaginaryPart : List Char → List Char
  | c :: _ => if c == 'j' || c == 'J' then [c] else []
  | [] => []

/-- A decimal number: its text and kind. -/
def decimalNumber (cs : List Char) : List Char × TokenKind :=
  let whole := cs.takeWhile isDigitOrBar
  let fraction := fractionPart (cs.drop whole.length)
  let mantissa := whole ++ fraction
  let exponent := exponentPart (cs.drop mantissa.length)
  let real := mantissa ++ exponent
  let unit := imaginaryPart (cs.drop real.length)
  let text := real ++ unit
  let kind :=
    if !unit.isEmpty then TokenKind.imaginary (String.ofList text)
    else if fraction.isEmpty && exponent.isEmpty then .int (String.ofList text)
    else .float (String.ofList text)
  (text, kind)

def number (cs : List Char) : List Char × TokenKind :=
  match basedNumber? cs with
  | some text => (text, .int (String.ofList text))
  | none => decimalNumber cs

/-! ### Strings -/

/-- The letters that may stand before a string, at most two of them. -/
def isMarkLetter (c : Char) : Bool := "rRbBuUfF".toList.contains c

/-- The marks and the quote of a string that starts here, and what follows the quote. -/
def stringStart? : List Char → Option (List Char × Char × List Char)
  | [] => none
  | a :: cs =>
    if isQuote a then some ([], a, cs)
    else
      match cs with
      | [] => none
      | b :: cs =>
        if isMarkLetter a && isQuote b then some ([a], b, cs)
        else
          match cs with
          | [] => none
          | c :: cs =>
            if isMarkLetter a && isMarkLetter b && isQuote c then some ([a, b], c, cs) else none

/-- What stands between the quotes of a string on one line. A backslash takes the
next character with it, a line end too, but not a lone carriage return. -/
def lineBody (quote : Char) : List Char → List Char
  | '\\' :: '\r' :: '\n' :: cs => '\\' :: '\r' :: '\n' :: lineBody quote cs
  | '\\' :: c :: cs => if c == '\r' then [] else '\\' :: c :: lineBody quote cs
  | c :: cs => if c == quote || c == '\\' || isLineEnd c then [] else c :: lineBody quote cs
  | [] => []

/-- What stands before the three closing quotes, if they come at all. -/
def blockBody? (quote : Char) : List Char → Option (List Char)
  | [] => none
  | c :: cs =>
    if c == '\\' then
      match cs with
      | [] => none
      | d :: cs => (blockBody? quote cs).map fun body => c :: d :: body
    else if [quote, quote, quote].isPrefixOf (c :: cs) then some []
    else (blockBody? quote cs).map (c :: ·)

/-- A string that starts with the given marks, followed by its opening quote and
`cs`: the lexeme and its length. Marks before a quote that opens nothing are a
word. -/
def string (marks : List Char) (quote : Char) (cs : List Char) : Lexeme × Nat :=
  let isBytes := marks.any fun c => c == 'b' || c == 'B'
  if [quote, quote].isPrefixOf cs then
    match blockBody? quote (cs.drop 2) with
    | some body => (.token (.str (String.ofList body) isBytes), marks.length + body.length + 6)
    | none => (.unterminated, marks.length + 1 + cs.length)
  else
    let body := lineBody quote cs
    if (cs.drop body.length).head? == some quote then
      (.token (.str (String.ofList body) isBytes), marks.length + body.length + 2)
    else if body.isEmpty && !marks.isEmpty then
      (.token (.ident (String.ofList marks)), marks.length)
    else (.unterminated, marks.length + 1 + body.length)

/-! ### Words and marks -/

def word (cs : List Char) : List Char × TokenKind :=
  let text := cs.takeWhile isWordChar
  let s := String.ofList text
  (text, match Keyword.ofText? s with
    | some k => .keyword k
    | none => .ident s)

/-- The marks and augmented assignments with their spelling. -/
def marks : List (List Char × TokenKind) :=
  Symbol.all.map (fun s => (s.text.toList, .symbol s)) ++
    Operator.all.map (fun op => (op.symbol.toList ++ ['='], .augAssign op))

def longer (best : Option (List Char × TokenKind)) (m : List Char × TokenKind) :
    Option (List Char × TokenKind) :=
  match best with
  | none => some m
  | some b => if b.1.length < m.1.length then some m else some b

/-- The longest mark that the text starts with. -/
def mark? (cs : List Char) : Option (List Char × TokenKind) :=
  (marks.filter (·.1.isPrefixOf cs)).foldl longer none

/-! ### Lexemes -/

/-- The lexeme that starts with `c`, and its length. -/
def scan (c : Char) (cs : List Char) : Lexeme × Nat :=
  if isBlank c then (.blank, 1 + (cs.takeWhile isBlank).length)
  else if c == '#' then (.blank, 1 + (cs.takeWhile (!isLineEnd ·)).length)
  else if c == '\n' then (.lineEnd, 1)
  else if c == '\r' then if cs.head? == some '\n' then (.lineEnd, 2) else (.stray, 1)
  else if c == '\\' then
    match cs with
    | '\n' :: _ => (.blank, 2)
    | '\r' :: '\n' :: _ => (.blank, 3)
    | _ => (.stray, 1)
  else if c.isDigit || (c == '.' && cs.head?.any Char.isDigit) then
    let (text, kind) := number (c :: cs)
    (.token kind, text.length)
  else
    match stringStart? (c :: cs) with
    | some (marks, quote, rest) => string marks quote rest
    | none =>
      if isWordStart c then
        let (text, kind) := word (c :: cs)
        (.token kind, text.length)
      else
        match mark? (c :: cs) with
        | some (text, kind) => (.token kind, text.length)
        | none => (.stray, 1)

/-- The lexemes of a text, each with its own text. -/
def lexemes : List Char → List (Lexeme × List Char)
  | [] => []
  | c :: cs =>
    let (lexeme, length) := scan c cs
    (lexeme, c :: cs.take (length - 1)) :: lexemes (cs.drop (length - 1))
termination_by cs => cs.length
decreasing_by simp only [List.length_drop, List.length_cons]; omega

end TypeInfer.Token
