/-
A place in a list of tokens, and the small steps that rules are made of: look, take, demand. A
failed rule keeps the place it has reached. Rules that repeat something are bounded by a number of
rounds; every round takes a token, so a bound above the number of tokens is never felt.
-/
import TypeInfer.Diagnostic
import TypeInfer.Syntax.Basic
import TypeInfer.Token.Basic

namespace TypeInfer.Grammar

instance : Coe Keyword TokenKind := ⟨.keyword⟩

instance : Coe Symbol TokenKind := ⟨.symbol⟩

/-- The tokens not yet taken, the span of the last one taken that was not a
layout token, the place of the end of the file, and the faults put on record. -/
structure Cursor where
  rest : List Token
  last : Span
  stop : Span
  faults : List Diagnostic := []
deriving Inhabited

namespace Cursor

/-- Past the last token there is only the end of the file. -/
def current (c : Cursor) : Token := c.rest.headD ⟨.eof, c.stop⟩

def kind (c : Cursor) : TokenKind := c.current.kind

def nextKind (c : Cursor) : TokenKind :=
  match c.rest with
  | _ :: t :: _ => t.kind
  | _ => .eof

def advance (c : Cursor) : Cursor :=
  let last := if c.kind.isLayout then c.last else c.current.span
  { c with rest := c.rest.tail, last }

end Cursor

inductive Failure where
  | fault (d : Diagnostic)
  /-- The bound on the number of rounds was too low. -/
  | exhausted
deriving Inhabited

abbrev Rule := EStateM Failure Cursor

def exhausted : Rule α := throw .exhausted

def peek : Rule TokenKind := return (← get).kind

def peekNext : Rule TokenKind := return (← get).nextKind

def here : Rule Span := return (← get).current.span

def advance : Rule Token := do
  let c ← get
  set c.advance
  return c.current

def check (kind : TokenKind) : Rule Bool := return (← peek) == kind

/-- Takes the current token if it is of the given kind. -/
def eat (kind : TokenKind) : Rule Bool := do
  if ← check kind then
    discard advance
    return true
  return false

def fail (code message : String) (span : Span) : Rule α :=
  throw (.fault (.error code message span))

def unexpected (what : String) : Rule α := do
  let t := (← get).current
  let code := if t.kind = .eof then Diagnostic.Code.unexpectedEnd else Diagnostic.Code.unexpectedToken
  fail code ("Expected " ++ what ++ ", found " ++ t.kind.describe) t.span

/-- Takes a token of the given kind, or fails. -/
def expect (kind : TokenKind) (what : String) : Rule Token := do
  if ← check kind then advance else unexpected what

def identifier : Rule Ident := do
  match ← peek with
  | .ident name => return ⟨name, (← advance).span⟩
  | _ => unexpected "identifier"

def atIdentifier : Rule Bool := return (← peek) matches .ident _

/-- The span from `start` to the last token taken. -/
def finish (start : Span) : Rule Span := return start.merge (← get).last

/-- Runs the rule when the condition holds. -/
def optional (condition : Rule Bool) (rule : Rule α) : Rule (Option α) := do
  if ← condition then return some (← rule)
  return none

/-- Repeats the step until it gives nothing. -/
def iterate (step : α → Rule (Option α)) : Nat → α → Rule α
  | 0, _ => exhausted
  | rounds + 1, a => do
    match ← step a with
    | some b => iterate step rounds b
    | none => return a

/-- Collects what the rule gives until it gives nothing. -/
def many (rule : Rule (Option α)) : Nat → Rule (List α)
  | 0 => exhausted
  | rounds + 1 => do
    match ← rule with
    | some a => return a :: (← many rule rounds)
    | none => return []

/-- Items with a comma between them; `atEnd` shows whether one also ends the list. -/
def commaList (rounds : Nat) (atEnd : Rule Bool) (item : Rule α) : Rule (List α) :=
  many (do
    unless ← eat Symbol.comma do return none
    if ← atEnd then return none
    return some (← item)) rounds

end TypeInfer.Grammar
