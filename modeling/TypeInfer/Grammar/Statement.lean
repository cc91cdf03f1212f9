/-
The grammar of statements and blocks. A statement that cannot be read is put on record as a fault;
reading goes on after its line and the block that hangs off it. Blocks are read by the rules given
as `inner`, after a token was taken.
-/
import TypeInfer.Grammar.Expression

namespace TypeInfer.Grammar

/-- The rules for blocks, and the bound on their repetitions. -/
structure BlockRules where
  rounds : Nat
  /-- Statements up to the given layout token. -/
  statements : TokenKind → Rule (List Stmt)
  ifStatement : Rule Stmt

/-! ### Small statements -/

def atLineEnd : Rule Bool := return (← check .newline) || (← check .eof)

def dottedIdents (r : Rules) : Rule (List Ident) := do
  let first ← identifier
  let more ← many (optional (eat Symbol.dot) identifier) (r.rounds + 1)
  return first :: more

def localName : Rule (Option Ident) := optional (eat Keyword.asKw) identifier

def moduleAlias (r : Rules) : Rule Alias := do
  let start ← here
  let name ← dottedIdents r
  let asName ← localName
  return ⟨← finish start, name, asName⟩

def importStatement (r : Rules) : Rule Stmt := do
  let start ← here
  discard advance
  let names ← separated (return false) (moduleAlias r) (r.rounds + 1)
  return .importModules (← finish start) names

/-- A dot counts once and an ellipsis three times. -/
def importDots : Rule (Option Nat) := do
  if ← eat Symbol.dot then return some 1
  if ← eat Symbol.ellipsis then return some 3
  return none

def nameAlias : Rule Alias := do
  let start ← here
  let name ← identifier
  let asName ← localName
  return ⟨← finish start, [name], asName⟩

def importedNames (r : Rules) : Rule ImportNames := do
  if ← check Symbol.star then return .star (← advance).span
  let inParens ← eat Symbol.leftParen
  let atEnd : Rule Bool := if inParens then check Symbol.rightParen else return false
  let aliases ← separated atEnd nameAlias (r.rounds + 1)
  if inParens then discard <| expect Symbol.rightParen "')'"
  if aliases.isEmpty then unexpected "imported name" else return .names aliases

def fromImport (r : Rules) : Rule Stmt := do
  let start ← here
  discard advance
  let level := (← many importDots (r.rounds + 1)).foldl Nat.add 0
  let module ← if level > 0 && (← check Keyword.importKw) then pure [] else dottedIdents r
  discard <| expect Keyword.importKw "'import'"
  let names ← importedNames r
  return .importFrom (← finish start) module level names

/-- A chain of targets and the value; `first` has been read. -/
def assignment (r : Rules) (start : Span) (first : Expr) : Rule Stmt := do
  let step (state : List Expr × Expr) : Rule (Option (List Expr × Expr)) := do
    unless ← eat Symbol.eq do return none
    checkTarget state.2
    let value ← yieldOrList r
    return some (state.1 ++ [state.2], value)
  let (targets, value) ← iterate step (r.rounds + 1) ([], first)
  return .assign (← finish start) targets value

/-- An expression by itself, or an assignment of any kind. -/
def expressionStatement (r : Rules) : Rule Stmt := do
  let start ← here
  let first ← yieldOrList r
  match ← peek with
  | .symbol .colon => do
    discard advance
    checkTarget first
    let annotation ← r.expression
    let value ← optional (eat Symbol.eq) (yieldOrList r)
    return .annAssign (← finish start) first annotation value
  | .augAssign op => do
    discard advance
    checkTarget first
    let value ← yieldOrList r
    return .augAssign (← finish start) first op value
  | .symbol .eq => assignment r start first
  | _ => return .expr (← finish start) first

def identList (r : Rules) : Rule (List Ident) := separated (return false) identifier (r.rounds + 1)

/-- The targets of a deletion; a tuple stands for its elements. -/
def deletionTargets : Expr → List Expr
  | .tuple _ elts => elts
  | target => [target]

def smallStatement (r : Rules) : Rule Stmt := do
  let start ← here
  match ← peek with
  | .keyword .passKw => discard advance; return .pass start
  | .keyword .breakKw => discard advance; return .break start
  | .keyword .continueKw => discard advance; return .continue start
  | .keyword .returnKw => do
    discard advance
    let value ← optional atExpression (expressionList r)
    return .return (← finish start) value
  | .keyword .raiseKw => do
    discard advance
    let exception ← optional atExpression r.expression
    let cause ← optional (if exception.isSome then eat Keyword.fromKw else return false) r.expression
    return .raise (← finish start) exception cause
  | .keyword .globalKw => do
    discard advance
    let names ← identList r
    return .global (← finish start) names
  | .keyword .nonlocalKw => do
    discard advance
    let names ← identList r
    return .nonlocal (← finish start) names
  | .keyword .delKw => do
    discard advance
    let targets := deletionTargets (← expressionList r)
    targets.forM checkTarget
    return .delete (← finish start) targets
  | .keyword .assertKw => do
    discard advance
    let test ← r.expression
    let message ← optional (eat Symbol.comma) r.expression
    return .assert (← finish start) test message
  | .keyword .importKw => importStatement r
  | .keyword .fromKw => fromImport r
  | _ => expressionStatement r

def simpleStatements (r : Rules) : Rule (List Stmt) := do
  let first ← smallStatement r
  let next : Rule (Option Stmt) := do
    unless ← eat Symbol.semicolon do return none
    if ← atLineEnd then return none
    return some (← smallStatement r)
  let more ← many next (r.rounds + 1)
  unless ← check .eof do discard <| expect .newline "end of line"
  return first :: more

/-! ### Compound statements -/

/-- A colon with an indented block after it, or with statements on its line. -/
def block (r : Rules) (inner : BlockRules) : Rule (List Stmt) := do
  discard <| expect Symbol.colon "':'"
  unless ← eat .newline do return ← simpleStatements r
  unless ← eat .indent do return ← unexpected "an indented block"
  let body ← inner.statements .dedent
  discard <| eat .dedent
  return body

def elseBlock (r : Rules) (inner : BlockRules) : Rule (List Stmt) := do
  if ← eat Keyword.elseKw then block r inner else return []

def functionDef (r : Rules) (inner : BlockRules) (decorators : List Expr) : Rule Stmt := do
  let start ← here
  let isAsync ← eat Keyword.asyncKw
  discard <| expect Keyword.defKw "'def'"
  let name ← identifier
  discard <| expect Symbol.leftParen "'('"
  let params ← params r Symbol.rightParen true
  discard <| expect Symbol.rightParen "')'"
  let returns ← optional (eat Symbol.arrow) r.expression
  let span ← finish start
  let body ← block r inner
  return .function { span, name, params, body, decorators, returns, isAsync }

def basesOf (args : List Arg) : List Expr :=
  args.filterMap fun
    | .positional base | .star base => some base
    | _ => none

def classKeywordsOf (args : List Arg) : List ClassKeyword :=
  args.filterMap fun
    | .keyword name value => some ⟨name, value⟩
    | _ => none

def classDef (r : Rules) (inner : BlockRules) (decorators : List Expr) : Rule Stmt := do
  let start ← here
  discard <| expect Keyword.classKw "'class'"
  let name ← identifier
  let args ← if ← eat Symbol.leftParen then arguments r else pure []
  let span ← finish start
  let body ← block r inner
  return .classDef
    { span, name, bases := basesOf args, keywords := classKeywordsOf args, body, decorators }

def decorator (r : Rules) : Rule (Option Expr) := do
  unless ← eat Symbol.at do return none
  let e ← named r
  discard <| expect .newline "end of line after decorator"
  return some e

def decorated (r : Rules) (inner : BlockRules) : Rule Stmt := do
  let decorators ← many (decorator r) (r.rounds + 1)
  match ← peek with
  | .keyword .defKw | .keyword .asyncKw => functionDef r inner decorators
  | .keyword .classKw => classDef r inner decorators
  | _ => unexpected "function or class definition"

/-- A condition with its block and what follows; the first token is `if` or `elif`. -/
def ifStatement (r : Rules) (inner : BlockRules) : Rule Stmt := do
  let start ← here
  discard advance
  let test ← named r
  let body ← block r inner
  let orElse ← match ← peek with
    | .keyword .elifKw => do pure [← inner.ifStatement]
    | .keyword .elseKw => do
      discard advance
      block r inner
    | _ => pure []
  return .cond (← finish start) test body orElse

def whileStatement (r : Rules) (inner : BlockRules) : Rule Stmt := do
  let start ← here
  discard advance
  let test ← named r
  let body ← block r inner
  let orElse ← elseBlock r inner
  return .while (← finish start) test body orElse

def forStatement (r : Rules) (inner : BlockRules) : Rule Stmt := do
  let start ← here
  let isAsync ← eat Keyword.asyncKw
  discard <| expect Keyword.forKw "'for'"
  let target ← targetList r
  discard <| expect Keyword.inKw "'in'"
  let iter ← expressionList r
  let body ← block r inner
  let orElse ← elseBlock r inner
  return .for (← finish start) target iter body orElse isAsync

def handler (r : Rules) (inner : BlockRules) : Rule (Option ExceptHandler) := do
  unless ← check Keyword.exceptKw do return none
  let start ← here
  discard advance
  discard <| eat Symbol.star
  let type ← optional (return !(← check Symbol.colon)) r.expression
  let name ← if type.isSome then localName else pure none
  let span ← finish start
  let body ← block r inner
  return some ⟨span, type, name, body⟩

def tryStatement (r : Rules) (inner : BlockRules) : Rule Stmt := do
  let start ← here
  discard advance
  let body ← block r inner
  let handlers ← many (handler r inner) (r.rounds + 1)
  let orElse ← elseBlock r inner
  let finalBody ← if ← eat Keyword.finallyKw then block r inner else pure []
  if handlers.isEmpty && finalBody.isEmpty then unexpected "'except' or 'finally'"
  else return .try (← finish start) body handlers orElse finalBody

/-- Whether an `as` stands right inside the parenthesis ahead. -/
def opensItems (depth : Nat) : List Token → Bool
  | [] => false
  | t :: ts =>
    match t.kind with
    | .symbol s =>
      if s.isOpening then opensItems (depth + 1) ts
      else if s.isClosing then depth - 1 != 0 && opensItems (depth - 1) ts
      else opensItems depth ts
    | .keyword .asKw => depth == 1 || opensItems depth ts
    | .newline | .eof => false
    | _ => opensItems depth ts

def withItem (r : Rules) : Rule WithItem := do
  let context ← r.expression
  let target ← optional (eat Keyword.asKw) do
    let target ← starTarget r
    checkTarget target
    return target
  return ⟨context, target⟩

def withStatement (r : Rules) (inner : BlockRules) : Rule Stmt := do
  let start ← here
  let isAsync ← eat Keyword.asyncKw
  discard <| expect Keyword.withKw "'with'"
  let inParens := (← check Symbol.leftParen) && opensItems 0 (← get).rest
  if inParens then discard advance
  let atEnd : Rule Bool := if inParens then check Symbol.rightParen else return false
  let items ← separated atEnd (withItem r) (r.rounds + 1)
  if inParens then discard <| expect Symbol.rightParen "')'"
  let body ← block r inner
  return .with (← finish start) items body isAsync

/-- The statements of one line, or one compound statement. -/
def statement (r : Rules) (inner : BlockRules) : Rule (List Stmt) := do
  let one (rule : Rule Stmt) : Rule (List Stmt) := return [← rule]
  match ← peek with
  | .keyword .defKw => one (functionDef r inner [])
  | .keyword .classKw => one (classDef r inner [])
  | .symbol .at => one (decorated r inner)
  | .keyword .asyncKw => do
    match ← peekNext with
    | .keyword .defKw => one (functionDef r inner [])
    | .keyword .forKw => one (forStatement r inner)
    | .keyword .withKw => one (withStatement r inner)
    | _ => do
      discard advance
      unexpected "'def', 'for' or 'with' after 'async'"
  | .keyword .ifKw => one (ifStatement r inner)
  | .keyword .whileKw => one (whileStatement r inner)
  | .keyword .forKw => one (forStatement r inner)
  | .keyword .tryKw => one (tryStatement r inner)
  | .keyword .withKw => one (withStatement r inner)
  | .indent => do fail Diagnostic.Code.unexpectedIndent "Unexpected indent" (← here)
  | _ => simpleStatements r

/-! ### Going on after a fault -/

/-- The tokens after the current line, and the last one passed over. -/
def skipLine : List Token → Span → List Token × Span
  | [], last => ([], last)
  | t :: ts, last =>
    match t.kind with
    | .eof | .dedent | .indent => (t :: ts, last)
    | .newline => (ts, last)
    | _ => skipLine ts t.span

/-- The tokens after the block that opens here, which `depth` blocks surround. -/
def skipBlock (depth : Nat) : List Token → Span → List Token × Span
  | [], last => ([], last)
  | t :: ts, last =>
    match t.kind with
    | .eof => (t :: ts, last)
    | .indent => skipBlock (depth + 1) ts last
    | .dedent => if depth - 1 = 0 then (ts, last) else skipBlock (depth - 1) ts last
    | .newline => skipBlock depth ts last
    | _ => skipBlock depth ts t.span

/-- The place after the rest of the line and the block that hangs off it. -/
def Cursor.recover (c : Cursor) : Cursor :=
  let (rest, last) := skipLine c.rest c.last
  let opensBlock := rest.head?.any (·.kind == .indent)
  let (rest, last) := if opensBlock then skipBlock 0 rest last else (rest, last)
  { c with rest, last }

/-- The place from which to go on after a fault, at least one token further on. -/
def Cursor.resume (before c : Cursor) (d : Diagnostic) : Cursor :=
  let c := { c.recover with faults := c.faults ++ [d] }
  if c.rest.length = before.rest.length then c.advance else c

/-- One round of a block: nothing at its end. -/
def blockRound (r : Rules) (inner : BlockRules) (stop : TokenKind) : Rule (Option (List Stmt)) := do
  if (← check stop) || (← check .eof) then return none
  if ← eat .newline then return some []
  let before ← get
  try
    return some (← statement r inner)
  catch
    | .exhausted => exhausted
    | .fault d => do
      modify (Cursor.resume before · d)
      return some []

def statements (r : Rules) (inner : BlockRules) (stop : TokenKind) : Rule (List Stmt) := do
  return (← many (blockRound r inner stop) (inner.rounds + 1)).flatten

/-! ### The knot -/

def blockRulesAround (r : Rules) (inner : BlockRules) : BlockRules where
  rounds := inner.rounds + 1
  statements := statements r inner
  ifStatement := ifStatement r inner

/-- The rules for blocks of fewer than the given number of tokens. -/
def blockRules (r : Rules) : Nat → BlockRules
  | 0 => ⟨0, fun _ => exhausted, exhausted⟩
  | n + 1 => blockRulesAround r (blockRules r n)

end TypeInfer.Grammar
