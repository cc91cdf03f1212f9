/-
The grammar of expressions. Each rung of the ladder is a rule over the one below it. What stands
inside an expression is read by the rules given as `inner`, after a token was taken, so `rules n`
reads every expression of fewer than `n` tokens.
-/
import TypeInfer.Grammar.Cursor

namespace TypeInfer.Grammar

/-- The rules that other rules turn to for what stands inside, and the bound on
their repetitions. -/
structure Rules where
  rounds : Nat
  expression : Rule Expr
  orTest : Rule Expr
  notTest : Rule Expr
  bitOr : Rule Expr
  factor : Rule Expr

def startsExpression : TokenKind → Bool
  | .ident _ | .int _ | .float _ | .imaginary _ | .str _ _ => true
  | .keyword k =>
    [.trueKw, .falseKw, .noneKw, .notKw, .lambdaKw, .awaitKw, .yieldKw].contains k
  | .symbol s =>
    [.ellipsis, .leftParen, .leftBracket, .leftBrace, .minus, .plus, .tilde, .star].contains s
  | _ => false

def atExpression : Rule Bool := return startsExpression (← peek)

/-- Items with commas between and possibly after them, up to `atEnd`. -/
def separated (atEnd : Rule Bool) (item : Rule α) : Nat → Rule (List α)
  | 0 => exhausted
  | rounds + 1 => do
    if ← atEnd then return []
    let a ← item
    if ← eat Symbol.comma then return a :: (← separated atEnd item rounds)
    return [a]

/-! ### Expressions in lists -/

/-- An expression, or a name with a value bound to it. -/
def named (r : Rules) : Rule Expr := do
  if (← atIdentifier) && (← peekNext) == Symbol.colonEq then
    let start ← here
    let target ← identifier
    discard advance
    let value ← r.expression
    return .named (← finish start) target value
  r.expression

def starred (r : Rules) (rule : Rule Expr) : Rule Expr := do
  let start ← here
  if ← eat Symbol.star then
    let value ← r.bitOr
    return .starred (← finish start) value
  rule

def starredOrNamed (r : Rules) : Rule Expr := starred r (named r)

/-- Expressions with commas between them; a comma makes them a tuple. -/
def expressionList (r : Rules) : Rule Expr := do
  let start ← here
  let first ← starredOrNamed r
  unless ← check Symbol.comma do return first
  let more ← commaList (r.rounds + 1) (return !(← atExpression)) (starredOrNamed r)
  return .tuple (← finish start) (first :: more)

def yieldExpression (r : Rules) : Rule Expr := do
  let start ← here
  discard <| expect Keyword.yieldKw "'yield'"
  if ← eat Keyword.fromKw then
    let value ← r.expression
    return .yieldFrom (← finish start) value
  let value ← optional atExpression (expressionList r)
  return .yield (← finish start) value

def yieldOrList (r : Rules) : Rule Expr := do
  if ← check Keyword.yieldKw then yieldExpression r else expressionList r

/-! ### Targets -/

def checkTarget (target : Expr) : Rule Unit := do
  unless target.isAssignable do
    fail Diagnostic.Code.invalidTarget "Cannot assign to expression" target.span

def starTarget (r : Rules) : Rule Expr := starred r r.bitOr

def targetList (r : Rules) : Rule Expr := do
  let start ← here
  let first ← starTarget r
  unless ← check Symbol.comma do
    checkTarget first
    return first
  let atEnd : Rule Bool := return (← check Keyword.inKw) || (← check Symbol.eq)
  let more ← commaList (r.rounds + 1) atEnd (starTarget r)
  let target := Expr.tuple (← finish start) (first :: more)
  checkTarget target
  return target

/-! ### Comprehensions -/

def atComprehension : Rule Bool := do
  if ← check Keyword.forKw then return true
  return (← check Keyword.asyncKw) && (← peekNext) == Keyword.forKw

def clause (r : Rules) : Rule Comprehension := do
  let isAsync ← eat Keyword.asyncKw
  discard <| expect Keyword.forKw "'for'"
  let target ← targetList r
  discard <| expect Keyword.inKw "'in'"
  let iter ← r.orTest
  let conditions ← many (optional (eat Keyword.ifKw) r.orTest) (r.rounds + 1)
  return ⟨target, iter, conditions, isAsync⟩

def clauses (r : Rules) : Rule (List Comprehension) :=
  many (optional atComprehension (clause r)) (r.rounds + 1)

/-! ### Parameters -/

def annotation (r : Rules) (allowed : Bool) : Rule (Option Expr) :=
  optional (if allowed then eat Symbol.colon else return false) r.expression

/-- An item of a parameter list: a mark, or a parameter. -/
inductive ParamItem where
  | slash
  | star
  | param (p : Param)

def paramItem (r : Rules) (annotations : Bool) : Rule ParamItem := do
  if ← eat Symbol.slash then return .slash
  if ← eat Symbol.doubleStar then
    let name ← identifier
    return .param ⟨name, .kwArgs, none, ← annotation r annotations⟩
  if ← eat Symbol.star then
    unless ← atIdentifier do return .star
    let name ← identifier
    return .param ⟨name, .varArgs, none, ← annotation r annotations⟩
  let name ← identifier
  let note ← annotation r annotations
  let default ← optional (eat Symbol.eq) r.expression
  return .param ⟨name, .positional, default, note⟩

/-- The parameters of a list; plain ones after a star take keywords only. -/
def paramsOf (keywordOnly : Bool) : List ParamItem → List Param
  | [] => []
  | .slash :: items => paramsOf keywordOnly items
  | .star :: items => paramsOf true items
  | .param p :: items =>
    match p.kind with
    | .positional =>
      { p with kind := if keywordOnly then .keywordOnly else .positional } ::
        paramsOf keywordOnly items
    | .varArgs => p :: paramsOf true items
    | _ => p :: paramsOf keywordOnly items

/-- The parameters up to the token that ends them. -/
def params (r : Rules) (close : TokenKind) (annotations : Bool) : Rule (List Param) := do
  return paramsOf false (← separated (check close) (paramItem r annotations) (r.rounds + 1))

/-! ### Calls and subscripts -/

def argument (r : Rules) : Rule Arg := do
  if ← eat Symbol.star then return .star (← r.expression)
  if ← eat Symbol.doubleStar then return .doubleStar (← r.expression)
  if (← atIdentifier) && (← peekNext) == Symbol.eq then
    let name ← identifier
    discard advance
    return .keyword name (← r.expression)
  let start ← here
  let value ← named r
  if ← atComprehension then
    let clauses ← clauses r
    return .positional (.generator (← finish start) value clauses)
  return .positional value

/-- The arguments after an opening parenthesis, with the closing one. -/
def arguments (r : Rules) : Rule (List Arg) := do
  let args ← separated (check Symbol.rightParen) (argument r) (r.rounds + 1)
  discard <| expect Symbol.rightParen "')'"
  return args

def atSliceEnd : Rule Bool := do
  let kind ← peek
  return kind == Symbol.colon || kind == Symbol.comma || kind == Symbol.rightBracket

/-- What follows the lower bound of a slice. -/
def sliceRest (r : Rules) (start : Span) (lower : Option Expr) : Rule Expr := do
  discard <| expect Symbol.colon "':'"
  let bound : Rule (Option Expr) := optional (return !(← atSliceEnd)) r.expression
  let upper ← bound
  let step ← if ← eat Symbol.colon then bound else pure none
  return .slice (← finish start) lower upper step

def sliceItem (r : Rules) : Rule Expr := do
  let start ← here
  if ← check Symbol.colon then sliceRest r start none
  else
    let e ← starredOrNamed r
    if ← check Symbol.colon then sliceRest r start (some e) else return e

def subscript (r : Rules) : Rule Expr := do
  let start ← here
  let first ← sliceItem r
  unless ← check Symbol.comma do return first
  let more ← commaList (r.rounds + 1) (check Symbol.rightBracket) (sliceItem r)
  return .tuple (← finish start) (first :: more)

/-! ### Brackets -/

/-- The expressions after the first one, up to the closing bracket. -/
def elements (r : Rules) (first : Expr) (close : Symbol) (what : String) : Rule (List Expr) := do
  let more ← commaList (r.rounds + 1) (check close) (starredOrNamed r)
  discard <| expect close what
  return first :: more

def parenthesized (r : Rules) : Rule Expr := do
  let start ← here
  discard advance
  let close := expect Symbol.rightParen "')'"
  if ← eat Symbol.rightParen then return .tuple (← finish start) []
  if ← check Keyword.yieldKw then
    let value ← yieldExpression r
    discard close
    return value
  let first ← starredOrNamed r
  if ← atComprehension then
    let clauses ← clauses r
    discard close
    return .generator (← finish start) first clauses
  unless ← check Symbol.comma do
    discard close
    return first
  let elts ← elements r first .rightParen "')'"
  return .tuple (← finish start) elts

def listDisplay (r : Rules) : Rule Expr := do
  let start ← here
  discard advance
  if ← eat Symbol.rightBracket then return .list (← finish start) []
  let first ← starredOrNamed r
  if ← atComprehension then
    let clauses ← clauses r
    discard <| expect Symbol.rightBracket "']'"
    return .listComp (← finish start) first clauses
  let elts ← elements r first .rightBracket "']'"
  return .list (← finish start) elts

def expectBrace : Rule Token := expect Symbol.rightBrace "'\x7d'"

def dictItem (r : Rules) : Rule DictItem := do
  if ← eat Symbol.doubleStar then return ⟨none, ← r.bitOr⟩
  let key ← r.expression
  discard <| expect Symbol.colon "':'"
  return ⟨some key, ← r.expression⟩

def dictRest (r : Rules) (start : Span) (first : DictItem) : Rule Expr := do
  let more ← commaList (r.rounds + 1) (check Symbol.rightBrace) (dictItem r)
  discard expectBrace
  return .dict (← finish start) (first :: more)

def braceDisplay (r : Rules) : Rule Expr := do
  let start ← here
  discard advance
  if ← eat Symbol.rightBrace then return .dict (← finish start) []
  if ← eat Symbol.doubleStar then
    let value ← r.bitOr
    return ← dictRest r start ⟨none, value⟩
  let first ← starredOrNamed r
  if ← eat Symbol.colon then
    let value ← r.expression
    if ← atComprehension then
      let clauses ← clauses r
      discard expectBrace
      return .dictComp (← finish start) first value clauses
    return ← dictRest r start ⟨some first, value⟩
  if ← atComprehension then
    let clauses ← clauses r
    discard expectBrace
    return .setComp (← finish start) first clauses
  let elts ← elements r first .rightBrace "'\x7d'"
  return .set (← finish start) elts

/-! ### The ladder -/

/-- The value of a string literal, if the next token is one. -/
def stringPiece : Rule (Option String) := do
  match ← peek with
  | .str value _ => do
    discard advance
    return some value
  | _ => return none

def atom (inner : Rules) : Rule Expr := do
  let start ← here
  match ← peek with
  | .ident id => discard advance; return .name start id
  | .int value => discard advance; return .int start value
  | .float value => discard advance; return .float start value
  | .imaginary value => discard advance; return .imaginary start value
  | .str value isBytes => do
    discard advance
    -- adjacent literals are one; the first one says whether it is text or bytes
    let pieces ← many stringPiece (inner.rounds + 1)
    let value := String.join (value :: pieces)
    let span ← finish start
    return if isBytes then .bytes span value else .str span value
  | .keyword .trueKw => discard advance; return .bool start true
  | .keyword .falseKw => discard advance; return .bool start false
  | .keyword .noneKw => discard advance; return .none start
  | .symbol .ellipsis => discard advance; return .ellipsis start
  | .symbol .leftParen => parenthesized inner
  | .symbol .leftBracket => listDisplay inner
  | .symbol .leftBrace => braceDisplay inner
  | _ => unexpected "expression"

/-- One attribute, call or subscript of the expression read so far. -/
def trailer (inner : Rules) (start : Span) (e : Expr) : Rule (Option Expr) := do
  if ← eat Symbol.dot then
    let attr ← identifier
    return some (.attribute (← finish start) e attr)
  if ← eat Symbol.leftParen then
    let args ← arguments inner
    return some (.call (← finish start) e args)
  if ← eat Symbol.leftBracket then
    let index ← subscript inner
    discard <| expect Symbol.rightBracket "']'"
    return some (.subscript (← finish start) e index)
  return none

def primary (inner : Rules) : Rule Expr := do
  let start ← here
  let e ← atom inner
  iterate (trailer inner start) (inner.rounds + 1) e

def awaited (inner : Rules) : Rule Expr := do
  let start ← here
  unless ← eat Keyword.awaitKw do return ← primary inner
  let value ← primary inner
  return .await (← finish start) value

def power (inner : Rules) : Rule Expr := do
  let start ← here
  let base ← awaited inner
  unless ← eat Symbol.doubleStar do return base
  let exponent ← inner.factor
  return .binary (← finish start) base .pow exponent

def signOf : TokenKind → Option UnaryOperator
  | .symbol .minus => some .neg
  | .symbol .plus => some .pos
  | .symbol .tilde => some .invert
  | _ => none

def factor (inner : Rules) : Rule Expr := do
  let start ← here
  match signOf (← peek) with
  | none => power inner
  | some op => do
    discard advance
    let operand ← inner.factor
    return .unary (← finish start) op operand

/-- One rung of the ladder of binary operators, which associate to the left. -/
def leftAssoc (rounds : Nat) (operator : TokenKind → Option Operator) (operand : Rule Expr) :
    Rule Expr := do
  let start ← here
  let first ← operand
  let step (left : Expr) : Rule (Option Expr) := do
    match operator (← peek) with
    | none => return none
    | some op => do
      discard advance
      let right ← operand
      return some (.binary (← finish start) left op right)
  iterate step (rounds + 1) first

def termOperator : TokenKind → Option Operator
  | .symbol .star => some .mult
  | .symbol .slash => some .div
  | .symbol .doubleSlash => some .floorDiv
  | .symbol .percent => some .mod
  | .symbol .at => some .matMult
  | _ => none

def arithOperator : TokenKind → Option Operator
  | .symbol .plus => some .add
  | .symbol .minus => some .sub
  | _ => none

def shiftOperator : TokenKind → Option Operator
  | .symbol .shiftLeft => some .shiftLeft
  | .symbol .shiftRight => some .shiftRight
  | _ => none

def bitAndOperator : TokenKind → Option Operator
  | .symbol .amp => some .bitAnd
  | _ => none

def bitXorOperator : TokenKind → Option Operator
  | .symbol .caret => some .bitXor
  | _ => none

def bitOrOperator : TokenKind → Option Operator
  | .symbol .pipe => some .bitOr
  | _ => none

def term (inner : Rules) : Rule Expr := leftAssoc inner.rounds termOperator (factor inner)

def arith (inner : Rules) : Rule Expr := leftAssoc inner.rounds arithOperator (term inner)

def shift (inner : Rules) : Rule Expr := leftAssoc inner.rounds shiftOperator (arith inner)

def bitAnd (inner : Rules) : Rule Expr := leftAssoc inner.rounds bitAndOperator (shift inner)

def bitXor (inner : Rules) : Rule Expr := leftAssoc inner.rounds bitXorOperator (bitAnd inner)

def bitOr (inner : Rules) : Rule Expr := leftAssoc inner.rounds bitOrOperator (bitXor inner)

/-- The comparison that the next two tokens spell, and whether it takes both. -/
def comparisonOf : TokenKind → TokenKind → Option (CmpOperator × Bool)
  | .symbol .lt, _ => some (.lt, false)
  | .symbol .gt, _ => some (.gt, false)
  | .symbol .ltEq, _ => some (.ltEq, false)
  | .symbol .gtEq, _ => some (.gtEq, false)
  | .symbol .eqEq, _ => some (.eq, false)
  | .symbol .notEq, _ => some (.notEq, false)
  | .keyword .inKw, _ => some (.isIn, false)
  | .keyword .notKw, .keyword .inKw => some (.notIn, true)
  | .keyword .isKw, .keyword .notKw => some (.isNot, true)
  | .keyword .isKw, _ => some (.is, false)
  | _, _ => none

def comparison (inner : Rules) : Rule Expr := do
  let start ← here
  let left ← bitOr inner
  let step : Rule (Option (CmpOperator × Expr)) := do
    match comparisonOf (← peek) (← peekNext) with
    | none => return none
    | some (op, two) => do
      discard advance
      if two then discard advance
      return some (op, ← bitOr inner)
  let more ← many step (inner.rounds + 1)
  if more.isEmpty then return left
  return .compare (← finish start) left (more.map Prod.fst) (more.map Prod.snd)

def notTest (inner : Rules) : Rule Expr := do
  let start ← here
  if ← eat Keyword.notKw then
    let operand ← inner.notTest
    return .unary (← finish start) .not operand
  comparison inner

/-- A chain of `and` or `or`. -/
def booleanChain (rounds : Nat) (word : Keyword) (op : BoolOperator) (operand : Rule Expr) :
    Rule Expr := do
  let start ← here
  let first ← operand
  unless ← check word do return first
  let more ← many (optional (eat word) operand) (rounds + 1)
  return .boolean (← finish start) op (first :: more)

def andTest (inner : Rules) : Rule Expr := booleanChain inner.rounds .andKw .and (notTest inner)

def orTest (inner : Rules) : Rule Expr := booleanChain inner.rounds .orKw .or (andTest inner)

def lambda (inner : Rules) : Rule Expr := do
  let start ← here
  let word ← advance
  let params ← params inner Symbol.colon false
  discard <| expect Symbol.colon "':'"
  let body ← inner.expression
  let span ← finish start
  return .lambda span {
    span
    name := ⟨FunctionDef.lambdaName, word.span⟩
    params
    body := [.return body.span (some body)]
    decorators := []
    returns := none
    isAsync := false }

def expression (inner : Rules) : Rule Expr := do
  if ← check Keyword.lambdaKw then return ← lambda inner
  let start ← here
  let body ← orTest inner
  unless ← eat Keyword.ifKw do return body
  let test ← inner.orTest
  discard <| expect Keyword.elseKw "'else'"
  let orElse ← inner.expression
  return .conditional (← finish start) test body orElse

/-! ### The knot -/

/-- The rules that may turn to `inner` for what stands inside. -/
def rulesAround (inner : Rules) : Rules where
  rounds := inner.rounds + 1
  expression := expression inner
  orTest := orTest inner
  notTest := notTest inner
  bitOr := bitOr inner
  factor := factor inner

/-- The rules for expressions of fewer than the given number of tokens. -/
def rules : Nat → Rules
  | 0 => ⟨0, exhausted, exhausted, exhausted, exhausted, exhausted⟩
  | n + 1 => rulesAround (rules n)

end TypeInfer.Grammar
