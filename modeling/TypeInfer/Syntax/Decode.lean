/-
Reading a syntax tree back from its stored form. The first argument of every
reader is the budget for nested arrays and objects (see `Json.Reader`); it is
also what the recursion goes down on.
-/
import TypeInfer.Syntax.Encode

namespace TypeInfer

def ParamKind.ofLabel? : String → Option ParamKind
  | "Positional" => some .positional
  | "VarArgs" => some .varArgs
  | "KeywordOnly" => some .keywordOnly
  | "KwArgs" => some .kwArgs
  | _ => none

def Json.labelled? (ofLabel? : String → Option α) (budget : Nat) (j : Json) : Option α := do
  ofLabel? (← j.label? budget)

def Ident.ofJson? : Nat → Json → Option Ident
  | 0, _ => none
  | n + 1, j => do
    let f ← j.fields? ["name", "span"] 0
    return { name := ← f.get "name" Json.str?, span := ← f.get "span" (Span.ofJson? n) }

def Alias.ofJson? : Nat → Json → Option Alias
  | 0, _ => none
  | n + 1, j => do
    let f ← j.fields? ["span", "name", "asname"] 0
    return {
      span := ← f.get "span" (Span.ofJson? n)
      name := ← f.get "name" (Json.list? Ident.ofJson? n)
      asName := ← f.get? "asname" (Ident.ofJson? n) }

def ImportNames.ofJson? : Nat → Json → Option ImportNames
  | 0, _ => none
  | n + 1, j => do
    match ← j.choice? with
    | ("Star", content) => return .star (← Span.ofJson? n content)
    | ("Names", content) => return .names (← content.list? Alias.ofJson? n)
    | _ => none

mutual

def Expr.ofJson? : Nat → Json → Option Expr
  | 0, _ => none
  | n + 1, j => do
    let (tag, content) ← j.choice?
    Expr.ofContent? n tag content

/-- The expression with the given name, from the fields that it holds. -/
def Expr.ofContent? : Nat → String → Json → Option Expr
  | 0, _, _ => none
  | n + 1, tag, j =>
    let span (f : Json.Fields) := f.get "span" (Span.ofJson? n)
    let expr (f : Json.Fields) (name : String) := f.get name (Expr.ofJson? n)
    let expr? (f : Json.Fields) (name : String) := f.get? name (Expr.ofJson? n)
    let exprs (f : Json.Fields) (name : String) := f.get name (Expr.listOfJson? n)
    let text (f : Json.Fields) (name : String) := f.get name Json.str?
    let clauses (f : Json.Fields) := f.get "generators" (Comprehension.listOfJson? n)
    match tag with
    | "Name" => do
      let f ← j.fields? ["span", "id"] 0
      return .name (← span f) (← text f "id")
    | "Int" => do
      let f ← j.fields? ["span", "value"] 0
      return .int (← span f) (← text f "value")
    | "Float" => do
      let f ← j.fields? ["span", "value"] 0
      return .float (← span f) (← text f "value")
    | "Imaginary" => do
      let f ← j.fields? ["span", "value"] 0
      return .imaginary (← span f) (← text f "value")
    | "Str" => do
      let f ← j.fields? ["span", "value"] 0
      return .str (← span f) (← text f "value")
    | "Bytes" => do
      let f ← j.fields? ["span", "value"] 0
      return .bytes (← span f) (← text f "value")
    | "Bool" => do
      let f ← j.fields? ["span", "value"] 0
      return .bool (← span f) (← f.get "value" Json.bool?)
    | "NoneLit" => do
      let f ← j.fields? ["span"] 0
      return .none (← span f)
    | "Ellipsis" => do
      let f ← j.fields? ["span"] 0
      return .ellipsis (← span f)
    | "Attribute" => do
      let f ← j.fields? ["span", "value", "attr"] 0
      return .attribute (← span f) (← expr f "value") (← f.get "attr" (Ident.ofJson? n))
    | "Subscript" => do
      let f ← j.fields? ["span", "value", "index"] 0
      return .subscript (← span f) (← expr f "value") (← expr f "index")
    | "Slice" => do
      let f ← j.fields? ["span", "lower", "upper", "step"] 0
      return .slice (← span f) (← expr? f "lower") (← expr? f "upper") (← expr? f "step")
    | "Call" => do
      let f ← j.fields? ["span", "func", "args"] 0
      return .call (← span f) (← expr f "func") (← f.get "args" (Arg.listOfJson? n))
    | "BinOp" => do
      let f ← j.fields? ["span", "left", "op", "right"] 0
      return .binary (← span f) (← expr f "left")
        (← f.get "op" (Json.labelled? Operator.ofLabel? n)) (← expr f "right")
    | "UnaryOp" => do
      let f ← j.fields? ["span", "op", "operand"] 0
      return .unary (← span f) (← f.get "op" (Json.labelled? UnaryOperator.ofLabel? n))
        (← expr f "operand")
    | "BoolOp" => do
      let f ← j.fields? ["span", "op", "values"] 0
      return .boolean (← span f) (← f.get "op" (Json.labelled? BoolOperator.ofLabel? n))
        (← exprs f "values")
    | "Compare" => do
      let f ← j.fields? ["span", "left", "ops", "comparators"] 0
      return .compare (← span f) (← expr f "left")
        (← f.get "ops" (Json.list? (Json.labelled? CmpOperator.ofLabel?) n)) (← exprs f "comparators")
    | "IfExp" => do
      let f ← j.fields? ["span", "test", "body", "orelse"] 0
      return .conditional (← span f) (← expr f "test") (← expr f "body") (← expr f "orelse")
    | "Lambda" => do
      let f ← j.fields? ["span", "def"] 0
      return .lambda (← span f) (← f.get "def" (FunctionDef.ofJson? n))
    | "List" => do
      let f ← j.fields? ["span", "elts"] 0
      return .list (← span f) (← exprs f "elts")
    | "Tuple" => do
      let f ← j.fields? ["span", "elts"] 0
      return .tuple (← span f) (← exprs f "elts")
    | "Set" => do
      let f ← j.fields? ["span", "elts"] 0
      return .set (← span f) (← exprs f "elts")
    | "Dict" => do
      let f ← j.fields? ["span", "items"] 0
      return .dict (← span f) (← f.get "items" (DictItem.listOfJson? n))
    | "ListComp" => do
      let f ← j.fields? ["span", "elt", "generators"] 0
      return .listComp (← span f) (← expr f "elt") (← clauses f)
    | "SetComp" => do
      let f ← j.fields? ["span", "elt", "generators"] 0
      return .setComp (← span f) (← expr f "elt") (← clauses f)
    | "GeneratorExp" => do
      let f ← j.fields? ["span", "elt", "generators"] 0
      return .generator (← span f) (← expr f "elt") (← clauses f)
    | "DictComp" => do
      let f ← j.fields? ["span", "key", "value", "generators"] 0
      return .dictComp (← span f) (← expr f "key") (← expr f "value") (← clauses f)
    | "Yield" => do
      let f ← j.fields? ["span", "value"] 0
      return .yield (← span f) (← expr? f "value")
    | "YieldFrom" => do
      let f ← j.fields? ["span", "value"] 0
      return .yieldFrom (← span f) (← expr f "value")
    | "Await" => do
      let f ← j.fields? ["span", "value"] 0
      return .await (← span f) (← expr f "value")
    | "Starred" => do
      let f ← j.fields? ["span", "value"] 0
      return .starred (← span f) (← expr f "value")
    | "NamedExpr" => do
      let f ← j.fields? ["span", "target", "value"] 0
      return .named (← span f) (← f.get "target" (Ident.ofJson? n)) (← expr f "value")
    | _ => none

def Expr.listOfJson? : Nat → Json → Option (List Expr)
  | n + 1, .arr items => items.mapM (Expr.ofJson? n)
  | _, _ => none

def Arg.ofJson? : Nat → Json → Option Arg
  | 0, _ => none
  | n + 1, j => do
    match ← j.choice? with
    | ("Positional", content) => return .positional (← Expr.ofJson? n content)
    | ("Keyword", content) => Arg.keywordOfJson? n content
    | ("Star", content) => return .star (← Expr.ofJson? n content)
    | ("DoubleStar", content) => return .doubleStar (← Expr.ofJson? n content)
    | _ => none

def Arg.keywordOfJson? : Nat → Json → Option Arg
  | 0, _ => none
  | n + 1, j => do
    let f ← j.fields? ["name", "value"] 0
    return .keyword (← f.get "name" (Ident.ofJson? n)) (← f.get "value" (Expr.ofJson? n))

def Arg.listOfJson? : Nat → Json → Option (List Arg)
  | n + 1, .arr items => items.mapM (Arg.ofJson? n)
  | _, _ => none

def DictItem.ofJson? : Nat → Json → Option DictItem
  | 0, _ => none
  | n + 1, j => do
    let f ← j.fields? ["key", "value"] 0
    return ⟨← f.get? "key" (Expr.ofJson? n), ← f.get "value" (Expr.ofJson? n)⟩

def DictItem.listOfJson? : Nat → Json → Option (List DictItem)
  | n + 1, .arr items => items.mapM (DictItem.ofJson? n)
  | _, _ => none

def Comprehension.ofJson? : Nat → Json → Option Comprehension
  | 0, _ => none
  | n + 1, j => do
    let f ← j.fields? ["target", "iter", "ifs", "is_async"] 0
    return ⟨← f.get "target" (Expr.ofJson? n), ← f.get "iter" (Expr.ofJson? n),
      ← f.get "ifs" (Expr.listOfJson? n), ← f.get "is_async" Json.bool?⟩

def Comprehension.listOfJson? : Nat → Json → Option (List Comprehension)
  | n + 1, .arr items => items.mapM (Comprehension.ofJson? n)
  | _, _ => none

def Param.ofJson? : Nat → Json → Option Param
  | 0, _ => none
  | n + 1, j => do
    let f ← j.fields? ["name", "kind", "default", "annotation"] 0
    return ⟨← f.get "name" (Ident.ofJson? n), ← f.get "kind" (Json.labelled? ParamKind.ofLabel? n),
      ← f.get? "default" (Expr.ofJson? n), ← f.get? "annotation" (Expr.ofJson? n)⟩

def Param.listOfJson? : Nat → Json → Option (List Param)
  | n + 1, .arr items => items.mapM (Param.ofJson? n)
  | _, _ => none

def FunctionDef.ofJson? : Nat → Json → Option FunctionDef
  | 0, _ => none
  | n + 1, j => do
    let f ← j.fields? ["span", "name", "params", "body", "decorators", "returns", "is_async"] 0
    return ⟨← f.get "span" (Span.ofJson? n), ← f.get "name" (Ident.ofJson? n),
      ← f.get "params" (Param.listOfJson? n), ← f.get "body" (Stmt.listOfJson? n),
      ← f.get "decorators" (Expr.listOfJson? n), ← f.get? "returns" (Expr.ofJson? n),
      ← f.get "is_async" Json.bool?⟩

def ClassKeyword.ofJson? : Nat → Json → Option ClassKeyword
  | 0, _ => none
  | n + 1, j => do
    let f ← j.fields? ["name", "value"] 0
    return ⟨← f.get "name" (Ident.ofJson? n), ← f.get "value" (Expr.ofJson? n)⟩

def ClassKeyword.listOfJson? : Nat → Json → Option (List ClassKeyword)
  | n + 1, .arr items => items.mapM (ClassKeyword.ofJson? n)
  | _, _ => none

def ClassDef.ofJson? : Nat → Json → Option ClassDef
  | 0, _ => none
  | n + 1, j => do
    let f ← j.fields? ["span", "name", "bases", "keywords", "body", "decorators"] 0
    return ⟨← f.get "span" (Span.ofJson? n), ← f.get "name" (Ident.ofJson? n),
      ← f.get "bases" (Expr.listOfJson? n), ← f.get "keywords" (ClassKeyword.listOfJson? n),
      ← f.get "body" (Stmt.listOfJson? n), ← f.get "decorators" (Expr.listOfJson? n)⟩

def ExceptHandler.ofJson? : Nat → Json → Option ExceptHandler
  | 0, _ => none
  | n + 1, j => do
    let f ← j.fields? ["span", "ty", "name", "body"] 0
    return ⟨← f.get "span" (Span.ofJson? n), ← f.get? "ty" (Expr.ofJson? n),
      ← f.get? "name" (Ident.ofJson? n), ← f.get "body" (Stmt.listOfJson? n)⟩

def ExceptHandler.listOfJson? : Nat → Json → Option (List ExceptHandler)
  | n + 1, .arr items => items.mapM (ExceptHandler.ofJson? n)
  | _, _ => none

def WithItem.ofJson? : Nat → Json → Option WithItem
  | 0, _ => none
  | n + 1, j => do
    let f ← j.fields? ["context", "target"] 0
    return ⟨← f.get "context" (Expr.ofJson? n), ← f.get? "target" (Expr.ofJson? n)⟩

def WithItem.listOfJson? : Nat → Json → Option (List WithItem)
  | n + 1, .arr items => items.mapM (WithItem.ofJson? n)
  | _, _ => none

def Stmt.ofJson? : Nat → Json → Option Stmt
  | 0, _ => none
  | n + 1, j => do
    match ← j.choice? with
    | ("FunctionDef", content) => return .function (← FunctionDef.ofJson? n content)
    | ("ClassDef", content) => return .classDef (← ClassDef.ofJson? n content)
    | (tag, content) => Stmt.ofContent? n tag content

/-- The statement with the given name, from the fields that it holds. -/
def Stmt.ofContent? : Nat → String → Json → Option Stmt
  | 0, _, _ => none
  | n + 1, tag, j =>
    let span (f : Json.Fields) := f.get "span" (Span.ofJson? n)
    let expr (f : Json.Fields) (name : String) := f.get name (Expr.ofJson? n)
    let expr? (f : Json.Fields) (name : String) := f.get? name (Expr.ofJson? n)
    let exprs (f : Json.Fields) (name : String) := f.get name (Expr.listOfJson? n)
    let stmts (f : Json.Fields) (name : String) := f.get name (Stmt.listOfJson? n)
    let idents (f : Json.Fields) (name : String) := f.get name (Json.list? Ident.ofJson? n)
    match tag with
    | "Expr" => do
      let f ← j.fields? ["span", "value"] 0
      return .expr (← span f) (← expr f "value")
    | "Assign" => do
      let f ← j.fields? ["span", "targets", "value"] 0
      return .assign (← span f) (← exprs f "targets") (← expr f "value")
    | "AugAssign" => do
      let f ← j.fields? ["span", "target", "op", "value"] 0
      return .augAssign (← span f) (← expr f "target")
        (← f.get "op" (Json.labelled? Operator.ofLabel? n)) (← expr f "value")
    | "AnnAssign" => do
      let f ← j.fields? ["span", "target", "annotation", "value"] 0
      return .annAssign (← span f) (← expr f "target") (← expr f "annotation") (← expr? f "value")
    | "Return" => do
      let f ← j.fields? ["span", "value"] 0
      return .return (← span f) (← expr? f "value")
    | "Pass" => do
      let f ← j.fields? ["span"] 0
      return .pass (← span f)
    | "Break" => do
      let f ← j.fields? ["span"] 0
      return .break (← span f)
    | "Continue" => do
      let f ← j.fields? ["span"] 0
      return .continue (← span f)
    | "If" => do
      let f ← j.fields? ["span", "test", "body", "orelse"] 0
      return .cond (← span f) (← expr f "test") (← stmts f "body") (← stmts f "orelse")
    | "While" => do
      let f ← j.fields? ["span", "test", "body", "orelse"] 0
      return .while (← span f) (← expr f "test") (← stmts f "body") (← stmts f "orelse")
    | "For" => do
      let f ← j.fields? ["span", "target", "iter", "body", "orelse", "is_async"] 0
      return .for (← span f) (← expr f "target") (← expr f "iter") (← stmts f "body")
        (← stmts f "orelse") (← f.get "is_async" Json.bool?)
    | "Import" => do
      let f ← j.fields? ["span", "names"] 0
      return .importModules (← span f) (← f.get "names" (Json.list? Alias.ofJson? n))
    | "ImportFrom" => do
      let f ← j.fields? ["span", "module", "level", "names"] 0
      return .importFrom (← span f) (← idents f "module") (← f.get "level" Json.nat?)
        (← f.get "names" (ImportNames.ofJson? n))
    | "Global" => do
      let f ← j.fields? ["span", "names"] 0
      return .global (← span f) (← idents f "names")
    | "Nonlocal" => do
      let f ← j.fields? ["span", "names"] 0
      return .nonlocal (← span f) (← idents f "names")
    | "Try" => do
      let f ← j.fields? ["span", "body", "handlers", "orelse", "finalbody"] 0
      return .try (← span f) (← stmts f "body") (← f.get "handlers" (ExceptHandler.listOfJson? n))
        (← stmts f "orelse") (← stmts f "finalbody")
    | "With" => do
      let f ← j.fields? ["span", "items", "body", "is_async"] 0
      return .with (← span f) (← f.get "items" (WithItem.listOfJson? n)) (← stmts f "body")
        (← f.get "is_async" Json.bool?)
    | "Raise" => do
      let f ← j.fields? ["span", "exc", "cause"] 0
      return .raise (← span f) (← expr? f "exc") (← expr? f "cause")
    | "Assert" => do
      let f ← j.fields? ["span", "test", "msg"] 0
      return .assert (← span f) (← expr f "test") (← expr? f "msg")
    | "Delete" => do
      let f ← j.fields? ["span", "targets"] 0
      return .delete (← span f) (← exprs f "targets")
    | _ => none

def Stmt.listOfJson? : Nat → Json → Option (List Stmt)
  | n + 1, .arr items => items.mapM (Stmt.ofJson? n)
  | _, _ => none

end

namespace Module

def ofJson? : Nat → Json → Option Module
  | 0, _ => none
  | n + 1, j => do
    let f ← j.fields? ["span", "file", "body"] 0
    return {
      span := ← f.get "span" (Span.ofJson? n)
      file := ⟨← f.get "file" Json.str?⟩
      body := ← f.get "body" (Stmt.listOfJson? n) }

def ofText? (s : String) : Option Module := do ofJson? Json.nestingLimit (← Json.parse? s)

end Module

end TypeInfer
