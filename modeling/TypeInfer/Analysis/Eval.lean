/-
The abstract interpretation of expressions and statements, by recursion on the code. Every part is
visited once and in order. What leads to other code, applying a function and loading a file, is a
parameter.
-/
import TypeInfer.Analysis.Call
import TypeInfer.Analysis.Import
import TypeInfer.Ty.Operator

namespace TypeInfer

/-- What leads from the code at hand to other code. -/
structure Calls where
  apply : Application
  load : Path → Infer Loaded

namespace Expr

def isSlice : Expr → Bool
  | .slice _ _ _ _ => true
  | _ => false

def isStarred : Expr → Bool
  | .starred _ _ => true
  | _ => false

def hasStarred (elts : List Expr) : Bool := elts.any isStarred

def decoratorName? : Expr → Option String
  | .name _ id => some id
  | .attribute _ _ attr => some attr.name
  | _ => Option.none

end Expr

def MethodKind.ofName? : String → Option MethodKind
  | "staticmethod" => some .static
  | "classmethod" => some .cls
  | "property" | "cached_property" => some .property
  | _ => none

/-- The first decorator that changes the receiver counts. -/
def MethodKind.ofDecorators (decorators : List Expr) : MethodKind :=
  (decorators.findSome? fun d => d.decoratorName?.bind MethodKind.ofName?).getD .inst

namespace Analysis

/-- Adds the function that a definition makes in a scope. A method is closed over what is around
the class. -/
def defineFunction (s : Analysis) (d : FunctionDef) (defaults : List (Option Ty)) (scope : ScopeId) :
    Analysis × FunId :=
  let around := s.scopes.scope scope
  s.addFun {
    name := d.name.name
    qname := s.scopes.extendPath scope d.name.name
    body := .source d
    closure := if around.owner.isSome then around.parent.getD scope else scope
    owner := around.owner
    method := .ofDecorators d.decorators
    selfType := none
    defaults
    called := false
    arrows := [] }

def defineClass (s : Analysis) (d : ClassDef) (bases : List Ty) (scope : ScopeId) :
    Analysis × ClassId :=
  let qname := s.scopes.extendPath scope d.name.name
  let (s, body) := s.newScope .cls scope qname
  s.addClass {
    name := d.name.name, qname, scope := body, bases, prim := none, builtin := false,
    node := some d.span }

end Analysis

namespace Infer

def instanceOf (c : Library → ClassId) : Infer Ty := return .inst (c (← get).library)

def comprehensionScope (scope : ScopeId) : Infer ScopeId := do
  newScope .comprehension scope ((← get).scopes.scope scope).path

def addReturn (ty : Ty) : Infer Unit := modify (·.addReturn ty)

def malformed (span : Span) (message : String) : Infer Unit :=
  report (Diagnostic.error Diagnostic.Code.malformedNode message span)

/-- The instances of the classes among the members of a type. -/
def caughtInstances (caught : Ty) : Ty := Ty.ofAtoms (caught.classes.map Atom.inst)

variable (c : Calls)

mutual

/-- The type of an expression in a scope. -/
def eval : Expr → ScopeId → Infer Ty
  | .name site id, scope => lookupName id site scope
  | .int _ _, _ => return .prim .int
  | .float _ _, _ => return .prim .float
  | .imaginary _ _, _ => return .prim .complex
  | .str _ _, _ => return .prim .str
  | .bytes _ _, _ => return .prim .bytes
  | .bool _ _, _ => return .prim .bool
  | .none _, _ => return .prim .noneType
  | .ellipsis _, _ => return .unknown
  | .attribute _ value attr, scope => do
    let receiver ← eval value scope
    getAttribute c.apply receiver attr
  | .subscript _ value index, scope => do
    let container ← eval value scope
    let key ← eval index scope
    subscript c.apply container key index.isSlice
  | .slice _ lower upper step, scope => do
    discard (evalOption lower scope)
    discard (evalOption upper scope)
    discard (evalOption step scope)
    return .unknown
  | .call _ func args, scope => do
    match func with
    | .attribute _ value attr =>
      let receiver ← eval value scope
      let args ← evalArgs args scope
      callAttribute c.apply receiver attr args
    | func =>
      let callee ← eval func scope
      let args ← evalArgs args scope
      callType c.apply callee args
  | .binary _ left op right, scope => do
    let a ← eval left scope
    let b ← eval right scope
    return Ty.binary op a b
  | .unary _ op operand, scope => do return Ty.unary op (← eval operand scope)
  | .boolean _ _ values, scope => do return Ty.union (← evalList values scope)
  | .compare _ left _ comparators, scope => do
    discard (eval left scope)
    discard (evalList comparators scope)
    return .prim .bool
  | .conditional _ test body orElse, scope => do
    discard (eval test scope)
    let a ← eval body scope
    let b ← eval orElse scope
    return a.merge b
  | .lambda _ d, scope => do return .function (← define d scope)
  | .list _ elts, scope => do
    discard (evalList elts scope)
    instanceOf Library.list
  | .tuple _ elts, scope => do
    discard (evalList elts scope)
    instanceOf Library.tuple
  | .set _ elts, scope => do
    discard (evalList elts scope)
    instanceOf Library.set
  | .dict _ items, scope => do
    evalItems items scope
    instanceOf Library.dict
  | .listComp _ elt clauses, scope => do
    let inner ← comprehensionScope scope
    evalClauses clauses inner
    discard (eval elt inner)
    instanceOf Library.list
  | .setComp _ elt clauses, scope => do
    let inner ← comprehensionScope scope
    evalClauses clauses inner
    discard (eval elt inner)
    instanceOf Library.set
  | .generator _ elt clauses, scope => do
    let inner ← comprehensionScope scope
    evalClauses clauses inner
    discard (eval elt inner)
    instanceOf Library.generator
  | .dictComp _ key value clauses, scope => do
    let inner ← comprehensionScope scope
    evalClauses clauses inner
    discard (eval key inner)
    discard (eval value inner)
    instanceOf Library.dict
  -- what a function yields counts among what it returns
  | .yield _ value, scope => do
    addReturn ((← evalOption value scope).getD (.prim .noneType))
    return .unknown
  | .yieldFrom _ value, scope => do
    discard (eval value scope)
    return .unknown
  | .await _ value, scope => eval value scope
  | .starred _ value, scope => do
    discard (eval value scope)
    return .unknown
  | .named _ target value, scope => do
    let ty ← eval value scope
    bindName ((← get).scopes.enclosingBlock scope) target ty .variable
    return ty

def evalOption : Option Expr → ScopeId → Infer (Option Ty)
  | none, _ => return none
  | some e, scope => some <$> eval e scope

def evalList : List Expr → ScopeId → Infer (List Ty)
  | [], _ => return []
  | e :: es, scope => do
    let ty ← eval e scope
    return ty :: (← evalList es scope)

def evalArgs : List Arg → ScopeId → Infer CallArgs
  | [], _ => return {}
  | .positional value :: more, scope => do
    let ty ← eval value scope
    let args ← evalArgs more scope
    return { args with positional := ty :: args.positional }
  | .keyword name value :: more, scope => do
    let ty ← eval value scope
    let args ← evalArgs more scope
    return { args with keywords := (name.name, ty) :: args.keywords }
  | .star value :: more, scope | .doubleStar value :: more, scope => do
    discard (eval value scope)
    let args ← evalArgs more scope
    return { args with spread := true }

def evalItems : List DictItem → ScopeId → Infer Unit
  | [], _ => return ()
  | ⟨key, value⟩ :: more, scope => do
    discard (evalOption key scope)
    discard (eval value scope)
    evalItems more scope

def evalClauses : List Comprehension → ScopeId → Infer Unit
  | [], _ => return ()
  | ⟨target, iter, conditions, _⟩ :: more, scope => do
    let iterable ← eval iter scope
    bindTarget target ((← get).library.elementType iterable) scope
    discard (evalList conditions scope)
    evalClauses more scope

def evalParams : List Param → ScopeId → Infer (List (Option Ty))
  | [], _ => return []
  | ⟨_, _, default, annotation⟩ :: more, scope => do
    discard (evalOption annotation scope)
    let ty ← evalOption default scope
    return ty :: (← evalParams more scope)

/-- Executes the definition of a function, but not its body. -/
def define : FunctionDef → ScopeId → Infer FunId
  | ⟨span, name, params, body, decorators, returns, isAsync⟩, scope => do
    discard (evalList decorators scope)
    let defaults ← evalParams params scope
    discard (evalOption returns scope)
    let d : FunctionDef := ⟨span, name, params, body, decorators, returns, isAsync⟩
    modifyGet fun s => (s.defineFunction d defaults scope).swap

/-- Binds what stands on the left of an assignment. -/
def bindTarget : Expr → Ty → ScopeId → Infer Unit
  | .name span id, ty, scope => bindName scope ⟨id, span⟩ ty .variable
  | .tuple _ elts, ty, scope | .list _ elts, ty, scope => do
    bindAll elts ((← get).library.elementType ty) scope
  | .starred _ value, _, scope => do bindTarget value (← instanceOf Library.list) scope
  | .attribute _ value attr, ty, scope => do
    let receiver ← eval value scope
    setAttribute receiver attr ty
  | .subscript _ value index, _, scope => do
    discard (eval value scope)
    discard (eval index scope)
  | target, _, _ => malformed target.span "cannot assign to this expression"

/-- Binds all targets to the same type. -/
def bindAll : List Expr → Ty → ScopeId → Infer Unit
  | [], _, _ => return ()
  | target :: more, ty, scope => do
    bindTarget target ty scope
    bindAll more ty scope

/-- Binds each target to its own type. -/
def bindEach : List Expr → List Ty → ScopeId → Infer Unit
  | target :: more, ty :: types, scope => do
    bindTarget target ty scope
    bindEach more types scope
  | _, _, _ => return ()

/-- Assigns to the targets of `a = b = value`, one after the other. Where the
value is a display, a display of the same length is bound part by part. -/
def assign : List Expr → Option (List Ty) → Ty → ScopeId → Infer Unit
  | [], _, _, _ => return ()
  | target :: more, parts, whole, scope => do
    match target, parts with
    | .tuple _ elts, some types | .list _ elts, some types =>
      if elts.length = types.length && !Expr.hasStarred elts then bindEach elts types scope
      else bindTarget target whole scope
    | target, _ => bindTarget target whole scope
    assign more parts whole scope

end

mutual

/-- Executes a statement in a scope. -/
def exec : Stmt → ScopeId → Infer Unit
  | .expr _ value, scope => discard (eval c value scope)
  | .assign _ targets value, scope => do
    match value with
    | .tuple _ elts =>
      let types ← evalList c elts scope
      assign c targets (if Expr.hasStarred elts then none else some types)
        (← instanceOf Library.tuple) scope
    | .list _ elts =>
      let types ← evalList c elts scope
      assign c targets (if Expr.hasStarred elts then none else some types)
        (← instanceOf Library.list) scope
    | _ => assign c targets none (← eval c value scope) scope
  | .augAssign _ target op value, scope => do
    let current ← eval c target scope
    let operand ← eval c value scope
    bindTarget c target (Ty.binary op current operand) scope
  | .annAssign _ target annotation value, scope => do
    discard (eval c annotation scope)
    match ← evalOption c value scope with
    | some ty => bindTarget c target ty scope
    | none => return ()
  | .return _ value, scope => do
    addReturn ((← evalOption c value scope).getD (.prim .noneType))
  | .pass _, _ | .break _, _ | .continue _, _ => return ()
  | .cond _ test body orElse, scope | .while _ test body orElse, scope => do
    discard (eval c test scope)
    execBlock body scope
    execBlock orElse scope
  | .for _ target iter body orElse _, scope => do
    let iterable ← eval c iter scope
    bindTarget c target ((← get).library.elementType iterable) scope
    execBlock body scope
    execBlock orElse scope
  | .function d, scope => do
    let f ← define c d scope
    bindName scope d.name (.function f) .function
  | .classDef ⟨span, name, bases, keywords, body, decorators⟩, scope => do
    discard (evalList c decorators scope)
    let baseTypes ← evalList c bases scope
    discard (evalList c (keywords.map ClassKeyword.value) scope)
    let d : ClassDef := ⟨span, name, bases, keywords, body, decorators⟩
    let id ← modifyGet fun s => (s.defineClass d baseTypes scope).swap
    bindName scope name (.cls id) .cls
    execBlock body ((← get).types.cls id).scope
  | .importModules _ names, scope => names.forM (importModule c.load · scope)
  | .importFrom span module level names, scope => importFrom c.load span module level names scope
  | .global _ names, scope => names.forM fun n => modify (·.declareGlobal scope n.name)
  | .nonlocal _ names, scope => names.forM fun n => modify (·.declareNonlocal scope n.name)
  | .try _ body handlers orElse finalBody, scope => do
    execBlock body scope
    execHandlers handlers scope
    execBlock orElse scope
    execBlock finalBody scope
  | .with _ items body _, scope => do
    items.forM fun item => do
      let context ← eval c item.context scope
      match item.target with
      | some target => bindTarget c target (← enterType c.apply context) scope
      | none => return ()
    execBlock body scope
  | .raise _ exception cause, scope => do
    discard (evalOption c exception scope)
    discard (evalOption c cause scope)
  | .assert _ test message, scope => do
    discard (eval c test scope)
    discard (evalOption c message scope)
  | .delete _ targets, scope => discard (evalList c targets scope)

def execBlock : List Stmt → ScopeId → Infer Unit
  | [], _ => return ()
  | s :: more, scope => do
    exec s scope
    execBlock more scope

def execHandlers : List ExceptHandler → ScopeId → Infer Unit
  | [], _ => return ()
  | ⟨_, type, name, body⟩ :: more, scope => do
    let caught ← match type with
      | some (.tuple _ elts) => do pure (Ty.union (← evalList c elts scope))
      | some e => eval c e scope
      | none => pure .unknown
    match name with
    | some name => bindName scope name (caughtInstances caught) .variable
    | none => pure ()
    execBlock body scope
    execHandlers more scope

end

end Infer

end TypeInfer
