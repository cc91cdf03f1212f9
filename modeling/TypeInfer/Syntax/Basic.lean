/-
Syntax trees. Every node carries the span it was read from, by which the analysis knows one node
from another. A lambda is a function definition whose body returns its expression.
-/
import TypeInfer.Span
import TypeInfer.Syntax.Operator

namespace TypeInfer

structure Ident where
  name : String
  span : Span
deriving DecidableEq, Repr, Inhabited

inductive ParamKind where
  | positional
  /-- The parameter that takes the remaining positional arguments. -/
  | varArgs
  /-- Declared after `*` or the parameter for the remaining arguments. -/
  | keywordOnly
  /-- The parameter that takes the remaining keyword arguments. -/
  | kwArgs
deriving DecidableEq, Repr, Inhabited

/-- A dotted name of an import with its local name. -/
structure Alias where
  span : Span
  name : List Ident
  asName : Option Ident
deriving DecidableEq, Repr, Inhabited

/-- The names that an import takes out of a module. -/
inductive ImportNames where
  | star (span : Span)
  | names (aliases : List Alias)
deriving DecidableEq, Repr, Inhabited

mutual

inductive Expr where
  | name (span : Span) (id : String)
  | int (span : Span) (value : String)
  | float (span : Span) (value : String)
  | imaginary (span : Span) (value : String)
  | str (span : Span) (value : String)
  | bytes (span : Span) (value : String)
  | bool (span : Span) (value : Bool)
  | none (span : Span)
  | ellipsis (span : Span)
  | attribute (span : Span) (value : Expr) (attr : Ident)
  | subscript (span : Span) (value index : Expr)
  | slice (span : Span) (lower upper step : Option Expr)
  | call (span : Span) (func : Expr) (args : List Arg)
  | binary (span : Span) (left : Expr) (op : Operator) (right : Expr)
  | unary (span : Span) (op : UnaryOperator) (operand : Expr)
  | boolean (span : Span) (op : BoolOperator) (values : List Expr)
  | compare (span : Span) (left : Expr) (ops : List CmpOperator) (comparators : List Expr)
  | conditional (span : Span) (test body orElse : Expr)
  | lambda (span : Span) (definition : FunctionDef)
  | list (span : Span) (elts : List Expr)
  | tuple (span : Span) (elts : List Expr)
  | set (span : Span) (elts : List Expr)
  | dict (span : Span) (items : List DictItem)
  | listComp (span : Span) (elt : Expr) (clauses : List Comprehension)
  | setComp (span : Span) (elt : Expr) (clauses : List Comprehension)
  | generator (span : Span) (elt : Expr) (clauses : List Comprehension)
  | dictComp (span : Span) (key value : Expr) (clauses : List Comprehension)
  | yield (span : Span) (value : Option Expr)
  | yieldFrom (span : Span) (value : Expr)
  | await (span : Span) (value : Expr)
  | starred (span : Span) (value : Expr)
  | named (span : Span) (target : Ident) (value : Expr)

inductive Arg where
  | positional (value : Expr)
  | keyword (name : Ident) (value : Expr)
  | star (value : Expr)
  | doubleStar (value : Expr)

/-- One entry of a dictionary; an entry without a key is another dictionary
that is spread out. -/
structure DictItem where
  key : Option Expr
  value : Expr

/-- One clause of a comprehension with its conditions. -/
structure Comprehension where
  target : Expr
  iter : Expr
  conditions : List Expr
  isAsync : Bool

structure Param where
  name : Ident
  kind : ParamKind
  default : Option Expr
  annotation : Option Expr

structure FunctionDef where
  span : Span
  name : Ident
  params : List Param
  body : List Stmt
  decorators : List Expr
  returns : Option Expr
  isAsync : Bool

structure ClassKeyword where
  name : Ident
  value : Expr

structure ClassDef where
  span : Span
  name : Ident
  bases : List Expr
  keywords : List ClassKeyword
  body : List Stmt
  decorators : List Expr

structure ExceptHandler where
  span : Span
  type : Option Expr
  name : Option Ident
  body : List Stmt

structure WithItem where
  context : Expr
  target : Option Expr

inductive Stmt where
  | expr (span : Span) (value : Expr)
  | assign (span : Span) (targets : List Expr) (value : Expr)
  | augAssign (span : Span) (target : Expr) (op : Operator) (value : Expr)
  | annAssign (span : Span) (target annotation : Expr) (value : Option Expr)
  | return (span : Span) (value : Option Expr)
  | pass (span : Span)
  | break (span : Span)
  | continue (span : Span)
  | cond (span : Span) (test : Expr) (body orElse : List Stmt)
  | while (span : Span) (test : Expr) (body orElse : List Stmt)
  | for (span : Span) (target iter : Expr) (body orElse : List Stmt) (isAsync : Bool)
  | function (definition : FunctionDef)
  | classDef (definition : ClassDef)
  | importModules (span : Span) (names : List Alias)
  | importFrom (span : Span) (module : List Ident) (level : Nat) (names : ImportNames)
  | global (span : Span) (names : List Ident)
  | nonlocal (span : Span) (names : List Ident)
  | try (span : Span) (body : List Stmt) (handlers : List ExceptHandler)
      (orElse finalBody : List Stmt)
  | with (span : Span) (items : List WithItem) (body : List Stmt) (isAsync : Bool)
  | raise (span : Span) (exception cause : Option Expr)
  | assert (span : Span) (test : Expr) (message : Option Expr)
  | delete (span : Span) (targets : List Expr)

end

instance : Inhabited Expr := ⟨.none default⟩

instance : Inhabited Stmt := ⟨.pass default⟩

structure Module where
  span : Span
  file : Path
  body : List Stmt
deriving Inhabited

def dottedName (segments : List Ident) : String := Text.join "." (segments.map Ident.name)

def Alias.dotted (a : Alias) : String := dottedName a.name

namespace FunctionDef

/-- The name that every lambda goes by. -/
def lambdaName : String := "<lambda>"

def isLambda (d : FunctionDef) : Bool := d.name.name == lambdaName

end FunctionDef

def Arg.value : Arg → Expr
  | .positional value | .keyword _ value | .star value | .doubleStar value => value

namespace Expr

def span : Expr → Span
  | .name s _ | .int s _ | .float s _ | .imaginary s _ | .str s _ | .bytes s _ | .bool s _
  | .none s | .ellipsis s | .attribute s _ _ | .subscript s _ _ | .slice s _ _ _ | .call s _ _
  | .binary s _ _ _ | .unary s _ _ | .boolean s _ _ | .compare s _ _ _ | .conditional s _ _ _
  | .lambda s _ | .list s _ | .tuple s _ | .set s _ | .dict s _ | .listComp s _ _
  | .setComp s _ _ | .generator s _ _ | .dictComp s _ _ _ | .yield s _ | .yieldFrom s _
  | .await s _ | .starred s _ | .named s _ _ => s

mutual

def isAssignable : Expr → Bool
  | .name _ _ | .attribute _ _ _ | .subscript _ _ _ => true
  | .tuple _ elts | .list _ elts => allAssignable elts
  | .starred _ value => isAssignable value
  | _ => false

def allAssignable : List Expr → Bool
  | [] => true
  | e :: es => isAssignable e && allAssignable es

end

end Expr

namespace Stmt

def span : Stmt → Span
  | .expr s _ | .assign s _ _ | .augAssign s _ _ _ | .annAssign s _ _ _ | .return s _ | .pass s
  | .break s | .continue s | .cond s _ _ _ | .while s _ _ _ | .for s _ _ _ _ _ | .importModules s _
  | .importFrom s _ _ _ | .global s _ | .nonlocal s _ | .try s _ _ _ _ | .with s _ _ _
  | .raise s _ _ | .assert s _ _ | .delete s _ => s
  | .function d => d.span
  | .classDef d => d.span

end Stmt

end TypeInfer
