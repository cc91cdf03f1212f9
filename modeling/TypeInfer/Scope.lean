/-
Scopes and bindings. Scopes form a tree below the global scope, and a scope maps each name to the
bindings it has there. Both are named by their place in one table; a scope is made after its parent.

A declaration (class, function, module) has a binding of its own; any other definition of a name
widens the type of the binding that is there.
-/
import TypeInfer.Span
import TypeInfer.Ty.Basic

namespace TypeInfer

structure ScopeId where
  index : Nat
deriving DecidableEq, Hashable, Repr, Inhabited

structure BindingId where
  index : Nat
deriving DecidableEq, Hashable, Repr, Inhabited

inductive BindingKind where
  | variable
  | cls
  | function
  | module
  | parameter
  | scope
  | attribute
deriving DecidableEq, Repr, Inhabited

namespace BindingKind

def isDeclaration : BindingKind → Bool
  | .cls | .function | .module => true
  | _ => false

def label : BindingKind → String
  | .variable => "variable"
  | .cls => "class"
  | .function => "function"
  | .module => "module"
  | .parameter => "parameter"
  | .scope => "scope"
  | .attribute => "attribute"

end BindingKind

/-- A definition with its type and the places that refer to it. -/
structure Binding where
  name : String
  node : Span
  ty : Ty
  kind : BindingKind
  /-- The dotted path of the binding. -/
  qname : String
  /-- Places that refer to it, each once. -/
  refs : List Span := []
deriving Inhabited

namespace Binding

def addRef (b : Binding) (node : Span) : Binding :=
  if b.refs.any (·.same node) then b else { b with refs := b.refs ++ [node] }

def isReferenced (b : Binding) : Bool := !b.refs.isEmpty

/-- Library definitions have no place in a source file. -/
def isBuiltin (b : Binding) : Bool := b.node.isSynthetic

/-- The places that refer to the binding, in order. -/
def sortedRefs (b : Binding) : List Span := b.refs.mergeSort fun a b => compare a b != .gt

end Binding

inductive ScopeKind where
  | global
  | module
  | cls
  | function
  | comprehension
deriving DecidableEq, Repr, Inhabited

structure Scope where
  kind : ScopeKind
  parent : Option ScopeId
  /-- The dotted path of what is defined here. -/
  path : String
  /-- The class whose body this scope is. -/
  owner : Option ClassId := none
  table : Std.TreeMap String (List BindingId) := {}
  globals : List String := []
  nonlocals : List String := []
deriving Inhabited

/-- What became of an insertion. -/
inductive Inserted where
  | new (id : BindingId)
  /-- The type of a binding was widened. -/
  | merged (id : BindingId)
  /-- The same declaration was there before. -/
  | existing (id : BindingId)
deriving DecidableEq, Repr, Inhabited

def Inserted.id : Inserted → BindingId
  | .new id | .merged id | .existing id => id

structure ScopeTable where
  scopes : Array Scope
  bindings : Array Binding
deriving Inhabited

namespace ScopeTable

def globalScope : ScopeId := ⟨0⟩

def empty : ScopeTable := ⟨#[{ kind := .global, parent := none, path := "" }], #[]⟩

def scope (t : ScopeTable) (id : ScopeId) : Scope := t.scopes.getD id.index default

def binding (t : ScopeTable) (id : BindingId) : Binding := t.bindings.getD id.index default

def newScope (t : ScopeTable) (kind : ScopeKind) (parent : ScopeId) (path : String) :
    ScopeTable × ScopeId :=
  ({ t with scopes := t.scopes.push { kind, parent := some parent, path } }, ⟨t.scopes.size⟩)

def modifyScope (t : ScopeTable) (id : ScopeId) (f : Scope → Scope) : ScopeTable :=
  { t with scopes := t.scopes.modify id.index f }

def modifyBinding (t : ScopeTable) (id : BindingId) (f : Binding → Binding) : ScopeTable :=
  { t with bindings := t.bindings.modify id.index f }

def setOwner (t : ScopeTable) (id : ScopeId) (c : ClassId) : ScopeTable :=
  t.modifyScope id fun s => { s with owner := some c }

def declareGlobal (t : ScopeTable) (id : ScopeId) (name : String) : ScopeTable :=
  t.modifyScope id fun s => { s with globals := if s.globals.contains name then s.globals else name :: s.globals }

def declareNonlocal (t : ScopeTable) (id : ScopeId) (name : String) : ScopeTable :=
  t.modifyScope id fun s =>
    { s with nonlocals := if s.nonlocals.contains name then s.nonlocals else name :: s.nonlocals }

def isGlobal (t : ScopeTable) (id : ScopeId) (name : String) : Bool :=
  (t.scope id).globals.contains name

def isNonlocal (t : ScopeTable) (id : ScopeId) (name : String) : Bool :=
  (t.scope id).nonlocals.contains name

/-- The dotted path of a name defined in the scope. -/
def extendPath (t : ScopeTable) (id : ScopeId) (name : String) : String :=
  let path := (t.scope id).path
  if path.isEmpty then name else path ++ "." ++ name

/-! ### Looking up -/

/-- The bindings of a name in the scope itself, the oldest first. -/
def slot (t : ScopeTable) (id : ScopeId) (name : String) : List BindingId :=
  (t.scope id).table.getD name []

/-- The bindings of a name in the scope itself, if it has any. -/
def lookupLocal (t : ScopeTable) (id : ScopeId) (name : String) : Option (List BindingId) :=
  let ids := t.slot id name
  if ids.isEmpty then none else some ids

def ancestorsFrom (t : ScopeTable) : Nat → ScopeId → List ScopeId
  | 0, _ => []
  | steps + 1, id =>
    id :: match (t.scope id).parent with
      | some parent => ancestorsFrom t steps parent
      | none => []

/-- The scope and those around it, from the inside out. -/
def ancestors (t : ScopeTable) (id : ScopeId) : List ScopeId := t.ancestorsFrom (id.index + 1) id

/-- The nearest module scope, or the global scope where there is none. -/
def moduleScope (t : ScopeTable) (id : ScopeId) : ScopeId :=
  ((t.ancestors id).find? fun a => (t.scope a).kind == .module || (t.scope a).parent.isNone).getD id

/-- The nearest scope that is not one of a comprehension. -/
def enclosingBlock (t : ScopeTable) (id : ScopeId) : ScopeId :=
  ((t.ancestors id).find? fun a => (t.scope a).kind != .comprehension).getD id

/-- The bindings of a name in the nearest scope that has one, or from the module on if global. -/
def lookup (t : ScopeTable) (id : ScopeId) (name : String) : Option (List BindingId) :=
  let start := if t.isGlobal id name then t.moduleScope id else id
  (t.ancestors start).findSome? (t.lookupLocal · name)

def typeOf (t : ScopeTable) (ids : List BindingId) : Ty :=
  Ty.union (ids.map fun id => (t.binding id).ty)

def lookupType (t : ScopeTable) (id : ScopeId) (name : String) : Option Ty :=
  (t.lookup id name).map t.typeOf

/-- Whether a scope lies between a nonlocal name and the functions around it. -/
def passesNonlocal (t : ScopeTable) (id : ScopeId) : Bool :=
  (t.scope id).kind == .function || (t.scope id).kind == .comprehension

/-- The scope that an assignment goes to: for a nonlocal name the nearest function that has it. -/
def targetScope (t : ScopeTable) (id : ScopeId) (name : String) : ScopeId :=
  if t.isGlobal id name then t.moduleScope id
  else if t.isNonlocal id name then
    (((t.ancestors id).tail.takeWhile t.passesNonlocal).find? fun a =>
      (t.scope a).kind == .function && (t.lookupLocal a name).isSome).getD id
  else id

/-! ### Inserting -/

/-- Adds a binding of its own. -/
def addBinding (t : ScopeTable) (id : ScopeId) (name : String) (node : Span) (ty : Ty)
    (kind : BindingKind) : ScopeTable × BindingId :=
  let new : BindingId := ⟨t.bindings.size⟩
  let binding : Binding := { name, node, ty, kind, qname := t.extendPath id name }
  let t := { t with bindings := t.bindings.push binding }
  (t.modifyScope id fun s => { s with table := s.table.insert name (s.table.getD name [] ++ [new]) },
    new)

/-- The binding that a definition goes to, if it makes no new one, and whether
it is widened. -/
def receiver? (t : ScopeTable) (id : ScopeId) (name : String) (ty : Ty) (kind : BindingKind) :
    Option Inserted :=
  let ids := t.slot id name
  if kind.isDeclaration then
    (ids.find? fun b => (t.binding b).kind == kind && (t.binding b).ty == ty).map .existing
  else (ids.reverse.find? fun b => !(t.binding b).kind.isDeclaration).map .merged

def insert (t : ScopeTable) (id : ScopeId) (name : String) (node : Span) (ty : Ty)
    (kind : BindingKind) : ScopeTable × Inserted :=
  match t.receiver? id name ty kind with
  | some (.merged b) =>
    (t.modifyBinding b fun old => { old with ty := old.ty.merge ty }, .merged b)
  | some inserted => (t, inserted)
  | none =>
    let (t, new) := t.addBinding id name node ty kind
    (t, .new new)

def addRef (t : ScopeTable) (b : BindingId) (node : Span) : ScopeTable :=
  t.modifyBinding b (·.addRef node)

end ScopeTable

end TypeInfer
