/-
The store of modules, classes and functions that types name. A class or function is made anew each
time its definition is executed; a site type names it by the place of the definition instead.
-/
import TypeInfer.Scope
import TypeInfer.Syntax.Basic

namespace TypeInfer

structure ModuleType where
  name : String
  /-- The name under which it is loaded. -/
  qname : String
  /-- The source file; library modules have none. -/
  file : Option Path
  scope : ScopeId
deriving Inhabited

structure ClassType where
  name : String
  qname : String
  scope : ScopeId
  bases : List Ty
  /-- The kind of its instances, when they are primitive. -/
  prim : Option Prim
  builtin : Bool
  /-- The place of its definition; library classes have none. -/
  node : Option Span

/-- What is read where there is no class: like a library class, it cannot be changed. -/
instance : Inhabited ClassType :=
  ⟨{ name := "", qname := "", scope := default, bases := [], prim := none, builtin := true, node := none }⟩

inductive MethodKind where
  | inst
  | static
  | cls
  | property
deriving DecidableEq, Repr, Inhabited

inductive NativeReturn where
  | fixed (ty : Ty)
  | firstArgument
deriving DecidableEq, Inhabited

inductive FunBody where
  | source (definition : FunctionDef)
  | native (ret : NativeReturn)

instance : Inhabited FunBody := ⟨.native default⟩

structure FunType where
  name : String
  qname : String
  body : FunBody
  /-- The scope that the body is closed over. -/
  closure : ScopeId
  /-- The class in whose body it was defined. -/
  owner : Option ClassId
  method : MethodKind
  /-- The instances it was called on. -/
  selfType : Option Ty
  defaults : List (Option Ty)
  called : Bool
  /-- What was returned for each list of parameter types. -/
  arrows : List (List Ty × Ty)
deriving Inhabited

namespace FunType

def definition? (f : FunType) : Option FunctionDef :=
  match f.body with
  | .source d => some d
  | .native _ => none

def returnType (f : FunType) : Ty := Ty.union (f.arrows.map Prod.snd)

def arrow? (f : FunType) (signature : List Ty) : Option Ty := f.arrows.lookup signature

def setArrow (f : FunType) (signature : List Ty) (ret : Ty) : FunType :=
  { f with arrows := f.arrows.filter (·.1 != signature) ++ [(signature, ret)] }

end FunType

/-- An atom with its definition named by place. -/
inductive SiteAtom where
  | exact (a : Atom)
  | cls (node : Span)
  | inst (node : Span)
  | function (node : Span)
deriving DecidableEq, Inhabited

namespace SiteAtom

def rank : SiteAtom → Nat
  | .exact _ => 0
  | .cls _ => 1
  | .inst _ => 2
  | .function _ => 3

def within : SiteAtom → SiteAtom → Ordering
  | .exact a, .exact b => compare a b
  | .cls a, .cls b | .inst a, .inst b | .function a, .function b => compare a b
  | _, _ => .eq

instance : Ord SiteAtom := ⟨compareLex (compareOn rank) within⟩

end SiteAtom

/-- A type with its definitions named by place. A union stays one. -/
inductive SiteTy where
  | unknown
  | lone (a : SiteAtom)
  | union (members : List SiteAtom)
deriving DecidableEq, Inhabited

def SiteAtom.plain : SiteAtom → SiteAtom
  | .exact a => .exact a
  | .cls node => .cls node.plain
  | .inst node => .inst node.plain
  | .function node => .function node.plain

/-- The type with the plain spelling of its places. -/
def SiteTy.plain : SiteTy → SiteTy
  | .unknown => .unknown
  | .lone a => .lone a.plain
  | .union members => .union (members.map SiteAtom.plain)

structure TypeStore where
  modules : Array ModuleType := #[]
  classes : Array ClassType := #[]
  funs : Array FunType := #[]
deriving Inhabited

namespace TypeStore

def module (s : TypeStore) (id : ModuleId) : ModuleType := s.modules.getD id.index default

def cls (s : TypeStore) (id : ClassId) : ClassType := s.classes.getD id.index default

def function (s : TypeStore) (id : FunId) : FunType := s.funs.getD id.index default

def addModule (s : TypeStore) (m : ModuleType) : TypeStore × ModuleId :=
  ({ s with modules := s.modules.push m }, ⟨s.modules.size⟩)

def addClass (s : TypeStore) (c : ClassType) : TypeStore × ClassId :=
  ({ s with classes := s.classes.push c }, ⟨s.classes.size⟩)

def addFun (s : TypeStore) (f : FunType) : TypeStore × FunId :=
  ({ s with funs := s.funs.push f }, ⟨s.funs.size⟩)

def modifyFun (s : TypeStore) (id : FunId) (f : FunType → FunType) : TypeStore :=
  { s with funs := s.funs.modify id.index f }

/-- The scope with the members of a module, a class or an instance. -/
def memberScope (s : TypeStore) : Atom → Option ScopeId
  | .module id => some (s.module id).scope
  | .cls id | .inst id => some (s.cls id).scope
  | _ => none

/-! ### Sites -/

def siteAtom (s : TypeStore) (a : Atom) : SiteAtom :=
  match a with
  | .cls id => ((s.cls id).node.map .cls).getD (.exact a)
  | .inst id => ((s.cls id).node.map .inst).getD (.exact a)
  | .function id => ((s.function id).definition?.map fun d => .function d.span).getD (.exact a)
  | _ => .exact a

def siteTy (s : TypeStore) (t : Ty) : SiteTy :=
  match t.atoms with
  | [] => .unknown
  | [a] => .lone (s.siteAtom a)
  | atoms => .union (Ordered.ofList (atoms.map s.siteAtom))

/-! ### Text -/

/-- The text of an atom; `inner` writes what a function returns. -/
def describeAtom (s : TypeStore) (inner : Ty → Option String) : Atom → Option String
  | .prim p => some p.name
  | .module id => some ("module " ++ (s.module id).name)
  | .cls id => some ("class " ++ (s.cls id).name)
  | .inst id => some (s.cls id).name
  | .function id =>
    let f := s.function id
    if f.arrows.isEmpty then some ("def " ++ f.name)
    else (inner f.returnType).map fun ret => "def " ++ f.name ++ " -> " ++ ret

def describeMembers (s : TypeStore) (inner : Ty → Option String) (t : Ty) : Option String :=
  if t.isUnknown then some "?"
  else (t.atoms.mapM (s.describeAtom inner)).map (Text.join " | ")

/-- The text of a type, in which at most `depth` functions are nested. -/
def describeAt (s : TypeStore) : Nat → Ty → Option String
  | 0, t => s.describeMembers (fun _ => none) t
  | depth + 1, t => s.describeMembers (s.describeAt depth) t

/-- The text of a type. There is none when the return type of a function leads
back to the function; then functions nest deeper than there are functions. -/
def describe? (s : TypeStore) (t : Ty) : Option String := s.describeAt s.funs.size t

end TypeStore

end TypeInfer
