/-
The state of an analysis and the steps that change it. An action on the state may run out of the
depth it was given; whatever code is interpreted, the state changes only through the steps below.

Nodes are named by their spans, whatever the spelling of their files.
-/
import Std.Data.TreeSet
import TypeInfer.Config
import TypeInfer.Library.Definitions
import TypeInfer.TreeCache

namespace TypeInfer

/-- An application of a function, by the places of its definition and of its parameter types. -/
structure CallKey where
  site : Span
  signature : List SiteTy
deriving DecidableEq, Inhabited

structure Analysis where
  work : Workspace
  config : Config
  library : Library
  scopes : ScopeTable
  types : TypeStore
  /-- Loaded modules by qualified name, the latest first. -/
  modules : List (String × ModuleId) := []
  /-- The bindings that a node refers to. -/
  references : Std.TreeMap Span (List BindingId) := {}
  problems : Std.TreeMap Path (List Diagnostic) := {}
  /-- Files without a tree, with the reasons. -/
  failures : List (Path × List Diagnostic) := []
  /-- Functions that were not applied yet, the oldest first. -/
  uncalled : List FunId := []
  /-- Applications in progress, the innermost first. -/
  running : List CallKey := []
  /-- Files being loaded, the innermost first. -/
  importing : List Path := []
  /-- What each application in progress returned so far, the innermost first. -/
  frames : List (Option Ty) := []
  /-- Loaded files, the first one first. -/
  loaded : List Path := []
  resolved : Std.TreeSet Span := {}
  /-- Names that were not found, by site. -/
  unresolved : Std.TreeMap Span String := {}
  /-- The directory of the file being interpreted. -/
  dir : Option Path := none
  project : Option Path := none
  /-- How many applications were interpreted. -/
  callCount : Nat := 0
  finished : Bool := false

namespace Analysis

def files (s : Analysis) : FileTree := s.work.files

def hasFailed (s : Analysis) (file : Path) : Bool := s.failures.any (·.1 == file)

/-! ### Steps -/

def log (s : Analysis) (e : LogEvent) : Analysis := { s with work.journal := s.work.journal.push e }

/-- Puts on record that a node refers to a binding. -/
def addReference (s : Analysis) (node : Span) (id : BindingId) : Analysis :=
  { s with
    references := Ordered.update s.references node [] fun ids =>
      if ids.contains id then ids else ids ++ [id]
    scopes := s.scopes.addRef id node }

/-- Puts on record that a node refers to bindings. Library nodes refer to nothing. -/
def addReferences (s : Analysis) (node : Span) (ids : List BindingId) : Analysis :=
  if node.isSynthetic then s else ids.foldl (fun s id => s.addReference node id) s

/-- Reports a problem, unless it lies in the library. -/
def report (s : Analysis) (d : Diagnostic) : Analysis :=
  if d.span.isSynthetic then s
  else { s with problems := Ordered.update s.problems d.span.file [] (· ++ [d]) }

/-- Binds a name in just the given scope. To widen a definition counts as a reference to it. -/
def bind (s : Analysis) (scope : ScopeId) (name : String) (node : Span) (ty : Ty)
    (kind : BindingKind) : Analysis × BindingId :=
  let (scopes, inserted) := s.scopes.insert scope name node ty kind
  let s := { s with scopes }
  match inserted with
  | .merged id =>
    (if (s.scopes.binding id).node.same node then s else s.addReferences node [id], id)
  | _ => (s, inserted.id)

def newScope (s : Analysis) (kind : ScopeKind) (parent : ScopeId) (path : String) :
    Analysis × ScopeId :=
  let (scopes, id) := s.scopes.newScope kind parent path
  ({ s with scopes }, id)

def declareGlobal (s : Analysis) (scope : ScopeId) (name : String) : Analysis :=
  { s with scopes := s.scopes.declareGlobal scope name }

def declareNonlocal (s : Analysis) (scope : ScopeId) (name : String) : Analysis :=
  { s with scopes := s.scopes.declareNonlocal scope name }

def addModule (s : Analysis) (m : ModuleType) : Analysis × ModuleId :=
  let (types, id) := s.types.addModule m
  ({ s with types }, id)

def addClass (s : Analysis) (c : ClassType) : Analysis × ClassId :=
  let (types, id) := s.types.addClass c
  ({ s with types, scopes := s.scopes.setOwner c.scope id }, id)

/-- Adds a function that was not applied yet. -/
def addFun (s : Analysis) (f : FunType) : Analysis × FunId :=
  let (types, id) := s.types.addFun f
  ({ s with types, uncalled := Ordered.insert id s.uncalled }, id)

def addReceiver (s : Analysis) (f : FunId) (receiver : Ty) : Analysis :=
  { s with types := s.types.modifyFun f fun f =>
    { f with selfType := some ((f.selfType.map (·.merge receiver)).getD receiver) } }

/-- Widens what the innermost application returns. -/
def addReturn (s : Analysis) (ty : Ty) : Analysis :=
  match s.frames with
  | [] => s
  | ret :: frames => { s with frames := some ((ret.map (·.merge ty)).getD ty) :: frames }

def addResolved (s : Analysis) (site : Span) : Analysis :=
  { s with resolved := s.resolved.insert site }

def addUnresolved (s : Analysis) (site : Span) (name : String) : Analysis :=
  { s with unresolved := Ordered.update s.unresolved site name fun _ => name }

/-- Starts the application of a function whose code stands in the given directory. -/
def enterCall (s : Analysis) (f : FunId) (key : CallKey) (dir : Path) : Analysis :=
  { s with
    types := s.types.modifyFun f fun f => { f with called := true }
    uncalled := s.uncalled.filter (· != f)
    callCount := s.callCount + 1
    running := key :: s.running
    frames := none :: s.frames
    dir := some dir }

def returned (s : Analysis) : Ty := (s.frames.head?.getD none).getD (.prim .noneType)

/-- Ends the application of a function and keeps what it returns. -/
def leaveCall (s : Analysis) (f : FunId) (key : CallKey) (signature : List Ty)
    (dir : Option Path) : Analysis :=
  { s with
    types := s.types.modifyFun f (·.setArrow signature s.returned)
    running := s.running.erase key
    frames := s.frames.tail
    dir }

def enterFile (s : Analysis) (file : Path) : Analysis :=
  { s with importing := file :: s.importing, dir := some file.parentOrEmpty }

/-- Ends loading a file, whether it went well or not. -/
def leaveFile (s : Analysis) (file : Path) (dir : Option Path) : Analysis :=
  { s with importing := s.importing.erase file, dir }

def addLoaded (s : Analysis) (file : Path) (qname : String) (id : ModuleId) : Analysis :=
  { s with loaded := s.loaded ++ [file], modules := (qname, id) :: s.modules }

def addFailure (s : Analysis) (file : Path) (faults : List Diagnostic) : Analysis :=
  { s with failures := s.failures ++ [(file, faults)] }

end Analysis

/-- A piece of inference. It has no result when it runs out of depth. -/
abbrev Infer := StateT Analysis Option

namespace Infer

def outOfDepth : Infer α := fun _ => none

def log (e : LogEvent) : Infer Unit := modify (·.log e)

def addReferences (node : Span) (ids : List BindingId) : Infer Unit :=
  modify (·.addReferences node ids)

def report (d : Diagnostic) : Infer Unit := modify (·.report d)

/-- Binds a name in just the given scope. -/
def bindIn (scope : ScopeId) (name : Ident) (ty : Ty) (kind : BindingKind) : Infer BindingId :=
  modifyGet fun s => (s.bind scope name.name name.span ty kind).swap

/-- Binds a name where its declarations in the given scope say. -/
def bindName (scope : ScopeId) (name : Ident) (ty : Ty) (kind : BindingKind) : Infer Unit := do
  let target := (← get).scopes.targetScope scope name.name
  discard (bindIn target name ty kind)

def newScope (kind : ScopeKind) (parent : ScopeId) (path : String) : Infer ScopeId :=
  modifyGet fun s => (s.newScope kind parent path).swap

def lookupName (name : String) (site : Span) (scope : ScopeId) : Infer Ty := do
  match (← get).scopes.lookup scope name with
  | none =>
    modify (·.addUnresolved site name)
    return .unknown
  | some ids =>
    addReferences site ids
    modify (·.addResolved site)
    return (← get).scopes.typeOf ids

end Infer

end TypeInfer
