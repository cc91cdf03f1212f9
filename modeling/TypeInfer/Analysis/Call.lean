/-
Calls. A value is called member by member: a function is applied, a class makes an instance and
runs `__init__` on it, an instance of a class with `__call__` runs that. How a function is applied
is the parameter `apply`.
-/
import TypeInfer.Analysis.Arguments
import TypeInfer.Analysis.Attribute

namespace TypeInfer

abbrev Application := FunId → Option Ty → CallArgs → Infer Ty

/-- The first argument that a function gets from the value it was found on. -/
def FunType.receiver? (f : FunType) (found : Option Atom) : Option Atom :=
  match f.owner, f.method, found with
  | none, _, _ | some _, .static, _ => none
  | some _, .cls, some (.inst c) | some _, .cls, some (.cls c) => some (.cls c)
  | some owner, .cls, _ => some (.cls owner)
  -- a method that is found on its class gets the receiver as an argument
  | some _, _, some (.cls _) => none
  | some _, _, found => found

/-- The function that a binding holds, when it holds just that. -/
def Analysis.boundFunction? (s : Analysis) (id : BindingId) : Option FunId :=
  (s.scopes.binding id).ty.function?

/-- Whether an atom is an instance of a class that a program defined. -/
def Analysis.hasMethods (s : Analysis) : Atom → Bool
  | .inst c => !(s.types.cls c).builtin
  | _ => false

/-- The type of the items that a value gives when it is iterated over. -/
def Library.elementType (lib : Library) (t : Ty) : Ty :=
  Ty.ofAtoms <| t.atoms.filterMap fun
    | .prim .str => some (.prim .str)
    | .prim .bytes => some (.prim .int)
    | .inst c => if c = lib.range then some (.prim .int) else none
    | _ => none

namespace Infer

/-- The union of what an action gives for each item. -/
def unionOver (items : List α) (action : α → Infer Ty) : Infer Ty :=
  return Ty.union (← items.mapM action)

section

variable (apply : Application)

def callFunction (f : FunId) (found : Option Atom) (args : CallArgs) : Infer Ty := do
  let receiver := ((← get).types.function f).receiver? found
  match receiver with
  | some (.inst c) => modify (·.addReceiver f (.inst c))
  | _ => pure ()
  apply f (receiver.map Ty.ofAtom) args

/-- Calls the method of an atom, if it has one. -/
def callMethod? (a : Atom) (name : String) (args : CallArgs) : Infer (Option Ty) := do
  let ids := ((← get).attributeBindings a name).getD []
  let results ← ids.filterMapM fun id => do
    match (← get).boundFunction? id with
    | some f => some <$> callFunction apply f (some a) args
    | none => return none
  return if results.isEmpty then none else some (Ty.union results)

def instantiate (c : ClassId) (args : CallArgs) : Infer Ty := do
  match ((← get).types.cls c).prim with
  | some p => return .prim p
  | none =>
    let ids := ((← get).classAttribute c "__init__").getD []
    ids.forM fun id => do
      match (← get).boundFunction? id with
      | some init => discard (apply init (some (.inst c)) args)
      | none => return ()
    return .inst c

def callType (callee : Ty) (args : CallArgs) : Infer Ty :=
  unionOver callee.atoms fun a => do
    match a with
    | .function f => callFunction apply f none args
    | .cls c => instantiate apply c args
    | a =>
      if (← get).hasMethods a then return (← callMethod? apply a "__call__" args).getD .unknown
      else return .unknown

/-- Does something with each binding of an attribute, member by member. -/
def overAttribute (receiver : Ty) (attr : Ident) (action : Atom → BindingId → Infer Ty) : Infer Ty :=
  unionOver receiver.atoms fun a => do
    match (← get).attributeBindings a attr.name with
    | none => return .unknown
    | some ids =>
      addReferences attr.span ids
      unionOver ids (action a)

/-- The type of an attribute. A property of an instance is called. -/
def getAttribute (receiver : Ty) (attr : Ident) : Infer Ty :=
  overAttribute receiver attr fun a id => do
    let s ← get
    let ty := (s.scopes.binding id).ty
    match a, ty.function? with
    | .inst _, some f =>
      if (s.types.function f).method = .property then callFunction apply f (some a) {}
      else return ty
    | _, _ => return ty

/-- Calls an attribute. A method that is found on the receiver gets it. -/
def callAttribute (receiver : Ty) (attr : Ident) (args : CallArgs) : Infer Ty :=
  overAttribute receiver attr fun a id => do
    let b := (← get).scopes.binding id
    match b.ty.function?, b.kind with
    | some f, .function => callFunction apply f (some a) args
    | _, _ => callType apply b.ty args

def subscript (container key : Ty) (isSlice : Bool) : Infer Ty :=
  unionOver container.atoms fun a => do
    let s ← get
    match a with
    | .prim .str => return .prim .str
    | .prim .bytes => return if isSlice then .prim .bytes else .prim .int
    | .inst c =>
      if isSlice && (c = s.library.list || c = s.library.tuple) then return .inst c
      else if s.hasMethods a then
        return (← callMethod? apply a "__getitem__" { positional := [key] }).getD .unknown
      else return .unknown
    | _ => return .unknown

/-- The type that `with ... as` binds: what `__enter__` returns, where the class
defines it. -/
def enterType (context : Ty) : Infer Ty :=
  unionOver context.atoms fun a => do
    if (← get).hasMethods a then return (← callMethod? apply a "__enter__" {}).getD a
    else return a

end

end Infer

end TypeInfer
