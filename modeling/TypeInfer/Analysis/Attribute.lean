/-
Attributes of values. A class is searched before its bases, depth first and from
left to right, and no class twice; a class without bases falls back on `object`.
-/
import TypeInfer.Analysis.Basic

namespace TypeInfer

/-- The first result of a search over a list, made in its order. -/
def firstSomeM [Monad m] (search : α → m (Option β)) : List α → m (Option β)
  | [] => pure none
  | a :: as => do
    match ← search a with
    | some b => return some b
    | none => firstSomeM search as

namespace Ty

def classes (t : Ty) : List ClassId :=
  t.atoms.filterMap fun
    | .cls c => some c
    | _ => none

end Ty

namespace Analysis

/-- The classes that are searched after a class. -/
def parents (s : Analysis) (c : ClassId) : List ClassId :=
  let bases := (s.types.cls c).bases
  if bases.isEmpty then (if c = s.library.object then [] else [s.library.object])
  else bases.flatMap Ty.classes

/-- Searches a class and those after it, but none that was visited. -/
def searchClass (s : Analysis) (name : String) :
    Nat → ClassId → StateM (List ClassId) (Option (List BindingId))
  | 0, _ => return none
  | depth + 1, c => do
    if (← get).contains c then return none
    modify (c :: ·)
    match s.scopes.lookupLocal (s.types.cls c).scope name with
    | some ids => return some ids
    | none => firstSomeM (searchClass s name depth) (s.parents c)

/-- The bindings of a name in a class or the first of its bases that has it. -/
def classAttribute (s : Analysis) (c : ClassId) (name : String) : Option (List BindingId) :=
  ((s.searchClass name (s.types.classes.size + 1) c).run []).1

def attributeBindings (s : Analysis) (a : Atom) (name : String) : Option (List BindingId) :=
  match a with
  | .module id => s.scopes.lookupLocal (s.types.module id).scope name
  | .cls c | .inst c => s.classAttribute c name
  | .prim p => s.classAttribute (s.library.primClass p) name
  | .function _ => none

/-- Where an assignment to an attribute goes. The library cannot be changed. -/
def attributeScope? (s : Analysis) (a : Atom) : Option ScopeId :=
  match a with
  | .inst c | .cls c => if (s.types.cls c).builtin then none else some (s.types.cls c).scope
  | .module m => if (s.types.module m).file.isSome then some (s.types.module m).scope else none
  | _ => none

end Analysis

/-- Assigns to an attribute of each member of a type. -/
def Infer.setAttribute (receiver : Ty) (attr : Ident) (value : Ty) : Infer Unit :=
  receiver.atoms.forM fun a => do
    match (← get).attributeScope? a with
    | some scope => discard (Infer.bindIn scope attr value .attribute)
    | none => return ()

end TypeInfer
