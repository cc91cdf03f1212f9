/-
Types. A type is a set of atoms: primitive kinds, and modules, classes, instances and functions
named by their place in the store. The empty set is the unknown type. Widening is the union of sets.
-/
import TypeInfer.Ordered

namespace TypeInfer

structure ModuleId where
  index : Nat
deriving DecidableEq, Hashable, Repr, Inhabited

structure ClassId where
  index : Nat
deriving DecidableEq, Hashable, Repr, Inhabited

structure FunId where
  index : Nat
deriving DecidableEq, Hashable, Repr, Inhabited

instance : Ord FunId := ⟨compareOn FunId.index⟩

inductive Prim where
  | bool
  | int
  | float
  | complex
  | str
  | bytes
  | noneType
deriving DecidableEq, Repr, Inhabited

namespace Prim

def all : List Prim := [.bool, .int, .float, .complex, .str, .bytes, .noneType]

def name : Prim → String
  | .bool => "bool"
  | .int => "int"
  | .float => "float"
  | .complex => "complex"
  | .str => "str"
  | .bytes => "bytes"
  | .noneType => "None"

def ofName? (s : String) : Option Prim := all.find? (·.name == s)

/-- The place in the order of primitive kinds. -/
def index : Prim → Nat
  | .bool => 0
  | .int => 1
  | .float => 2
  | .complex => 3
  | .str => 4
  | .bytes => 5
  | .noneType => 6

end Prim

/-- A type that is no union of others. -/
inductive Atom where
  | prim (p : Prim)
  | module (id : ModuleId)
  | cls (id : ClassId)
  | inst (id : ClassId)
  | function (id : FunId)
deriving DecidableEq, Repr, Inhabited

namespace Atom

def rank : Atom → Nat
  | .prim _ => 0
  | .module _ => 1
  | .cls _ => 2
  | .inst _ => 3
  | .function _ => 4

def index : Atom → Nat
  | .prim p => p.index
  | .module id => id.index
  | .cls id => id.index
  | .inst id => id.index
  | .function id => id.index

/-- Primitives first, then modules, classes, instances and functions in their order. -/
instance : Ord Atom := ⟨compareLex (compareOn rank) (compareOn index)⟩

instance : Std.TransOrd Atom :=
  inferInstanceAs (Std.TransCmp (compareLex (compareOn rank) (compareOn index)))

/-- Functions and classes can be called. -/
def isCallable : Atom → Bool
  | .function _ | .cls _ => true
  | _ => false

/-- Classes, functions and modules are declarations, all else is a value. -/
def isDeclaration : Atom → Bool
  | .cls _ | .function _ | .module _ => true
  | _ => false

end Atom

/-- A set of atoms. -/
structure Ty where
  atoms : List Atom
  strict : Ordered.Strict atoms
deriving DecidableEq

namespace Ty

def unknown : Ty := ⟨[], List.Pairwise.nil⟩

instance : Inhabited Ty := ⟨unknown⟩

def ofAtoms (atoms : List Atom) : Ty := ⟨Ordered.ofList atoms, Ordered.strict_ofList atoms⟩

def ofAtom (a : Atom) : Ty := ⟨[a], List.pairwise_singleton _ a⟩

instance : Coe Atom Ty := ⟨ofAtom⟩

def prim (p : Prim) : Ty := ofAtom (.prim p)

def inst (c : ClassId) : Ty := ofAtom (.inst c)

def cls (c : ClassId) : Ty := ofAtom (.cls c)

def function (f : FunId) : Ty := ofAtom (.function f)

def module (m : ModuleId) : Ty := ofAtom (.module m)

/-- The type that is at least as wide as each of the given ones. -/
def union (types : List Ty) : Ty := ofAtoms (types.flatMap atoms)

/-- The narrowest type that is at least as wide as both. -/
def merge (a b : Ty) : Ty := ofAtoms (a.atoms ++ b.atoms)

/-- Unknown comes first, then lone atoms, then unions by their atoms. -/
instance : Ord Ty := ⟨compareLex (compareOn fun t => min t.atoms.length 2) (compareOn atoms)⟩

def isUnknown (t : Ty) : Bool := t.atoms.isEmpty

def isUnion (t : Ty) : Bool := 2 ≤ t.atoms.length

/-- The atom of a type that has just one. -/
def lone? (t : Ty) : Option Atom :=
  match t.atoms with
  | [a] => some a
  | _ => none

/-- The function that a type is, when it is just that. -/
def function? (t : Ty) : Option FunId :=
  match t.lone? with
  | some (.function f) => some f
  | _ => none

/-- The members of a union; any other type is its own member. -/
def members (t : Ty) : List Ty := if t.isUnion then t.atoms.map ofAtom else [t]

def isCallable (t : Ty) : Bool := t.atoms.any Atom.isCallable

def isDeclaration (t : Ty) : Bool := t.lone?.any Atom.isDeclaration

def contains (t u : Ty) : Bool := t.members.contains u

end Ty

end TypeInfer
