/-
The types of operators. An operator on unions is applied to every pair of their
members, and its type is known only if every pair gives a known one.
-/
import TypeInfer.Syntax.Operator
import TypeInfer.Ty.Basic

namespace TypeInfer

namespace Prim

/-- The place in the numeric tower. -/
def rank? : Prim → Option Nat
  | .bool => some 0
  | .int => some 1
  | .float => some 2
  | .complex => some 3
  | _ => none

def ofRank : Nat → Prim
  | 0 => .bool
  | 1 => .int
  | 2 => .float
  | _ => .complex

def isIntegral (p : Prim) : Bool := p == .bool || p == .int

/-- Arithmetic on numbers, of which `widest` is the higher rank. -/
def numericBinary (op : Operator) (widest : Nat) : Option Prim :=
  match op with
  | .add | .sub | .mult | .floorDiv | .mod | .pow => some (ofRank (max widest 1))
  | .div => some (ofRank (max widest 2))
  | .bitAnd | .bitOr | .bitXor => if widest ≤ 1 then some (ofRank widest) else none
  | .shiftLeft | .shiftRight => if widest ≤ 1 then some .int else none
  | .matMult => none

/-- Operators on text and bytes: joining, repeating and formatting. -/
def textBinary (op : Operator) (a b : Prim) : Option Prim :=
  let isText (p : Prim) : Bool := p == .str || p == .bytes
  match op with
  | .add => if isText a && a == b then some a else none
  | .mult =>
    if isText a && b.isIntegral then some a
    else if isText b && a.isIntegral then some b
    else none
  | .mod => if isText a then some a else none
  | _ => none

/-- The type of an operator on two primitives, if it has one. -/
def binary? (op : Operator) (a b : Prim) : Option Prim :=
  match a.rank?, b.rank? with
  | some m, some n => numericBinary op (max m n)
  | _, _ => textBinary op a b

end Prim

namespace Atom

/-- The type of an operator on two atoms. -/
def binary? (op : Operator) (a b : Atom) : Option Atom :=
  match a, b with
  | .prim p, .prim q => (p.binary? op q).map .prim
  | .inst c, .inst d => if c = d ∧ op = .add then some a else none
  | .inst _, .prim p => if op = .mult ∧ p.isIntegral then some a else none
  | .prim p, .inst _ => if op = .mult ∧ p.isIntegral then some b else none
  | _, _ => none

/-- The type of an operator other than `not` on one atom. -/
def unary? (op : UnaryOperator) : Atom → Option Atom
  | .prim .bool => some (.prim .int)
  | .prim .int => some (.prim .int)
  | .prim .float => if op = .invert then none else some (.prim .float)
  | .prim .complex => if op = .invert then none else some (.prim .complex)
  | _ => none

end Atom

namespace Ty

def binary (op : Operator) (a b : Ty) : Ty :=
  let pairs := a.atoms.flatMap fun x => b.atoms.map fun y => (x, y)
  match pairs.mapM fun (x, y) => x.binary? op y with
  | some results => ofAtoms results
  | none => unknown

/-- A member without the operator does not count. -/
def unary (op : UnaryOperator) (t : Ty) : Ty :=
  if op = .not then prim .bool else ofAtoms (t.atoms.filterMap (·.unary? op))

end Ty

end TypeInfer
