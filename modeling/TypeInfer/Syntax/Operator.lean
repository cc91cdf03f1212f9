/-
The operators of expressions, with the spelling of the binary ones and the name
under which each is stored.
-/

namespace TypeInfer

/-- Binary operators, which are also those of augmented assignment. -/
inductive Operator where
  | add
  | sub
  | mult
  | matMult
  | div
  | floorDiv
  | mod
  | pow
  | shiftLeft
  | shiftRight
  | bitOr
  | bitXor
  | bitAnd
deriving DecidableEq, Repr, Inhabited

namespace Operator

def all : List Operator :=
  [.add, .sub, .mult, .matMult, .div, .floorDiv, .mod, .pow, .shiftLeft, .shiftRight, .bitOr,
    .bitXor, .bitAnd]

def symbol : Operator → String
  | .add => "+"
  | .sub => "-"
  | .mult => "*"
  | .matMult => "@"
  | .div => "/"
  | .floorDiv => "//"
  | .mod => "%"
  | .pow => "**"
  | .shiftLeft => "<<"
  | .shiftRight => ">>"
  | .bitOr => "|"
  | .bitXor => "^"
  | .bitAnd => "&"

def ofSymbol? (s : String) : Option Operator := all.find? (·.symbol == s)

def label : Operator → String
  | .add => "Add"
  | .sub => "Sub"
  | .mult => "Mult"
  | .matMult => "MatMult"
  | .div => "Div"
  | .floorDiv => "FloorDiv"
  | .mod => "Mod"
  | .pow => "Pow"
  | .shiftLeft => "LShift"
  | .shiftRight => "RShift"
  | .bitOr => "BitOr"
  | .bitXor => "BitXor"
  | .bitAnd => "BitAnd"

def ofLabel? (s : String) : Option Operator := all.find? (·.label == s)

end Operator

inductive UnaryOperator where
  | not
  | neg
  | pos
  | invert
deriving DecidableEq, Repr, Inhabited

namespace UnaryOperator

def all : List UnaryOperator := [.not, .neg, .pos, .invert]

def label : UnaryOperator → String
  | .not => "Not"
  | .neg => "Neg"
  | .pos => "Pos"
  | .invert => "Invert"

def ofLabel? (s : String) : Option UnaryOperator := all.find? (·.label == s)

end UnaryOperator

inductive BoolOperator where
  | and
  | or
deriving DecidableEq, Repr, Inhabited

namespace BoolOperator

def all : List BoolOperator := [.and, .or]

def label : BoolOperator → String
  | .and => "And"
  | .or => "Or"

def ofLabel? (s : String) : Option BoolOperator := all.find? (·.label == s)

end BoolOperator

inductive CmpOperator where
  | eq
  | notEq
  | lt
  | ltEq
  | gt
  | gtEq
  | is
  | isNot
  | isIn
  | notIn
deriving DecidableEq, Repr, Inhabited

namespace CmpOperator

def all : List CmpOperator := [.eq, .notEq, .lt, .ltEq, .gt, .gtEq, .is, .isNot, .isIn, .notIn]

def label : CmpOperator → String
  | .eq => "Eq"
  | .notEq => "NotEq"
  | .lt => "Lt"
  | .ltEq => "LtE"
  | .gt => "Gt"
  | .gtEq => "GtE"
  | .is => "Is"
  | .isNot => "IsNot"
  | .isIn => "In"
  | .notIn => "NotIn"

def ofLabel? (s : String) : Option CmpOperator := all.find? (·.label == s)

end CmpOperator

end TypeInfer
