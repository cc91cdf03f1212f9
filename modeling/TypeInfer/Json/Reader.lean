/-
Taking JSON values apart. Readers of structured values carry a budget: each
array or object they enter takes one off, and a value that nests deeper than
the budget is refused. What a reader skips is not counted.
-/
import TypeInfer.Json.Parser

namespace TypeInfer.Json

/-- How deep a stored value may nest. -/
def nestingLimit : Nat := 127

def bool? : Json → Option Bool
  | .bool b => some b
  | _ => none

def nat? : Json → Option Nat
  | .num n => some n
  | _ => none

def str? : Json → Option String
  | .str s => some s
  | _ => none

/-- The fields of a record that a value gives. -/
abbrev Fields := List (String × Json)

/-- The fields of a record with the given names, none of them twice; of a list, the fields in their order,
of which the last `spare` ones may be missing. -/
def fields? (names : List String) (spare : Nat) : Json → Option Fields
  | .obj members =>
    let known := members.filter fun m => names.contains m.1
    if (known.map Prod.fst).Nodup then some known else none
  | .arr items =>
    if items.length ≤ names.length ∧ names.length ≤ items.length + spare then
      some (names.zip items)
    else none
  | _ => none

namespace Fields

/-- A field that must be there. -/
def get (fields : Fields) (name : String) (read : Json → Option α) : Option α :=
  (fields.lookup name).bind read

/-- A field that may be missing or null. -/
def get? (fields : Fields) (name : String) (read : Json → Option α) : Option (Option α) :=
  match fields.lookup name with
  | none | some .null => some none
  | some j => (read j).map some

end Fields

/-- The name of a choice and what it holds. -/
def choice? : Json → Option (String × Json)
  | .obj [(tag, content)] => some (tag, content)
  | _ => none

/-- The name of a choice that holds nothing: its name alone, or an object with
a null under the name. -/
def label? (budget : Nat) : Json → Option String
  | .str s => some s
  | .obj [(s, .null)] => if budget = 0 then none else some s
  | _ => none

/-- The items of a list, each read with what is left of the budget. -/
def list? (read : Nat → Json → Option α) : Nat → Json → Option (List α)
  | budget + 1, .arr items => items.mapM (read budget)
  | _, _ => none

end TypeInfer.Json
