/-
The arguments of a call and how they are given to parameters: first by place,
then by keyword, then from the default. A spread argument may stand for anything,
so it leaves a parameter that is not given otherwise unknown.
-/
import TypeInfer.Library.Basic

namespace TypeInfer

structure CallArgs where
  positional : List Ty := []
  keywords : List (String × Ty) := []
  /-- Whether the call spreads a sequence or a mapping over its parameters. -/
  spread : Bool := false
deriving Inhabited

/-- The first value under a key, and the list without it. -/
def takeKey (key : String) : List (String × α) → Option (α × List (String × α))
  | [] => none
  | (k, a) :: rest =>
    if k == key then some (a, rest)
    else (takeKey key rest).map fun (b, rest) => (b, (k, a) :: rest)

/-- The type of a parameter by keyword or default, and the keywords that are left. -/
def takeKeyword (spread : Bool) (name : String) (default? : Option Ty)
    (keywords : List (String × Ty)) : Ty × List (String × Ty) :=
  match takeKey name keywords with
  | some found => found
  | none => (if spread then Ty.unknown else default?.getD Ty.unknown, keywords)

/-- The type that a parameter gets, and the positional and keyword arguments that
are left. -/
def takeParam (lib : Library) (spread : Bool) (param : Param) (default? : Option Ty)
    (positional : List Ty) (keywords : List (String × Ty)) : Ty × List Ty × List (String × Ty) :=
  match param.kind, positional with
  | .positional, ty :: positional => (ty, positional, keywords)
  | .positional, [] | .keywordOnly, _ =>
    let (ty, keywords) := takeKeyword spread param.name.name default? keywords
    (ty, positional, keywords)
  | .varArgs, _ => (Ty.inst lib.tuple, [], keywords)
  | .kwArgs, _ => (Ty.inst lib.dict, positional, keywords)

/-- The types that parameters get from the arguments that are left. -/
def bindParams (lib : Library) (spread : Bool) :
    List Param → List (Option Ty) → List Ty → List (String × Ty) → List Ty
  | [], _, _, _ => []
  | param :: params, defaults, positional, keywords =>
    let (ty, positional, keywords) :=
      takeParam lib spread param (defaults.head?.getD none) positional keywords
    ty :: bindParams lib spread params defaults.tail positional keywords

def CallArgs.signature (args : CallArgs) (lib : Library) (params : List Param)
    (defaults : List (Option Ty)) (receiver : Option Ty) : List Ty :=
  bindParams lib args.spread params defaults (receiver.toList ++ args.positional) args.keywords

/-- Arguments of which nothing is known, for a function that is never called. -/
def CallArgs.placeholder (params : List Param) (hasReceiver : Bool) : CallArgs where
  positional :=
    ((params.filter (·.kind == .positional)).drop (if hasReceiver then 1 else 0)).map
      fun _ => Ty.unknown
  keywords := (params.filter (·.kind == .keywordOnly)).map fun p => (p.name.name, Ty.unknown)

end TypeInfer
