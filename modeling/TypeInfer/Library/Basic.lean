/-
The library model, as the analysis sees it: the classes that it needs to know by
name, and the modules that are served without any source file.
-/
import TypeInfer.Store

namespace TypeInfer

/-- The classes that the analysis knows by name, and the library modules. -/
structure Library where
  object : ClassId
  bool : ClassId
  int : ClassId
  float : ClassId
  complex : ClassId
  str : ClassId
  bytes : ClassId
  noneType : ClassId
  list : ClassId
  tuple : ClassId
  dict : ClassId
  set : ClassId
  range : ClassId
  generator : ClassId
  modules : List (String × ModuleId)
deriving Inhabited

namespace Library

/-- The class with the methods of a primitive kind. -/
def primClass (l : Library) : Prim → ClassId
  | .bool => l.bool
  | .int => l.int
  | .float => l.float
  | .complex => l.complex
  | .str => l.str
  | .bytes => l.bytes
  | .noneType => l.noneType

def module? (l : Library) (qname : String) : Option ModuleId := l.modules.lookup qname

end Library

end TypeInfer
