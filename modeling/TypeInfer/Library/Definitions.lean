/-
What programs find without any source file. The global scope holds the built-in
classes, exceptions, constants and functions; the standard modules are served by
name. Library functions return a fixed type or the type of their first argument.
-/
import TypeInfer.Library.Basic

namespace TypeInfer.Definitions

/-! ### Writing definitions -/

/-- The tables while the library is written into them. -/
structure Draft where
  scopes : ScopeTable := .empty
  types : TypeStore := {}
  modules : List (String × ModuleId) := []

abbrev Build := StateM Draft

/-- The place that stands for a library definition. -/
def location (scopes : ScopeTable) (scope : ScopeId) (name : String) : Span :=
  let path := scopes.extendPath scope name
  if path.toList.contains '.' then Span.library path else Span.library ("builtins." ++ path)

def define (scope : ScopeId) (name : String) (ty : Ty) (kind : BindingKind) : Build Unit :=
  modify fun d =>
    { d with scopes := (d.scopes.insert scope name (location d.scopes scope name) ty kind).1 }

def newClass (scope : ScopeId) (name : String) (bases : List ClassId) (prim : Option Prim := none) :
    Build ClassId := do
  let d ← get
  let qname := d.scopes.extendPath scope name
  let (scopes, body) := d.scopes.newScope .cls scope qname
  let (types, id) := d.types.addClass
    { name, qname, scope := body, bases := bases.map Ty.cls, prim, builtin := true, node := none }
  set { d with scopes := scopes.setOwner body id, types }
  define scope name (Ty.cls id) .cls
  return id

def classes (scope : ScopeId) (base : ClassId) (names : List String) : Build Unit :=
  names.forM fun name => discard (newClass scope name [base])

def native (scope : ScopeId) (owner : Option ClassId) (ret : NativeReturn) (name : String) :
    Build Unit := do
  let d ← get
  let (types, id) := d.types.addFun
    { name, qname := d.scopes.extendPath scope name, body := .native ret, closure := scope, owner,
      method := .inst, selfType := none, defaults := [], called := true, arrows := [] }
  set { d with types }
  define scope name (Ty.function id) .function

def functions (scope : ScopeId) (ret : Ty) (names : List String) : Build Unit :=
  names.forM (native scope none (.fixed ret))

def methods (c : ClassId) (ret : Ty) (names : List String) : Build Unit := do
  names.forM (native ((← get).types.cls c).scope (some c) (.fixed ret))

def constants (scope : ScopeId) (ty : Ty) (names : List String) : Build Unit :=
  names.forM fun name => define scope name ty .variable

def newModule (qname : String) : Build (ModuleId × ScopeId) := do
  let d ← get
  let (scopes, scope) := d.scopes.newScope .module ScopeTable.globalScope qname
  let (types, id) := d.types.addModule { name := qname, qname, file := none, scope }
  set ({ scopes, types, modules := (qname, id) :: d.modules } : Draft)
  return (id, scope)

/-! ### The definitions -/

/-- The types that library definitions speak of. -/
structure Shorthand where
  list : Ty
  tuple : Ty
  dict : Ty
  set : Ty
  file : Ty

def bool : Ty := .prim .bool

def int : Ty := .prim .int

def float : Ty := .prim .float

def str : Ty := .prim .str

def bytes : Ty := .prim .bytes

def noneTy : Ty := .prim .noneType

def objectMethods (object : ClassId) : Build Unit := do
  methods object noneTy ["__init__", "__setattr__", "__delattr__"]
  methods object str ["__str__", "__repr__", "__format__"]
  methods object bool ["__eq__", "__ne__"]
  methods object int ["__hash__"]

def textMethods (l : Library) (t : Shorthand) : Build Unit := do
  methods l.str str
    ["upper", "lower", "strip", "lstrip", "rstrip", "title", "capitalize", "replace", "format",
      "join", "zfill", "center", "ljust", "rjust", "casefold", "swapcase", "expandtabs",
      "removeprefix", "removesuffix"]
  methods l.str t.list ["split", "rsplit", "splitlines"]
  methods l.str t.tuple ["partition", "rpartition"]
  methods l.str bool
    ["startswith", "endswith", "isdigit", "isalpha", "isalnum", "isspace", "isupper", "islower",
      "isidentifier", "isnumeric", "isdecimal"]
  methods l.str int ["find", "rfind", "index", "rindex", "count"]
  methods l.str bytes ["encode"]
  methods l.bytes str ["decode", "hex"]
  methods l.bytes bytes ["upper", "lower", "strip", "replace", "join"]
  methods l.bytes t.list ["split"]
  methods l.bytes bool ["startswith", "endswith"]
  methods l.bytes int ["find", "count", "index"]

def numberMethods (l : Library) : Build Unit := do
  methods l.int int ["bit_length", "conjugate", "__index__"]
  methods l.int bytes ["to_bytes"]
  methods l.float bool ["is_integer"]
  methods l.float str ["hex"]
  methods l.float float ["conjugate"]

def containerMethods (l : Library) (t : Shorthand) : Build Unit := do
  methods l.list noneTy ["append", "extend", "insert", "remove", "clear", "sort", "reverse"]
  methods l.list int ["index", "count"]
  methods l.list t.list ["copy"]
  methods l.list .unknown ["pop"]
  methods l.tuple int ["index", "count"]
  methods l.dict noneTy ["update", "clear"]
  methods l.dict .unknown ["get", "pop", "setdefault", "popitem"]
  methods l.dict .unknown ["keys", "values", "items"]
  methods l.dict t.dict ["copy"]
  methods l.set noneTy ["add", "discard", "remove", "clear", "update"]
  methods l.set t.set ["union", "intersection", "difference", "symmetric_difference", "copy"]
  methods l.set bool ["issubset", "issuperset", "isdisjoint"]
  methods l.set .unknown ["pop"]

def fileMethods (file : ClassId) (t : Shorthand) : Build Unit := do
  methods file str ["read", "readline"]
  methods file t.list ["readlines"]
  methods file int ["write"]
  methods file noneTy ["close", "flush"]

def exceptions (g : ScopeId) (object : ClassId) (t : Shorthand) : Build Unit := do
  let base ← newClass g "BaseException" [object]
  define ((← get).types.cls base).scope "args" t.tuple .attribute
  methods base (.inst base) ["with_traceback"]
  classes g base ["SystemExit", "KeyboardInterrupt", "GeneratorExit"]
  let exception ← newClass g "Exception" [base]
  let lookup ← newClass g "LookupError" [exception]
  let arithmetic ← newClass g "ArithmeticError" [exception]
  let system ← newClass g "OSError" [exception]
  classes g lookup ["KeyError", "IndexError"]
  classes g arithmetic ["ZeroDivisionError", "OverflowError"]
  classes g system ["FileNotFoundError", "PermissionError", "IOError"]
  classes g exception
    ["ValueError", "TypeError", "AttributeError", "RuntimeError", "NotImplementedError",
      "StopIteration", "ImportError", "AssertionError", "NameError", "EOFError", "UnicodeError",
      "RecursionError", "Warning"]

def globalNames (g : ScopeId) (t : Shorthand) : Build Unit := do
  constants g noneTy ["None"]
  constants g bool ["True", "False"]
  constants g str ["__name__", "__file__", "__doc__"]
  constants g .unknown ["NotImplemented", "Ellipsis"]
  functions g int ["len", "id", "hash", "ord", "round"]
  functions g noneTy ["print", "setattr", "delattr", "exec"]
  functions g bool ["isinstance", "issubclass", "hasattr", "callable", "all", "any"]
  functions g str ["repr", "input", "chr", "hex", "oct", "bin", "format", "ascii"]
  functions g t.list ["sorted"]
  functions g t.file ["open"]
  functions g t.dict ["globals", "locals", "vars"]
  functions g t.list ["dir"]
  functions g t.tuple ["divmod"]
  functions g .unknown ["getattr", "iter", "next", "sum", "min", "max", "eval", "__import__"]
  native g none .firstArgument "abs"

def systemModules (t : Shorthand) : Build Unit := do
  let (_, sys) ← newModule "sys"
  constants sys t.list ["argv", "path"]
  constants sys t.dict ["modules"]
  constants sys str ["version", "platform"]
  constants sys int ["maxsize"]
  constants sys t.file ["stdin", "stdout", "stderr"]
  functions sys noneTy ["exit"]
  functions sys int ["getrecursionlimit", "getsizeof"]
  let (pathId, path) ← newModule "os.path"
  functions path str
    ["join", "dirname", "basename", "abspath", "realpath", "normpath", "expanduser", "relpath"]
  functions path bool ["exists", "isfile", "isdir", "isabs", "islink"]
  functions path t.tuple ["split", "splitext"]
  functions path int ["getsize"]
  functions path float ["getmtime"]
  constants path str ["sep"]
  let (_, os) ← newModule "os"
  define os "path" (.module pathId) .module
  functions os str ["getcwd", "getenv"]
  functions os t.list ["listdir"]
  functions os noneTy ["makedirs", "mkdir", "remove", "rmdir", "rename", "chdir", "unlink"]
  functions os int ["getpid"]
  functions os .unknown ["walk"]
  constants os t.dict ["environ"]
  constants os str ["sep", "linesep", "name"]

def numberModules : Build Unit := do
  let (_, math) ← newModule "math"
  functions math float
    ["sqrt", "sin", "cos", "tan", "asin", "acos", "atan", "atan2", "exp", "log", "log10", "log2",
      "pow", "fabs", "hypot", "degrees", "radians"]
  functions math int ["floor", "ceil", "trunc", "factorial", "gcd"]
  functions math bool ["isnan", "isinf", "isclose"]
  constants math float ["pi", "e", "tau", "inf", "nan"]
  let (_, time) ← newModule "time"
  functions time float ["time", "monotonic", "perf_counter", "process_time"]
  functions time noneTy ["sleep"]
  functions time str ["strftime", "ctime", "asctime"]
  functions time .unknown ["localtime", "gmtime"]

def textModules (t : Shorthand) : Build Unit := do
  let (_, json) ← newModule "json"
  functions json str ["dumps"]
  functions json noneTy ["dump"]
  functions json .unknown ["loads", "load"]
  let (_, re) ← newModule "re"
  functions re str ["sub", "escape"]
  functions re t.list ["split", "findall"]
  functions re .unknown ["compile", "match", "search", "fullmatch", "finditer"]
  constants re int ["IGNORECASE", "MULTILINE", "DOTALL", "VERBOSE"]
  let (_, random) ← newModule "random"
  functions random float ["random", "uniform", "gauss"]
  functions random int ["randint", "randrange", "getrandbits"]
  functions random noneTy ["seed", "shuffle"]
  functions random .unknown ["choice", "sample", "choices"]
  let (_, string) ← newModule "string"
  constants string str
    ["ascii_letters", "ascii_lowercase", "ascii_uppercase", "digits", "hexdigits", "octdigits",
      "punctuation", "printable", "whitespace"]

def collectionModules (l : Library) : Build Unit := do
  let (_, collections) ← newModule "collections"
  classes collections l.dict ["OrderedDict", "defaultdict", "Counter"]
  classes collections l.list ["deque"]
  functions collections .unknown ["namedtuple"]
  let (_, itertools) ← newModule "itertools"
  functions itertools .unknown
    ["chain", "count", "cycle", "repeat", "product", "permutations", "combinations", "groupby",
      "islice", "zip_longest", "accumulate"]
  let (_, functools) ← newModule "functools"
  functions functools .unknown
    ["reduce", "partial", "wraps", "lru_cache", "cache", "total_ordering"]
  let (_, typing) ← newModule "typing"
  constants typing .unknown
    ["Any", "List", "Dict", "Set", "Tuple", "Optional", "Union", "Callable", "Iterable",
      "Iterator", "Sequence", "Mapping", "Type", "TypeVar", "Generic", "NamedTuple"]

/-- Writes the whole library. Classes and functions are numbered in the order
in which they are written. -/
def build : Build Library := do
  let g := ScopeTable.globalScope
  let object ← newClass g "object" []
  let int ← newClass g "int" [object] (some .int)
  let bool ← newClass g "bool" [int] (some .bool)
  let float ← newClass g "float" [object] (some .float)
  let complex ← newClass g "complex" [object] (some .complex)
  let str ← newClass g "str" [object] (some .str)
  let bytes ← newClass g "bytes" [object] (some .bytes)
  let noneType ← newClass g "NoneType" [object] (some .noneType)
  let list ← newClass g "list" [object]
  let tuple ← newClass g "tuple" [object]
  let dict ← newClass g "dict" [object]
  let set ← newClass g "set" [object]
  let range ← newClass g "range" [object]
  let generator ← newClass g "generator" [object]
  let file ← newClass g "TextIOWrapper" [object]
  classes g object
    ["frozenset", "type", "enumerate", "zip", "map", "filter", "reversed", "slice", "bytearray",
      "memoryview", "property", "staticmethod", "classmethod", "super"]
  let l : Library := {
    object, bool, int, float, complex, str, bytes, noneType, list, tuple, dict, set, range, generator
    modules := [] }
  let t : Shorthand :=
    { list := .inst list, tuple := .inst tuple, dict := .inst dict, set := .inst set,
      file := .inst file }
  objectMethods object
  textMethods l t
  numberMethods l
  containerMethods l t
  fileMethods file t
  exceptions g object t
  globalNames g t
  systemModules t
  numberModules
  textModules t
  collectionModules l
  return { l with modules := (← get).modules }

end TypeInfer.Definitions

namespace TypeInfer

def Library.installed : Library × Definitions.Draft := Definitions.build.run {}

end TypeInfer
