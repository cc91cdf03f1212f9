/-
Imports. An absolute import is looked for in the library and then on the search path, a relative
one in the directory of the file. A dotted name is followed directory by directory; the packages on
the way are loaded, and each module becomes a member of the one before it.
-/
import TypeInfer.Analysis.Attribute
import TypeInfer.Analysis.ModuleName

namespace TypeInfer

inductive LoadFailure where
  | notFound
  /-- The module is still being loaded. -/
  | cycle
  /-- The file is there but has no tree. -/
  | unparsable
deriving DecidableEq, Repr, Inhabited

abbrev Loaded := Except LoadFailure ModuleId

namespace Analysis

/-- The directories that the environment adds to the search path. -/
def environmentDirs (s : Analysis) : List Path :=
  match s.files.envVar? "PYTHONPATH" with
  | some value =>
    ((Text.splitOn ':' value.toList).filter (!·.isEmpty)).map fun entry =>
      s.files.fullPath ⟨String.ofList entry⟩
  | none => []

/-- The directories that are searched for absolute imports, in order and each once. -/
def loadPath (s : Analysis) : List Path :=
  (s.dir.toList ++ s.project.toList ++ s.config.searchPaths.map s.files.fullPath ++
    (if s.config.usePythonPath then s.environmentDirs else [])).eraseDupsBy Path.same

/-- The first directory of the search path that holds a package or module. -/
def locate? (s : Analysis) (name : String) : Option Path :=
  s.loadPath.find? fun dir =>
    s.files.fileExists (dir.child name).initFile || s.files.fileExists (dir.moduleFile name)

/-- The directory from which a relative import with the given number of dots starts. -/
def relativeBase? (s : Analysis) (level : Nat) : Option Path :=
  (level - 1).repeat (fun dir => dir.bind Path.parent?) s.dir

/-- The directory with the submodules of a package. -/
def packageDir? (s : Analysis) (m : ModuleId) : Option Path := do
  let file ← (s.types.module m).file
  if file.isPackageInit then file.parent? else none

/-- What one segment of a dotted name stands for. -/
inductive Segment where
  | file (path : Path)
  /-- A directory that is no package, on the way to a module. -/
  | namespaceDir
  | missing

def segment (s : Analysis) (path : Path) (name : String) (isLast : Bool) : Segment :=
  if s.files.fileExists path.initFile then .file path.initFile
  else if isLast then
    let file := path.withFileName (name ++ sourceSuffix)
    if s.files.fileExists file then .file file else .missing
  else if s.files.dirExists path then .namespaceDir
  else .missing

/-- Where a segment is bound: in the module before it, and the first one in the given scope. -/
def segmentScope? (s : Analysis) (before : Option ModuleId) (scope : Option ScopeId) :
    Option ScopeId :=
  match before with
  | some parent => some (s.types.module parent).scope
  | none => scope

end Analysis

namespace Infer

def importFailed (failure : LoadFailure) (name : String) (span : Span) : Infer Unit :=
  if failure = .notFound then
    report (Diagnostic.error Diagnostic.Code.moduleNotFound ("module not found: " ++ name) span)
  else return ()

/-- Binds a segment of a dotted name to its module; the segment refers to it. -/
def bindSegment (scope : Option ScopeId) (name : Ident) (node : Span) (m : ModuleId) : Infer Unit := do
  match scope with
  | some scope =>
    let binding ← bindIn scope ⟨name.name, node⟩ (.module m) .module
    addReferences name.span [binding]
  | none => return ()

/-- Loads a library module. Its first segment is bound in the given scope. -/
def loadLibrary (first : Ident) (id : ModuleId) (scope : Option ScopeId) : Infer Loaded := do
  let s ← get
  let top := (s.library.module? first.name).getD id
  bindSegment scope first (Span.library (s.types.module top).qname) top
  return .ok id

section

variable (load : Path → Infer Loaded)

def loadSegments (scope : Option ScopeId) : List Ident → Path → Option ModuleId → Infer Loaded
  | [], _, none => return .error .notFound
  | [], _, some module => return .ok module
  | name :: names, dir, before => do
    let path := dir.child name.name
    match (← get).segment path name.name names.isEmpty with
    | .missing => return .error .notFound
    | .namespaceDir => loadSegments scope names path before
    | .file file =>
      match ← load file with
      | .error failure => return .error failure
      | .ok module =>
        bindSegment ((← get).segmentScope? before scope) name name.span module
        loadSegments scope names path (some module)

def loadModule (names : List Ident) (scope : Option ScopeId) : Infer Loaded := do
  match names with
  | [] => return .error .notFound
  | first :: _ =>
    let s ← get
    match s.library.module? (dottedName names) with
    | some id => loadLibrary first id scope
    | none =>
      match s.locate? first.name with
      | some dir => loadSegments load scope names dir none
      | none => return .error .notFound

def loadPackage (dir : Path) : Infer Loaded := do
  if (← get).files.fileExists dir.initFile then load dir.initFile else return .error .notFound

def loadSubmodule (dir : Path) (name : String) : Infer Loaded := do
  let files := (← get).files
  if files.fileExists (dir.child name).initFile then load (dir.child name).initFile
  else if files.fileExists (dir.moduleFile name) then load (dir.moduleFile name)
  else return .error .notFound

/-! ### Import statements -/

def localName? (a : Alias) : Option Ident := a.asName <|> a.name.head?

def bindUnknown (scope : ScopeId) (a : Alias) (kind : BindingKind) : Infer Unit := do
  match localName? a with
  | some name => bindName scope name .unknown kind
  | none => return ()

/-- `import a.b` binds `a`, and `import a.b as c` binds `c` to `a.b`. -/
def importModule (a : Alias) (scope : ScopeId) : Infer Unit := do
  let result ← match a.asName with
    | some name => do
      let result ← loadModule load a.name none
      match result with
      | .ok module => bindName scope name (.module module) .module
      | .error _ => pure ()
      pure result
    | none => loadModule load a.name (some scope)
  match result with
  | .ok _ => return ()
  | .error failure =>
    importFailed failure a.dotted a.span
    bindUnknown scope a .module

/-- Binds all names of a module that do not start with `_`, at the places of their definitions. -/
def importStar (m : ModuleId) (scope : ScopeId) : Infer Unit := do
  let s ← get
  let names := (s.scopes.scope (s.types.module m).scope).table.toList
  (names.filter fun (name, _) => !name.startsWith "_").forM fun (name, ids) =>
    ids.forM fun id => do
      let b := (← get).scopes.binding id
      bindName scope ⟨name, b.node⟩ b.ty b.kind

/-- Binds a name to the bindings that a module has for it. -/
def importBindings (ids : List BindingId) (name binder : Ident) (scope : ScopeId) : Infer Unit := do
  addReferences name.span ids
  let s ← get
  let first := (ids.head?.map fun id => (s.scopes.binding id).kind).getD .variable
  bindName scope binder (s.scopes.typeOf ids) (if first.isDeclaration then first else .variable)

/-- Binds a name that the module does not have: it is a submodule, or missing. -/
def importMember (source : Option ModuleId) (dir : Option Path) (name binder : Ident) (origin : String)
    (scope : ScopeId) : Infer Unit := do
  let submodule ← match dir with
    | some dir => loadSubmodule load dir name.name
    | none => pure (.error .notFound)
  match submodule with
  | .ok module => bindName scope binder (.module module) .module
  | .error .notFound =>
    -- a package that is still being loaded may define the name later
    if source.isSome then
      report (Diagnostic.error Diagnostic.Code.importedNameNotFound
        ("cannot import name '" ++ name.name ++ "' from '" ++ origin ++ "'") name.span)
    bindName scope binder .unknown .variable
  | .error _ => bindName scope binder .unknown .module

def importName (source : Option ModuleId) (dir : Option Path) (origin : String) (scope : ScopeId)
    (a : Alias) : Infer Unit := do
  match a.name.head? with
  | none => return ()
  | some name =>
    let s ← get
    match source.bind fun m => s.attributeBindings (.module m) name.name with
    | some ids => importBindings ids name (a.asName.getD name) scope
    | none => importMember load source dir name (a.asName.getD name) origin scope

/-- Loads the module of `from m import ...`. -/
def loadOrigin (module : List Ident) (level : Nat) : Infer Loaded := do
  if level = 0 then loadModule load module none
  else
    match (← get).relativeBase? level with
    | none => return .error .notFound
    | some dir => if module.isEmpty then loadPackage load dir else loadSegments load none module dir none

/-- The directory in which the names of `from m import ...` may be submodules. -/
def originDir? (s : Analysis) (source : Loaded) (module : List Ident) (level : Nat) : Option Path :=
  match source with
  | .ok m => s.packageDir? m
  | .error _ => if module.isEmpty && 0 < level then s.relativeBase? level else none

/-- `from m import names`, with the number of dots before `m`. -/
def importFrom (span : Span) (module : List Ident) (level : Nat) (names : ImportNames)
    (scope : ScopeId) : Infer Unit := do
  let source ← loadOrigin load module level
  let dir := originDir? (← get) source module level
  let origin := String.ofList (List.replicate level '.') ++ dottedName module
  match names, source with
  | .star _, .ok m => importStar m scope
  | .star _, .error failure => importFailed failure origin span
  | .names aliases, .ok m => aliases.forM (importName load (some m) dir origin scope)
  | .names aliases, .error failure =>
    if dir.isNone then
      importFailed failure origin span
      aliases.forM fun a => bindUnknown scope a .variable
    else aliases.forM (importName load none dir origin scope)

end

end Infer

end TypeInfer
