/-
Applying functions and loading files. Both interpret other code, which may apply and load in
turn; the depth of this nesting is the only fuel there is.

A function is applied once per list of parameter types. An application in progress under the same
key gives the unknown type; keys name definitions by their places, so recursion comes to an end.
-/
import TypeInfer.Analysis.Eval

namespace TypeInfer

def Analysis.callKey (s : Analysis) (d : FunctionDef) (signature : List Ty) : CallKey :=
  ⟨d.span.plain, signature.map fun ty => (s.types.siteTy ty).plain⟩

namespace Infer

section

variable (c : Calls)

def bindArguments (body : ScopeId) (params : List Param) (signature : List Ty) : Infer Unit :=
  (params.zip signature).forM fun (param, ty) => discard (bindIn body param.name ty .parameter)

/-- Interprets the body of a definition, relative to its file, with the given parameter types. -/
def applyBody (f : FunId) (d : FunctionDef) (signature : List Ty) (key : CallKey) : Infer Ty := do
  let s ← get
  let fn := s.types.function f
  modify (·.enterCall f key d.span.file.parentOrEmpty)
  let body ← newScope .function fn.closure fn.qname
  bindArguments body d.params signature
  execBlock c d.body body
  let ret := (← get).returned
  modify (·.leaveCall f key signature s.dir)
  return ret

/-- Applies a definition, unless the result is known or in progress. -/
def applySource (f : FunId) (d : FunctionDef) (receiver : Option Ty) (args : CallArgs) :
    Infer Ty := do
  let s ← get
  let fn := s.types.function f
  let signature := args.signature s.library d.params fn.defaults receiver
  match fn.arrow? signature with
  | some ret => return ret
  | none =>
    let key := s.callKey d signature
    if s.running.contains key then return .unknown
    applyBody c f d signature key

def applyFunction (f : FunId) (receiver : Option Ty) (args : CallArgs) : Infer Ty := do
  match ((← get).types.function f).body with
  | .native (.fixed ret) => return ret
  | .native .firstArgument => return args.positional.head?.getD .unknown
  | .source d => applySource c f d receiver args

/-- The tree of a file. A file without one is put on record. -/
def treeOf (file : Path) : Infer (Option Module) := do
  let result ← modifyGet fun s =>
    let (result, work) := (Workspace.treeOf file).run s.work
    (result, { s with work })
  match result with
  | .ok tree => return some tree
  | .error (.faulty _ faults) =>
    log (.faulty file faults.length)
    modify (·.addFailure file faults)
    return none
  | .error (.unreadable path cause) =>
    log (.unreadable path cause)
    modify (·.addFailure file [Diagnostic.error Diagnostic.Code.unreadableFile
      (TreeError.unreadable path cause).message (Span.ofFile file)])
    return none

/-- Reads a file and interprets it as a module. -/
def interpretFile (file : Path) (qname : String) : Infer Loaded := do
  log (.loading file)
  match ← treeOf file with
  | none => return .error .unparsable
  | some tree =>
    let scope ← newScope .module ScopeTable.globalScope qname
    let id ← modifyGet fun s =>
      (s.addModule { name := file.moduleName, qname, file := some file, scope }).swap
    execBlock c tree.body scope
    modify (·.addLoaded file qname id)
    return .ok id

/-- Makes a module a member of the package that it belongs to. -/
def joinPackage (file : Path) (m : ModuleId) : Infer Unit := do
  match file.moduleDir?.map Path.initFile with
  | none => return ()
  | some init =>
    if init = file || !(← get).files.fileExists init then return ()
    match ← c.load init with
    | .error _ => return ()
    | .ok parent =>
      let s ← get
      let name : Ident := ⟨(s.types.module m).name, Span.ofFile file⟩
      discard (bindIn (s.types.module parent).scope name (.module m) .module)

def loadNew (file : Path) (qname : String) : Infer Loaded := do
  let dir := (← get).dir
  modify (·.enterFile file)
  let result ← interpretFile c file qname
  modify (·.leaveFile file dir)
  match result with
  | .ok id => joinPackage c file id
  | .error _ => pure ()
  return result

def loadFile (path : Path) : Infer Loaded := do
  let s ← get
  let file := s.files.fullPath path
  if !s.files.fileExists file then
    log (.fileMissing file)
    return .error .notFound
  let qname := file.moduleQname
  match s.modules.lookup qname with
  | some id => return .ok id
  | none =>
    if s.hasFailed file then return .error .unparsable
    if s.importing.contains file then
      log (.importCycle file)
      return .error .cycle
    loadNew c file qname

end

mutual

/-- Applies a function. Applications and loads nest at most as deep as given. -/
def apply : Nat → Application
  | 0, _, _, _ => outOfDepth
  | depth + 1, f, receiver, args => applyFunction ⟨apply depth, load depth⟩ f receiver args

/-- Loads a file. Applications and loads nest at most as deep as given. -/
def load : Nat → Path → Infer Loaded
  | 0, _ => outOfDepth
  | depth + 1, path => loadFile ⟨apply depth, load depth⟩ path

end

end Infer

end TypeInfer
