/-
A run over a project: all source files below a directory are loaded in order, then
the functions that no call reached are applied with unknown arguments, and last
the names that were never found and the definitions that were never used are
reported.
-/
import TypeInfer.Analysis.Apply
import TypeInfer.Analysis.Report

namespace TypeInfer

/-! ### Files of a project -/

namespace FileTree

/-- How deep directories can nest. -/
def nesting (t : FileTree) : Nat := t.dirs.length + 1

/-- The number of source files at or below a path, to the given depth. -/
def countSources (t : FileTree) : Nat → Path → Nat
  | 0, _ => 0
  | depth + 1, p =>
    if t.dirExists p then
      match t.list p with
      | .ok entries => (entries.map (countSources t depth)).sum
      | .error _ => 0
    else if p.isSourceFile then 1
    else 0

/-- The directory of the project that a path belongs to. -/
def projectDir (t : FileTree) (full : Path) : Path :=
  if t.dirExists full then full else full.parentOrSelf

end FileTree

namespace Infer

/-- How deep applications and loads may nest unless it is said otherwise. -/
def depth : Nat := Nat.pow 2 62

/-- Loads the source files at or below a path, to the given number of levels of directories. -/
def loadWithin (load : Path → Infer Loaded) : Nat → Path → Infer Unit
  | 0, _ => outOfDepth
  | levels + 1, p => do
    let files := (← get).files
    if files.dirExists p then
      match files.list p with
      | .ok entries => entries.forM (loadWithin load levels)
      | .error cause => log (.notListed p cause)
    else if p.isSourceFile then discard (load p)
    else return ()

def loadAll (p : Path) (depth : Nat := Infer.depth) : Infer Unit := do
  loadWithin (load depth) (← get).files.nesting p

/-- Loads a project. The first project decides where imports are looked for. -/
def analyzeWith (load : Path → Infer Loaded) (root : Path) : Infer Unit := do
  let files := (← get).files
  let full := files.fullPath root
  modify fun s => { s with project := s.project <|> some (files.projectDir full) }
  log (.loadingTree (files.countSources files.nesting full) full)
  loadWithin load files.nesting full

def analyze (root : Path) (depth : Nat := Infer.depth) : Infer Unit := analyzeWith (load depth) root

/-! ### Functions that no call reached -/

/-- The receiver with which an uncalled function is applied. -/
def placeholderReceiver? (f : FunType) : Option Ty :=
  match f.owner, f.method with
  | some owner, .inst | some owner, .property => some (f.selfType.getD (.inst owner))
  | some owner, .cls => some (.cls owner)
  | _, _ => none

/-- Applies a function to unknown arguments. How a function is applied is a parameter. -/
def applyPlaceholder (apply : Application) (f : FunId) (d : FunctionDef) : Infer Unit := do
  let fn := (← get).types.function f
  let receiver := placeholderReceiver? fn
  log (.applyingUncalled fn.qname)
  discard (apply f receiver (.placeholder d.params receiver.isSome))

/-- Applies the functions that were not called meanwhile, once for each place of a definition. -/
def applyBatch (apply : Application) : List FunId → List Span → Infer (List Span)
  | [], applied => return applied
  | f :: more, applied => do
    let fn := (← get).types.function f
    match fn.definition? with
    | none => applyBatch apply more applied
    | some d =>
      if fn.called || applied.contains d.span.plain then applyBatch apply more applied
      else
        applyPlaceholder apply f d
        applyBatch apply more (d.span.plain :: applied)

/-- Applies uncalled functions until none is left, each place once. -/
def applyUncalled (apply : Application) : Nat → Nat → List Span → Infer Unit
  | 0, _, _ => outOfDepth
  | rounds + 1, pass, applied => do
    let batch := (← get).uncalled
    if batch.isEmpty then return ()
    modify fun s => { s with uncalled := [] }
    log (.uncalledPass pass batch.length)
    let applied ← applyBatch apply batch applied
    applyUncalled apply rounds (pass + 1) applied

/-- Ends an analysis, once: applies the uncalled functions, in at most so many rounds, and reports what
was not found and what was not used. -/
def finishWith (apply : Application) (rounds : Nat) : Infer Unit := do
  if (← get).finished then return ()
  modify fun s => { s with finished := true }
  log (.loaded (← get).callCount)
  log .uncalledStart
  applyUncalled apply rounds 1 []
  modify (·.reportUnresolved)
  if (← get).config.reportUnused then modify (·.reportUnused)
  modify (·.sortProblems)
  log (.summary (← get).stats)

def finish (depth : Nat := Infer.depth) : Infer Unit := finishWith (apply depth) depth

end Infer

/-! ### Starting an analysis -/

inductive AnalysisError where
  | cacheDirectory (dir : Path) (cause : FileError)
  | file (cause : FileError)
  | config (cause : ConfigError)
deriving DecidableEq, Repr, Inhabited

def AnalysisError.message : AnalysisError → String
  | .cacheDirectory dir cause => "cannot create cache directory " ++ dir.text ++ ": " ++ cause.message
  | .file cause => "i/o error: " ++ cause.message
  | .config cause => cause.message

namespace Analysis

def cacheDir (files : FileTree) (config : Config) : Path :=
  match config.cacheDir with
  | some dir => files.fullPath dir
  | none => (FileTree.tempDir.child "pyinfer").child "ast_cache"

/-- An analysis over a workspace of which nothing is loaded. -/
def fresh (work : Workspace) (config : Config) : Analysis :=
  let (library, draft) := Library.installed
  { work, config, library, scopes := draft.scopes, types := draft.types }

/-- Starts an analysis over the files of a workspace, with an empty cache. -/
def start (work : Workspace) (config : Config) : Except AnalysisError Analysis :=
  if config.diskCache then
    let dir := cacheDir work.files config
    match work.files.makeDirs dir with
    | .error cause => .error (.cacheDirectory dir cause)
    | .ok files =>
      .ok (fresh { files, cache := { dir := some dir }, journal := work.journal.push (.cacheAt dir) }
        config)
  else .ok (fresh { work with cache := {} } config)

def forProject (work : Workspace) (root : Path) : Except AnalysisError Analysis :=
  match Config.load work.files (work.files.projectDir (work.files.fullPath root)) with
  | .error cause => .error (.config cause)
  | .ok config => start work config

/-- Forgets the trees in memory. -/
def close (s : Analysis) : Analysis := { s with work := (Workspace.forget.run s.work).2 }

/-- Forgets all trees, the stored ones too. -/
def clearCache (s : Analysis) : Except AnalysisError Unit × Analysis :=
  let (result, work) := Workspace.clearCache.run s.work
  (result.mapError .file, { s with work })

end Analysis

end TypeInfer
