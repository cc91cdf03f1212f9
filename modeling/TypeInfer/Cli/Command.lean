/-
The command `analyze`: settings from the project and the arguments, an analysis of
the whole project, and a report as text or as JSON.
-/
import TypeInfer.Analysis.Project
import TypeInfer.Cli.Arguments

namespace TypeInfer

inductive CommandError where
  | analysis (cause : AnalysisError)
  /-- Applications and loads nest too deep. -/
  | outOfDepth
deriving DecidableEq, Repr, Inhabited

def CommandError.message : CommandError → String
  | .analysis cause => cause.message
  | .outOfDepth => "the program nests too deep"

namespace Arguments

/-- The settings of the project, changed as the arguments say. -/
def config (a : Arguments) (files : FileTree) : Except ConfigError Config := do
  let config ← Config.load files (files.projectDir (files.fullPath a.path))
  return { config with
    searchPaths := config.searchPaths ++ a.searchPaths.map files.fullPath
    diskCache := config.diskCache && !a.noCache
    quiet := config.quiet || a.quiet }

def start (a : Arguments) (work : Workspace) : Except AnalysisError Analysis := do
  let config ← (a.config work.files).mapError .config
  let s ← Analysis.start work config
  if a.clearCache then
    let (result, s) := s.clearCache
    result
    return s
  else return s

def run (a : Arguments) (work : Workspace) : Except CommandError Analysis := do
  let s ← (a.start work).mapError .analysis
  match (do Infer.analyze (s.files.fullPath a.path); Infer.finish : Infer Unit).run s with
  | some (_, s) => return s.close
  | none => .error .outOfDepth

end Arguments

/-! ### Reports -/

/-- Hours, minutes and seconds. -/
def clock (seconds : Nat) : String :=
  let two (n : Nat) := (if n < 10 then "0" else "") ++ toString n
  two (seconds / 3600) ++ ":" ++ two (seconds / 60 % 60) ++ ":" ++ two (seconds % 60)

namespace Analysis

/-- Whether all files have a tree. -/
def succeeded (s : Analysis) : Bool := s.failures.isEmpty

/-- All that is wrong: first with the files, then with the code. -/
def diagnostics (s : Analysis) : List Diagnostic :=
  (s.failuresByFile ++ s.problemsByFile).flatMap Prod.snd

/-- The text of a type; one that would have no end is cut. -/
def describe (s : Analysis) (t : Ty) : String := (s.types.describe? t).getD "..."

def bindingToJson (s : Analysis) (b : Binding) : Json :=
  .obj [("name", .str b.name), ("qname", .str b.qname), ("kind", .str b.kind.label),
    ("type", .str (s.describe b.ty)), ("file", .str b.node.file.text),
    ("line", .num b.node.startLine), ("col", .num b.node.startCol), ("refs", .num b.refs.length)]

def bindingLine (s : Analysis) (b : Binding) : String :=
  b.node.file.text ++ ":" ++ toString b.node.startLine ++ ":" ++ toString b.node.startCol ++ " " ++
    b.kind.label ++ " " ++ b.qname ++ ": " ++ s.describe b.ty ++ " (" ++ toString b.refs.length ++
    " refs)\n"

def reportJson (s : Analysis) (withBindings : Bool) : String :=
  let bindings := if withBindings then
    [("bindings", Json.arr (s.bindings.map s.bindingToJson))] else []
  (Json.obj ([("diagnostics", Diagnostic.listToJson s.diagnostics)] ++ bindings ++
    [("stats", s.stats.toJson)])).pretty ++ "\n"

/-- A problem with the line of its source. -/
def diagnosticText (s : Analysis) (d : Diagnostic) : String :=
  d.render ((s.files.read d.span.file).toOption.getD "") ++ "\n"

def reportText (s : Analysis) (withBindings quiet : Bool) (elapsed : String) : String :=
  String.join (s.diagnostics.map s.diagnosticText) ++
    (if withBindings then String.join (s.bindings.map s.bindingLine) else "") ++
    (if quiet then "" else s.stats.summary elapsed ++ "\n")

end Analysis

/-- The report that the arguments ask for, on an analysis that took `elapsed`. -/
def Arguments.report (a : Arguments) (s : Analysis) (elapsed : String) : String :=
  if a.json then s.reportJson a.bindings else s.reportText a.bindings a.quiet elapsed

end TypeInfer
