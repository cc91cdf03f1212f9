/-
The settings of an analysis, and the file in the project directory that may
hold them. Settings that the file leaves out have their default; what it holds
beyond them is ignored, but a known setting of a wrong kind makes it invalid.
-/
import TypeInfer.FileTree
import TypeInfer.Toml.Document
import TypeInfer.Toml.Printer

namespace TypeInfer

structure Config where
  /-- Directories searched for imports, after the project directory. -/
  searchPaths : List Path := []
  /-- Where trees are stored, unless in the temporary directory. -/
  cacheDir : Option Path := none
  /-- Whether trees are stored between runs. -/
  diskCache : Bool := true
  /-- Whether the environment adds directories to search for imports. -/
  usePythonPath : Bool := true
  quiet : Bool := false
  /-- Whether definitions without a reference are reported. -/
  reportUnused : Bool := true
deriving DecidableEq, Repr, Inhabited

inductive ConfigError where
  | unreadable (path : Path) (cause : FileError)
  | invalid
deriving DecidableEq, Repr, Inhabited

namespace Config

def fileName : String := "pyinfer.toml"

/-- Settings that touch nothing outside the analysed files. -/
def hermetic : Config := { diskCache := false, usePythonPath := false }

def textItem? : Toml.Item → Option String
  | .text s => some s
  | _ => none

def boolItem? : Toml.Item → Option Bool
  | .bool b => some b
  | _ => none

def textsItem? : Toml.Item → Option (List String)
  | .list items => items.mapM textItem?
  | _ => none

/-- The setting under a key, or its default where the key is missing. -/
def setting? (entries : Toml.Entries) (key : String) (read? : Toml.Item → Option α) (default : α) :
    Option α :=
  match entries.lookup key with
  | some item => read? item
  | none => some default

def ofEntries? (entries : Toml.Entries) : Option Config := do
  return {
    searchPaths := (← setting? entries "search_paths" textsItem? []).map Path.mk
    cacheDir := ← setting? entries "cache_dir" (fun i => (textItem? i).map (some ⟨·⟩)) none
    diskCache := ← setting? entries "disk_cache" boolItem? true
    usePythonPath := ← setting? entries "use_pythonpath" boolItem? true
    quiet := ← setting? entries "quiet" boolItem? false
    reportUnused := ← setting? entries "report_unused" boolItem? true }

def parse (text : String) : Except ConfigError Config :=
  match (Toml.parse? text).bind ofEntries? with
  | some config => .ok config
  | none => .error .invalid

/-- The settings of a project. Relative search paths start at the project. -/
def load (tree : FileTree) (project : Path) : Except ConfigError Config :=
  let path := project.child fileName
  if tree.fileExists path then
    match tree.read path with
    | .error cause => .error (.unreadable path cause)
    | .ok text => do
      let config ← parse text
      return { config with searchPaths := config.searchPaths.map project.join }
  else .ok {}

def render (c : Config) : String :=
  let line (key value : String) := key ++ " = " ++ value ++ "\n"
  line "search_paths" (Toml.renderList (c.searchPaths.map Path.text)) ++
    (c.cacheDir.map fun dir => line "cache_dir" (Toml.renderText dir.text)).getD "" ++
    line "disk_cache" (Toml.renderBool c.diskCache) ++
    line "use_pythonpath" (Toml.renderBool c.usePythonPath) ++
    line "quiet" (Toml.renderBool c.quiet) ++
    line "report_unused" (Toml.renderBool c.reportUnused)

end Config

def ConfigError.message : ConfigError → String
  | .unreadable path cause => "cannot read " ++ path.text ++ ": " ++ cause.message
  | .invalid => "invalid " ++ Config.fileName

end TypeInfer
