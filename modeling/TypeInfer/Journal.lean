/-
What an analysis puts on record as it goes along: events with a level, and the
line of text that each is shown as.
-/
import TypeInfer.Analysis.Stats
import TypeInfer.FileTree

namespace TypeInfer

inductive Level where
  | warn
  | info
  | debug
deriving DecidableEq, Repr, Inhabited

def Level.label : Level → String
  | .warn => "WARN"
  | .info => "INFO"
  | .debug => "DEBUG"

inductive LogEvent where
  | cacheAt (dir : Path)
  | cacheHit (file : Path)
  /-- A stored tree that cannot be read back. -/
  | corruptEntry (entry : Path)
  | entryNotWritten (entry : Path) (cause : FileError)
  | loadingTree (count : Nat) (root : Path)
  | notListed (dir : Path) (cause : FileError)
  | loading (file : Path)
  | fileMissing (file : Path)
  | importCycle (file : Path)
  | faulty (file : Path) (count : Nat)
  | unreadable (file : Path) (cause : FileError)
  | loaded (functionsCalled : Nat)
  | uncalledStart
  | uncalledPass (pass count : Nat)
  | applyingUncalled (qname : String)
  | summary (stats : Stats)
deriving DecidableEq, Repr, Inhabited

def Stats.summary (s : Stats) (elapsed : String) : String :=
  "\n---------------- analysis summary ----------------\n- total time: " ++ elapsed ++ "\n" ++
    s.render

namespace LogEvent

def level : LogEvent → Level
  | .cacheAt _ | .loadingTree _ _ | .loaded _ | .uncalledStart | .summary _ => .info
  | .cacheHit _ | .loading _ | .importCycle _ | .uncalledPass _ _ | .applyingUncalled _ => .debug
  | .corruptEntry _ | .entryNotWritten _ _ | .notListed _ _ | .fileMissing _ | .faulty _ _
  | .unreadable _ _ => .warn

/-- The text of an event, at a time when the analysis took `elapsed`. -/
def render (elapsed : String) : LogEvent → String
  | .cacheAt dir => "AST cache is at: " ++ dir.text
  | .cacheHit file => "ast cache hit for " ++ file.text
  | .corruptEntry entry => "ignoring corrupt cache entry " ++ entry.text
  | .entryNotWritten entry cause =>
    "failed to write cache entry " ++ entry.text ++ ": " ++ cause.message
  | .loadingTree count root => "Loading " ++ toString count ++ " files under " ++ root.text
  | .notListed dir cause => "cannot list " ++ dir.text ++ ": " ++ cause.message
  | .loading file => "loading " ++ file.text
  | .fileMissing file => "file not found: " ++ file.text
  | .importCycle file => "import cycle through " ++ file.text
  | .faulty file count =>
    "failed to parse " ++ file.text ++ ": " ++ toString count ++ " syntax error(s)"
  | .unreadable file cause => "cannot read " ++ file.text ++ ": " ++ cause.message
  | .loaded functionsCalled =>
    "Finished loading files. " ++ toString functionsCalled ++ " functions were called."
  | .uncalledStart => "Analyzing uncalled functions"
  | .uncalledPass pass count =>
    "uncalled pass " ++ toString pass ++ ": " ++ toString count ++ " functions"
  | .applyingUncalled qname => "applying uncalled function " ++ qname
  | .summary stats => stats.summary elapsed

def line (elapsed : String) (e : LogEvent) : String := e.level.label ++ " " ++ e.render elapsed

end LogEvent

end TypeInfer
