/-
The command line program. It takes a picture of the files that an analysis may
look at, runs the command on the picture, prints the report, and brings the stored
trees on the disk up to date.
-/
import TypeInfer.Cli.Command

namespace TypeInfer.Program

def usage : String :=
  "Usage: pyinfer [--json] [-q|--quiet] [-v|--verbose] analyze <PATH> [--path <DIR>]...\n" ++
    "               [--no-cache] [--clear-cache] [--bindings]\n"

def usageMessage : UsageError → String
  | .help | .nothing => usage
  | .version => "pyinfer 0.1.0\n"
  | .missingCommand => "error: a command is required\n" ++ usage
  | .unknownCommand => "error: unknown command\n" ++ usage
  | .missingPath => "error: a path is required\n" ++ usage
  | .unknownArgument => "error: unexpected argument\n" ++ usage
  | .conflict => "error: arguments that cannot be used together or twice\n" ++ usage
  | .invalidValue => "error: a value is required\n" ++ usage
  | .unneededValue => "error: a flag takes no value\n" ++ usage

/-- Whether a file matters to an analysis. -/
def isRelevant (p : Path) : Bool :=
  p.isSourceFile || p.fileName? == some Config.fileName || p.extension? == some "json"

/-- Adds a file as far as it is a readable text. -/
def pictureFile (tree : FileTree) (p : Path) : IO FileTree := do
  match ← (IO.FS.readFile p.text).toBaseIO with
  | .ok text => return tree.addFile p text
  | .error _ => return { tree.addFile p "" with denyRead := p :: tree.denyRead }

/-- Adds a directory, and what is below it to the given depth. -/
def pictureDir : Nat → FileTree → Path → IO FileTree
  | 0, tree, _ => return tree
  | depth + 1, tree, dir => do
    let here := (← IO.currentDir) / dir.text
    if !(← here.isDir) then return tree
    let mut tree := tree.addDirs dir
    for entry in ← here.readDir do
      let p := dir.child entry.fileName
      if ← entry.path.isDir then tree ← pictureDir depth tree p
      else if isRelevant p then tree ← pictureFile tree p
    return tree

/-- How deep directories are followed. -/
def depth : Nat := 64

/-- The files that an analysis with the given arguments may look at. -/
def picture (a : Arguments) : IO FileTree := do
  let cwd : Path := ⟨(← IO.currentDir).toString⟩
  let env := (← IO.getEnv "PYTHONPATH").toList.map fun value => ("PYTHONPATH", value)
  let tree : FileTree := { cwd, env, strict := true }
  let root := tree.fullPath a.path
  let isDir ← ((← IO.currentDir) / root.text).isDir
  let project := if isDir then root else root.parentOrSelf
  let tree ← pictureDir depth tree project
  let around ← project.ancestors.tail.foldlM (pictureDir 1) tree
  match a.config around with
  | .error _ => return around
  | .ok config =>
    let s := Analysis.fresh { files := around } config
    let dirs := s.loadPath ++ [Analysis.cacheDir around config]
    dirs.foldlM (pictureDir depth) around

/-- Brings the disk up to date with what a command did to the picture. -/
def update (before after : FileTree) : IO Unit := do
  for (p, _) in before.files do
    if (after.files.lookup p).isNone then IO.FS.removeFile p.text
  for dir in after.dirs do
    if !before.dirs.contains dir then IO.FS.createDirAll dir.text
  for (p, text) in after.files do
    if before.files.lookup p != some text then IO.FS.writeFile p.text text

/-- Whether events of a level are shown when `least` is the least important one. -/
def isShown (least : Level) : Level → Bool
  | .warn => true
  | .info => least != .warn
  | .debug => least == .debug

def run (a : Arguments) : IO UInt32 := do
  let start ← IO.monoMsNow
  let files ← picture a
  match a.run { files } with
  | .error e =>
    IO.eprintln ("Error: " ++ e.message)
    return 1
  | .ok s =>
    let elapsed := clock ((← IO.monoMsNow) - start |> (· / 1000))
    for event in s.work.journal do
      if isShown a.logLevel event.level then IO.eprintln (event.line elapsed)
    update files s.files
    IO.print (a.report s elapsed)
    return if s.succeeded then 0 else 1

end TypeInfer.Program

def main (args : List String) : IO UInt32 := do
  match TypeInfer.Arguments.parse args with
  | .error e =>
    let message := TypeInfer.Program.usageMessage e
    if e == .help || e == .version then
      IO.print message
      return 0
    else
      IO.eprint message
      return 2
  | .ok a => TypeInfer.Program.run a
