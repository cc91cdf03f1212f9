/-
A tree of text files with a current directory and an environment. Files and directories are kept
under their resolved absolute spelling. Reading, writing and listing can be denied below given
paths. In a strict tree a directory cannot be made where a file stands or below one.
-/
import TypeInfer.Path

namespace TypeInfer

inductive FileError where
  | missing (path : Path)
  | isFile (path : Path)
  | denied (path : Path)
  /-- A file stands where a directory is to be made, in a strict tree. -/
  | fileExists
  /-- A file stands above the directory to be made, in a strict tree. -/
  | notDirectory
deriving DecidableEq, Repr, Inhabited

def FileError.message : FileError → String
  | .missing p => p.text ++ ": no such file or directory"
  | .isFile p => p.text ++ " is a file"
  | .denied p => p.text ++ ": permission denied"
  | .fileExists => "File exists"
  | .notDirectory => "Not a directory"

structure FileTree where
  files : List (Path × String) := []
  dirs : List Path := [⟨"/"⟩]
  env : List (String × String) := []
  cwd : Path := ⟨"/"⟩
  strict : Bool := false
  denyRead : List Path := []
  denyWrite : List Path := []
  denyList : List Path := []
deriving Inhabited

namespace Path

/-- The path and the directories around it, from the inside out. -/
def ancestorsFrom : Nat → Path → List Path
  | 0, p => [p]
  | steps + 1, p => p :: (p.parent?.map (ancestorsFrom steps)).getD []

def ancestors (p : Path) : List Path := ancestorsFrom p.components.length p

end Path

namespace FileTree

/-- The path as seen from the current directory, resolved. -/
def fullPath (t : FileTree) (p : Path) : Path := t.cwd.resolveFrom p

def file? (t : FileTree) (p : Path) : Option String := t.files.lookup (t.fullPath p)

def fileExists (t : FileTree) (p : Path) : Bool := (t.file? p).isSome

def dirExists (t : FileTree) (p : Path) : Bool := t.dirs.contains (t.fullPath p)

def tempDir : Path := ⟨"/tmp"⟩

def envVar? (t : FileTree) (name : String) : Option String := t.env.lookup name

/-- Adds the directory and those around it that are not there yet. -/
def addDirs (t : FileTree) (dir : Path) : FileTree :=
  { t with dirs := t.dirs ++ dir.ancestors.takeWhile fun p => !t.dirs.contains p }

def putFile (t : FileTree) (full : Path) (text : String) : FileTree :=
  { t with files := t.files.filter (·.1 != full) ++ [(full, text)] }

/-- Adds a file with the directories around it. -/
def addFile (t : FileTree) (p : Path) (text : String) : FileTree :=
  let full := t.fullPath p
  let t := match full.parent? with
    | some dir => t.addDirs dir
    | none => t
  t.putFile full text

def isDenied (denied : List Path) (p : Path) : Bool := denied.any p.startsWith

def read (t : FileTree) (p : Path) : Except FileError String :=
  if isDenied t.denyRead p then .error (.denied p)
  else
    match t.file? p with
    | some text => .ok text
    | none => .error (.missing (t.fullPath p))

def isChild (dir p : Path) : Bool := p.parent? == some dir && p != dir

/-- What stands right in a directory, in order. -/
def list (t : FileTree) (p : Path) : Except FileError (List Path) :=
  if isDenied t.denyList p then .error (.denied p)
  else
    let dir := t.fullPath p
    if t.dirs.contains dir then
      let entries := (t.files.map Prod.fst ++ t.dirs).filter (isChild dir)
      .ok (entries.mergeSort fun a b => compare a b != .gt)
    else .error (.missing dir)

/-- Writes a file into a directory that is there. -/
def write (t : FileTree) (p : Path) (text : String) : Except FileError FileTree :=
  if isDenied t.denyWrite p then .error (.denied p)
  else
    let full := t.fullPath p
    match full.parent? with
    | some dir => if t.dirs.contains dir then .ok (t.putFile full text) else .error (.missing dir)
    | none => .error (.missing full)

def makeDirs (t : FileTree) (p : Path) : Except FileError FileTree :=
  let full := t.fullPath p
  let isFile (q : Path) : Bool := (t.files.lookup q).isSome
  if isFile full then .error (if t.strict then .fileExists else .isFile full)
  else if t.strict && full.ancestors.tail.any isFile then .error .notDirectory
  else .ok (t.addDirs full)

/-- Removes a directory with all that is below it, if it is there. -/
def removeDir (t : FileTree) (p : Path) : Except FileError FileTree :=
  if isDenied t.denyWrite p then .error (.denied p)
  else
    let full := t.fullPath p
    .ok { t with
      files := t.files.filter fun f => !f.1.startsWith full
      dirs := t.dirs.filter fun d => !d.startsWith full }

end FileTree

end TypeInfer
