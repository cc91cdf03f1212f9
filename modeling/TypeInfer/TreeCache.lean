/-
The cache of syntax trees. A tree is kept in memory under its file, together with
a key made of the digests of path and content, so that a changed file is read
anew. Where a directory is given, trees are also stored there under their key
and outlive the run.
-/
import TypeInfer.Digest
import TypeInfer.Grammar.Module
import TypeInfer.Journal
import TypeInfer.Syntax.Decode

namespace TypeInfer

/-- The name under which the tree of a file with the given content is stored. -/
def fileKey (path : Path) (content : String) : String :=
  Digest.ofText path.text ++ "." ++ Digest.ofText content

inductive TreeError where
  | faulty (path : Path) (faults : List Diagnostic)
  | unreadable (path : Path) (cause : FileError)
deriving Inhabited

def TreeError.message : TreeError → String
  | .faulty path faults => path.text ++ ": " ++ toString faults.length ++ " syntax error(s)"
  | .unreadable path cause => "cannot read " ++ path.text ++ ": " ++ cause.message

structure CacheStats where
  /-- Files that were parsed. -/
  parses : Nat := 0
  memoryHits : Nat := 0
  diskHits : Nat := 0
deriving DecidableEq, Repr, Inhabited

/-- A tree in memory, with the file and the key it was made from. -/
structure CacheEntry where
  path : Path
  key : String
  tree : Module
deriving Inhabited

structure TreeCache where
  dir : Option Path := none
  entries : List CacheEntry := []
  stats : CacheStats := {}
deriving Inhabited

namespace TreeCache

def entry? (c : TreeCache) (path : Path) : Option CacheEntry := c.entries.find? (·.path.same path)

/-- Keeps a tree in memory in place of the file's earlier one. -/
def remember (c : TreeCache) (e : CacheEntry) : TreeCache :=
  { c with entries := e :: c.entries.filter (!·.path.same e.path) }

/-- The file that stores the tree with the given key. -/
def entryPath? (c : TreeCache) (key : String) : Option Path :=
  c.dir.map (·.child (key ++ ".json"))

end TreeCache

/-- The files, the trees read from them, and the record of events. -/
structure Workspace where
  files : FileTree
  cache : TreeCache := {}
  journal : Array LogEvent := #[]
deriving Inhabited

namespace Workspace

abbrev Action := StateM Workspace

def log (e : LogEvent) : Action Unit := modify fun w => { w with journal := w.journal.push e }

def countHit (f : CacheStats → CacheStats) : Action Unit :=
  modify fun w => { w with cache.stats := f w.cache.stats }

/-- The tree stored under a key, if it is there and can be read back. -/
def storedTree? (key : String) : Action (Option Module) := do
  let w ← get
  match w.cache.entryPath? key with
  | none => return none
  | some entry =>
    if !w.files.fileExists entry then return none
    match w.files.read entry with
    | .error _ => return none
    | .ok text =>
      match Module.ofText? text with
      | some tree => return some tree
      | none =>
        log (.corruptEntry entry)
        return none

/-- Stores a tree under its key, if there is a directory for it. -/
def store (key : String) (tree : Module) : Action Unit := do
  let w ← get
  match w.cache.entryPath? key with
  | none => return
  | some entry =>
    match w.files.write entry tree.toText with
    | .ok files => set { w with files }
    | .error cause => log (.entryNotWritten entry cause)

/-- The tree of a file with the given content: from the store, or parsed. -/
def produce (path : Path) (content key : String) : Action (Except TreeError Module) := do
  match ← storedTree? key with
  | some tree =>
    log (.cacheHit path)
    countHit fun s => { s with diskHits := s.diskHits + 1 }
    return .ok tree
  | none =>
    countHit fun s => { s with parses := s.parses + 1 }
    match parseText content path with
    | .error faults => return .error (.faulty path faults)
    | .ok tree =>
      store key tree
      return .ok tree

/-- The tree of a file. It is parsed only when no tree for its content is at hand. -/
def treeOf (path : Path) : Action (Except TreeError Module) := do
  let w ← get
  match w.files.read path with
  | .error cause => return .error (.unreadable path cause)
  | .ok content =>
    let key := fileKey path content
    match (w.cache.entry? path).filter (·.key == key) with
    | some e =>
      countHit fun s => { s with memoryHits := s.memoryHits + 1 }
      return .ok e.tree
    | none =>
      match ← produce path content key with
      | .error e => return .error e
      | .ok tree =>
        modify fun w => { w with cache := w.cache.remember ⟨path, key, tree⟩ }
        return .ok tree

/-- Forgets the trees in memory. -/
def forget : Action Unit := modify fun w => { w with cache.entries := [] }

/-- Forgets all trees, the stored ones too. -/
def clearCache : Action (Except FileError Unit) := do
  forget
  let w ← get
  match w.cache.dir with
  | none => return .ok ()
  | some dir =>
    match w.files.removeDir dir with
    | .error cause => return .error cause
    | .ok files =>
      set { w with files }
      match files.makeDirs dir with
      | .error cause => return .error cause
      | .ok files =>
        set { w with files }
        return .ok ()

end Workspace

end TypeInfer
