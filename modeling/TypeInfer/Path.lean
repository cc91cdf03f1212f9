/-
File paths. A path keeps the text it was written with, but `components` is what counts: paths are
compared component by component. `resolve` removes the `.` and `..` steps without looking at any
file.
-/
import TypeInfer.Text.Split

namespace TypeInfer

inductive Component where
  | root
  | here
  | up
  | name (text : String)
deriving DecidableEq, Repr, Inhabited

namespace Component

def text : Component → String
  | .root => "/"
  | .here => "."
  | .up => ".."
  | .name s => s

/-- The root comes first, then `.`, then `..`, then the names. -/
def rank : Component → Nat
  | .root => 0
  | .here => 1
  | .up => 2
  | .name _ => 3

instance : Ord Component := ⟨compareLex (compareOn rank) (compareOn text)⟩

instance : Std.TransOrd Component :=
  inferInstanceAs (Std.TransCmp (compareLex (compareOn rank) (compareOn text)))

end Component

/-- A file path as it was written. -/
structure Path where
  text : String
deriving DecidableEq, Hashable, Repr, Inhabited

namespace Path

/-- The stretches between the separators. -/
def segments (p : Path) : List String :=
  (Text.splitOn '/' p.text.toList).map String.ofList

def isAbsolute (p : Path) : Bool := p.text.toList.head? == some '/'

/-- An empty segment or an inner `.` says nothing. -/
def insignificant (segment : String) : Bool := segment == "" || segment == "."

/-- The step that a segment after the first one stands for. -/
def step? (segment : String) : Option Component :=
  if insignificant segment then none
  else if segment == ".." then some .up
  else some (.name segment)

/-- The steps of a path. A `.` counts only at the start of a relative path. -/
def components (p : Path) : List Component :=
  match p.segments with
  | [] => []
  | "" :: inner => (if p.isAbsolute then [.root] else []) ++ inner.filterMap step?
  | "." :: inner => .here :: inner.filterMap step?
  | first :: inner => (first :: inner).filterMap step?

/-- The plain spelling of a list of steps. -/
def ofComponents : List Component → Path
  | .root :: steps => ⟨"/" ++ Text.join "/" (steps.map Component.text)⟩
  | steps => ⟨Text.join "/" (steps.map Component.text)⟩

/-- By components; one spelling needs no look at them. -/
instance : Ord Path := ⟨fun p q => if p = q then .eq else compare p.components q.components⟩

theorem compare_eq (p q : Path) : compare p q = compare p.components q.components := by
  change (if p = q then _ else _) = _
  split
  · rename_i h
    rw [h]
    exact Std.ReflCmp.compare_self.symm
  · rfl

instance : Std.TransOrd Path := by
  have h : (compare : Path → Path → Ordering) = compareOn components := by
    funext p q
    exact compare_eq p q
  rw [Std.TransOrd, h]
  infer_instance

/-- Whether two spellings name the same place. -/
def same (p q : Path) : Bool := p == q || p.components == q.components

/-- The plain spelling of a path: paths that name the same place have the same one. -/
def plain (p : Path) : Path := ofComponents p.components

/-- `q` as seen from the directory `p`; an absolute `q` stands for itself. -/
def join (p q : Path) : Path :=
  if q.isAbsolute then q
  else if p.text == "" || p.text.toList.getLast? == some '/' then ⟨p.text ++ q.text⟩
  else ⟨p.text ++ "/" ++ q.text⟩

def child (p : Path) (name : String) : Path := p.join ⟨name⟩

/-- The directory that holds `p`; the root and the empty path have none. -/
def parent? (p : Path) : Option Path :=
  match p.segments with
  | [] => none
  | first :: inner =>
    match inner.reverse.dropWhile insignificant with
    | _ :: kept =>
      let rest := (kept.dropWhile insignificant).reverse
      if first == "" && rest.isEmpty then some ⟨"/"⟩ else some ⟨Text.join "/" (first :: rest)⟩
    | [] => if first == "" then none else some ⟨""⟩

def parentOrSelf (p : Path) : Path := p.parent?.getD p

def parentOrEmpty (p : Path) : Path := p.parent?.getD ⟨""⟩

/-- The last step, when it is a name. -/
def fileName? (p : Path) : Option String :=
  match p.components.getLast? with
  | some (.name s) => some s
  | _ => none

/-- Replaces the last name, or adds one where there is none. -/
def withFileName (p : Path) (name : String) : Path :=
  if p.fileName?.isSome then p.parentOrEmpty.child name else p.child name

/-- What follows the last dot of the file name; a name that only starts with a
dot has none. -/
def extension? (p : Path) : Option String := do
  let name ← p.fileName?
  match (Text.splitOn '.' name.toList).reverse with
  | last :: before :: more => if more.isEmpty && before.isEmpty then none else some (String.ofList last)
  | _ => none

/-- Whether `p` lies at or below `base`. -/
def startsWith (p base : Path) : Bool := base.components.isPrefixOf p.components

/-- The steps gone so far, last one first, after one more. A `..` takes back a
step, but neither the root nor the empty path has one to take back. -/
def resolveStep : List Component → Component → List Component
  | done, .here => done
  | [], .up => [.up]
  | .root :: done, .up => .up :: .root :: done
  | _ :: done, .up => done
  | done, c => c :: done

/-- The path without `.` steps, and with each `..` taking back the step before it. -/
def resolve (p : Path) : Path :=
  ofComponents (p.components.foldl resolveStep []).reverse

/-- The absolute, resolved form of `p`, seen from the directory `dir`. -/
def resolveFrom (dir p : Path) : Path :=
  if p.isAbsolute then p.resolve else (dir.join p).resolve

end Path

end TypeInfer
