/-
What an analysis found, for the reader: bindings and references in order, the
problems of each file, and the counters.
-/
import TypeInfer.Analysis.Basic
import TypeInfer.Analysis.ModuleName

namespace TypeInfer.Analysis

/-! ### Problems -/

/-- The names that were looked up and never found, in order of the sites. -/
def unresolvedSites (s : Analysis) : List (Span × String) :=
  s.unresolved.toList.filter fun (site, _) => !s.resolved.contains site

def reportUnresolved (s : Analysis) : Analysis :=
  s.unresolvedSites.foldl (fun s (site, name) =>
    s.report (Diagnostic.error Diagnostic.Code.unresolvedName ("unresolved name: " ++ name) site)) s

/-- Whether it is worth a report when a binding is never used. -/
def isReportable (b : Binding) : Bool :=
  !b.isBuiltin && !b.name.startsWith "_" && !b.ty.isDeclaration && b.kind != .module &&
    !(b.kind == .parameter && (b.name == "self" || b.name == "cls"))

abbrev DefinitionSite := Span × String

/-- By place, then by name. -/
def DefinitionSite.before (a b : DefinitionSite) : Bool :=
  (compareLex (compareOn Prod.fst) (compareOn Prod.snd) a b).isLE

def DefinitionSite.same (a b : DefinitionSite) : Bool := a.1.same b.1 && a.2 == b.2

/-- The sites of the given bindings, each once and in order. -/
def sitesOf (bindings : List Binding) : List DefinitionSite :=
  ((bindings.map fun b => (b.node, b.name)).eraseDupsBy DefinitionSite.same).mergeSort
    DefinitionSite.before

/-- The sites of definitions of which no binding is used. -/
def unusedSites (s : Analysis) : List DefinitionSite :=
  let bindings := s.scopes.bindings.toList.filter isReportable
  let used := (bindings.filter Binding.isReferenced).map fun b => (b.node, b.name)
  (sitesOf (bindings.filter (!·.isReferenced))).filter fun site =>
    !used.any site.same

def reportUnused (s : Analysis) : Analysis :=
  s.unusedSites.foldl (fun s (node, name) =>
    s.report (Diagnostic.warning Diagnostic.Code.unusedVariable ("unused variable: " ++ name) node)) s

/-- Puts the problems of each file in order of place, then of code. -/
def sortProblems (s : Analysis) : Analysis :=
  { s with problems := s.problems.map fun _ found => found.mergeSort fun a b =>
    (compareLex (compareOn Diagnostic.span) (compareOn Diagnostic.code) a b).isLE }

def problemsIn (s : Analysis) (file : Path) : List Diagnostic := s.problems.getD file []

def problemsByFile (s : Analysis) : List (Path × List Diagnostic) := s.problems.toList

/-- The files without a tree, in order. -/
def failuresByFile (s : Analysis) : List (Path × List Diagnostic) :=
  s.failures.mergeSort fun a b => (compareOn Prod.fst a b).isLE

/-! ### Findings -/

/-- The bindings that a program makes, in order of place and name. -/
def bindings (s : Analysis) : List Binding :=
  (s.scopes.bindings.toList.filter (!·.isBuiltin)).mergeSort fun a b =>
    (compareLex (compareOn Binding.node) (compareOn Binding.name) a b).isLE

/-- The nodes with the bindings that they refer to, in order. -/
def referencesInOrder (s : Analysis) : List (Span × List BindingId) :=
  s.references.toList

def loadedSources (s : Analysis) : List Path := s.loaded.filter (·.extension? == some "py")

def moduleOf? (s : Analysis) (file : Path) : Option ModuleId :=
  s.modules.lookup (s.files.fullPath file).moduleQname

/-- The type of a top-level name of a loaded file. -/
def lookupIn? (s : Analysis) (file : Path) (name : String) : Option Ty := do
  let m ← s.moduleOf? file
  let ids ← s.scopes.lookupLocal (s.types.module m).scope name
  return s.scopes.typeOf ids

def stats (s : Analysis) : Stats :=
  let own := s.scopes.bindings.toList.filter (!·.isBuiltin)
  { modulesLoaded := s.loaded.length
    semanticProblems := (s.problems.values.map List.length).foldl Nat.add 0
    failedToParse := s.failures.length
    definitions := own.length
    crossReferences := (own.map (·.refs.length)).foldl Nat.add 0
    references := s.references.size
    resolvedNames := s.resolved.size
    unresolvedNames := s.unresolvedSites.length
    functionsCalled := s.callCount }

def overview (s : Analysis) : String :=
  "(analyzer: [" ++ toString s.scopes.bindings.size ++ " bindings] [" ++
    toString s.references.size ++ " refs] [" ++ toString s.loaded.length ++ " files])"

end TypeInfer.Analysis
