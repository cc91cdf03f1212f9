/-
The counters of an analysis and how they are shown.
-/
import TypeInfer.Json.Basic

namespace TypeInfer

structure Stats where
  modulesLoaded : Nat := 0
  semanticProblems : Nat := 0
  failedToParse : Nat := 0
  definitions : Nat := 0
  crossReferences : Nat := 0
  references : Nat := 0
  resolvedNames : Nat := 0
  unresolvedNames : Nat := 0
  functionsCalled : Nat := 0
deriving DecidableEq, Repr, Inhabited

namespace Stats

/-- The share of names that were resolved, in whole percent. -/
def resolveRate (s : Stats) : String :=
  let total := s.resolvedNames + s.unresolvedNames
  if total = 0 then "100%" else toString (s.resolvedNames * 100 / total) ++ "%"

def render (s : Stats) : String :=
  let line (label : String) (n : Nat) := "- " ++ label ++ ": " ++ toString n ++ "\n"
  line "modules loaded" s.modulesLoaded ++
    line "semantic problems" s.semanticProblems ++
    line "failed to parse" s.failedToParse ++
    line "number of definitions" s.definitions ++
    line "number of cross references" s.crossReferences ++
    line "number of references" s.references ++
    line "resolved names" s.resolvedNames ++
    line "unresolved names" s.unresolvedNames ++
    "- name resolve rate: " ++ s.resolveRate

def toJson (s : Stats) : Json :=
  .obj [("modules_loaded", .num s.modulesLoaded), ("semantic_problems", .num s.semanticProblems),
    ("failed_to_parse", .num s.failedToParse), ("definitions", .num s.definitions),
    ("cross_references", .num s.crossReferences), ("references", .num s.references),
    ("resolved_names", .num s.resolvedNames), ("unresolved_names", .num s.unresolvedNames),
    ("functions_called", .num s.functionsCalled)]

end Stats

end TypeInfer
