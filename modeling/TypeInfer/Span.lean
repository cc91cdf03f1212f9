/-
Source locations: a stretch of one file by byte offsets, with the line and column of both ends,
which start at 1. Spans of definitions of the library lie in a file below `<library>/`.
-/
import TypeInfer.Path

namespace TypeInfer

structure Span where
  file : Path
  start : Nat
  stop : Nat
  startLine : Nat
  startCol : Nat
  endLine : Nat
  endCol : Nat
deriving DecidableEq, Hashable, Repr, Inhabited

namespace Span

/-- By file, then by offsets, then by the remaining fields. -/
instance : Ord Span :=
  ⟨compareLex (compareOn file) <| compareLex (compareOn start) <| compareLex (compareOn stop) <|
    compareLex (compareOn startLine) <| compareLex (compareOn startCol) <|
    compareLex (compareOn endLine) (compareOn endCol)⟩

instance : Std.TransOrd Span :=
  inferInstanceAs (Std.TransCmp <|
    compareLex (compareOn file) <| compareLex (compareOn start) <| compareLex (compareOn stop) <|
    compareLex (compareOn startLine) <| compareLex (compareOn startCol) <|
    compareLex (compareOn endLine) (compareOn endCol))

/-- Whether two spans are the same place, whatever the spelling of their files. -/
def same (a b : Span) : Bool :=
  a.start == b.start && a.stop == b.stop && a.startLine == b.startLine && a.startCol == b.startCol &&
    a.endLine == b.endLine && a.endCol == b.endCol && a.file.same b.file

/-- The span with the plain spelling of its file. -/
def plain (s : Span) : Span := { s with file := s.file.plain }

def inFile (s : Span) (file : Path) : Bool := s.file.same file

/-- The span that stands for a whole file. -/
def ofFile (file : Path) : Span := ⟨file, 0, 0, 1, 1, 1, 1⟩

def libraryRoot : String := "<library>/"

/-- The span of a library definition, named by its dotted path. -/
def library (qname : String) : Span := ofFile ⟨libraryRoot ++ qname⟩

/-- Whether the span lies in the library model and not in a source file. -/
def isSynthetic (s : Span) : Bool := s.file.text.startsWith libraryRoot

/-- From the earlier start to the later end. On a tie of lines the columns are the first span's. -/
def merge (a b : Span) : Span where
  file := a.file
  start := min a.start b.start
  stop := max a.stop b.stop
  startLine := min a.startLine b.startLine
  startCol := if a.startLine ≤ b.startLine then a.startCol else b.startCol
  endLine := max a.endLine b.endLine
  endCol := if b.endLine ≤ a.endLine then a.endCol else b.endCol

end Span

end TypeInfer
