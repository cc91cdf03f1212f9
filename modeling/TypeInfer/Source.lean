/-
The text of a source file and the positions in it. Offsets count bytes; the
line of an offset is found from the offsets at which lines start.
-/
import TypeInfer.Span

namespace TypeInfer

/-- Offsets right after each line feed of `cs`, which itself starts at `offset`. -/
def lineStartsFrom : Nat → List Char → List Nat
  | _, [] => []
  | offset, c :: cs =>
    let next := offset + c.utf8Size
    if c = '\n' then next :: lineStartsFrom next cs else lineStartsFrom next cs

def lineStarts (text : String) : List Nat := 0 :: lineStartsFrom 0 text.toList

structure Source where
  path : Path
  text : String
  lineStarts : List Nat
  lineStarts_eq : lineStarts = TypeInfer.lineStarts text

namespace Source

def ofText (path : Path) (text : String) : Source := ⟨path, text, TypeInfer.lineStarts text, rfl⟩

def length (s : Source) : Nat := s.text.utf8ByteSize

/-- Line and column of an offset, from the start of the given line and those after it. -/
def positionFrom (offset : Nat) : Nat → Nat → List Nat → Nat × Nat
  | line, start, [] => (line, offset - start + 1)
  | line, start, next :: more =>
    if next ≤ offset then positionFrom offset (line + 1) next more else (line, offset - start + 1)

/-- Line and column of a byte offset. -/
def position (s : Source) (offset : Nat) : Nat × Nat := positionFrom offset 1 0 s.lineStarts.tail

def span (s : Source) (start stop : Nat) : Span :=
  let (startLine, startCol) := s.position start
  let (endLine, endCol) := s.position stop
  { file := s.path, start, stop, startLine, startCol, endLine, endCol }

def endSpan (s : Source) : Span := s.span s.length s.length

/-- Line number `n`, without its line end. -/
def line? (s : Source) (n : Nat) : Option String :=
  if n = 0 then none
  else (Text.splitOn '\n' s.text.toList)[n - 1]?.map (String.ofList <| Text.trimEnd '\r' ·)

end Source

end TypeInfer
