/-
Reading a whole file: its tokens, then its tree. The bounds of the rules lie
above the number of tokens.
-/
import TypeInfer.Grammar.Statement
import TypeInfer.Token.Layout

namespace TypeInfer.Grammar

/-- The cursor at the first token of a file. -/
def Cursor.ofTokens (source : Source) (tokens : List Token) : Cursor :=
  { rest := tokens, last := source.span 0 0, stop := source.endSpan }

def moduleBody (tokens : List Token) : Rule (List Stmt) :=
  let bound := tokens.length + 1
  (blockRules (rules bound) bound).statements .eof

/-- The tree of a file with the given tokens, or all faults found. -/
def parseTokens (source : Source) (tokens : List Token) : Except (List Diagnostic) Module :=
  match moduleBody tokens (Cursor.ofTokens source tokens) with
  | .ok body c =>
    if c.faults.isEmpty then
      .ok { span := source.span 0 source.length, file := source.path, body }
    else .error c.faults
  | .error _ c => .error c.faults

end TypeInfer.Grammar

namespace TypeInfer

/-- The tree of a source text, or its faults. -/
def parse (source : Source) : Except (List Diagnostic) Module := do
  Grammar.parseTokens source (← Token.tokenize source)

def parseText (text : String) (path : Path) : Except (List Diagnostic) Module :=
  parse (Source.ofText path text)

end TypeInfer
