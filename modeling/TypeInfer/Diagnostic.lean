/-
Problems found in a source file: a stable code, a severity, a message and the
place, with optional notes. They are shown to a reader with the source line and
an underline, or written as JSON.
-/
import TypeInfer.Span
import TypeInfer.Json.Reader

namespace TypeInfer

namespace Span

def fieldNames : List String :=
  ["file", "start", "end", "start_line", "start_col", "end_line", "end_col"]

def toJson (s : Span) : Json :=
  .obj [("file", .str s.file.text), ("start", .num s.start), ("end", .num s.stop),
    ("start_line", .num s.startLine), ("start_col", .num s.startCol),
    ("end_line", .num s.endLine), ("end_col", .num s.endCol)]

def ofJson? : Nat → Json → Option Span
  | 0, _ => none
  | _ + 1, j => do
    let fields ← j.fields? fieldNames 0
    return {
      file := ⟨← fields.get "file" Json.str?⟩
      start := ← fields.get "start" Json.nat?
      stop := ← fields.get "end" Json.nat?
      startLine := ← fields.get "start_line" Json.nat?
      startCol := ← fields.get "start_col" Json.nat?
      endLine := ← fields.get "end_line" Json.nat?
      endCol := ← fields.get "end_col" Json.nat? }

end Span

inductive Severity where
  | error
  | warning
  | info
deriving DecidableEq, Repr, Inhabited

namespace Severity

def label : Severity → String
  | .error => "error"
  | .warning => "warning"
  | .info => "info"

def ofLabel? : String → Option Severity
  | "error" => some .error
  | "warning" => some .warning
  | "info" => some .info
  | _ => none

end Severity

structure Note where
  message : String
  span : Option Span
deriving DecidableEq, Repr, Inhabited

structure Diagnostic where
  code : String
  severity : Severity
  message : String
  span : Span
  notes : List Note := []
deriving DecidableEq, Repr, Inhabited

namespace Diagnostic

/-! ### Codes -/

namespace Code

def unexpectedToken := "E0001"
def unterminatedString := "E0002"
def unexpectedIndent := "E0003"
def inconsistentDedent := "E0004"
def invalidTarget := "E0005"
def unexpectedEnd := "E0008"
def unreadableFile := "E0100"
def unresolvedName := "E1002"
def moduleNotFound := "E1003"
def importedNameNotFound := "E1004"
def malformedNode := "E1020"
def unusedVariable := "W0001"

end Code

def error (code message : String) (span : Span) : Diagnostic := { code, severity := .error, message, span }

def warning (code message : String) (span : Span) : Diagnostic := { code, severity := .warning, message, span }

def isError (d : Diagnostic) : Bool := d.severity == .error

/-! ### JSON -/

def noteToJson (n : Note) : Json :=
  .obj (("message", .str n.message) :: (n.span.map fun s => ("span", s.toJson)).toList)

def noteOfJson? : Nat → Json → Option Note
  | 0, _ => none
  | budget + 1, j => do
    let fields ← j.fields? ["message", "span"] 0
    return {
      message := ← fields.get "message" Json.str?
      span := ← fields.get? "span" (Span.ofJson? budget) }

/-- An empty list of notes is left out. -/
def toJson (d : Diagnostic) : Json :=
  let notes := if d.notes.isEmpty then [] else [("notes", Json.arr (d.notes.map noteToJson))]
  .obj ([("code", .str d.code), ("severity", .str d.severity.label), ("message", .str d.message),
    ("span", d.span.toJson)] ++ notes)

def severityOfJson? (budget : Nat) (j : Json) : Option Severity := do
  Severity.ofLabel? (← j.label? budget)

/-- The notes may be left out, but not null. -/
def ofJson? : Nat → Json → Option Diagnostic
  | 0, _ => none
  | budget + 1, j => do
    let fields ← j.fields? ["code", "severity", "message", "span", "notes"] 1
    return {
      code := ← fields.get "code" Json.str?
      severity := ← fields.get "severity" (severityOfJson? budget)
      message := ← fields.get "message" Json.str?
      span := ← fields.get "span" (Span.ofJson? budget)
      notes := ← ((fields.lookup "notes").getD (.arr [])).list? noteOfJson? budget }

def ofText? (s : String) : Option Diagnostic := do ofJson? Json.nestingLimit (← Json.parse? s)

/-! ### Text for a reader -/

/-- The text moved right to the given width. -/
def padLeft (width : Nat) (s : String) : String :=
  String.ofList (List.replicate (width - s.length) ' ') ++ s

/-- The underline goes to the end of the span or of the line; it has at least one mark. -/
def underlineLength (span : Span) (line : List Char) : Nat :=
  let wanted :=
    if span.endLine = span.startLine then span.endCol - span.startCol
    else Text.utf8Length line - (span.startCol - 1)
  max wanted 1

/-- The source line of a diagnostic with its underline, if the text has that line. -/
def excerpt (span : Span) (source : String) : String :=
  if span.startLine = 0 then "" else
    match (Text.lines source.toList)[span.startLine - 1]? with
    | none => ""
    | some line =>
      "   |\n" ++ padLeft 3 (toString span.startLine) ++ " | " ++ String.ofList line ++ "\n   | " ++
        String.ofList (List.replicate (span.startCol - 1) ' ') ++
        String.ofList (List.replicate (underlineLength span line) '^') ++ "\n"

def render (d : Diagnostic) (source : String) : String :=
  d.severity.label ++ "[" ++ d.code ++ "]: " ++ d.message ++ "\n  --> " ++ d.span.file.text ++ ":" ++
    toString d.span.startLine ++ ":" ++ toString d.span.startCol ++ "\n" ++
    excerpt d.span source ++
    String.join (d.notes.map fun n => "   = note: " ++ n.message ++ "\n")

/-! ### Lists of diagnostics -/

def errorCount (ds : List Diagnostic) : Nat := ds.countP isError

def warningCount (ds : List Diagnostic) : Nat := ds.countP (·.severity == .warning)

def listToJson (ds : List Diagnostic) : Json := .arr (ds.map toJson)

def renderList (ds : List Diagnostic) (source : String) : String :=
  Text.join "\n\n" (ds.map (render · source))

end Diagnostic

end TypeInfer
