/-
The layout of lines. Line ends inside brackets and on lines without a token say nothing; any other
one ends a logical line. The margin of the first token of a line opens or closes blocks. `layout`
gives the tokens and the faults found.
-/
import TypeInfer.Diagnostic
import TypeInfer.Source
import TypeInfer.Token.Scan

namespace TypeInfer.Token

/-- Where the current line starts, and how wide the text since then is. -/
structure Margin where
  lineStart : Nat
  width : Nat
deriving DecidableEq, Repr, Inhabited

namespace Margin

/-- A tab goes to the next multiple of 8, a form feed starts the count again. -/
def widen (width : Nat) (c : Char) : Nat :=
  if c == '\t' then (width / 8 + 1) * 8 else if c.toNat == 0x0c then 0 else width + 1

/-- The margin after the text, which starts at `offset`. -/
def advance : Margin → Nat → List Char → Margin
  | m, _, [] => m
  | m, offset, c :: cs =>
    let next := offset + c.utf8Size
    advance (if c == '\n' then ⟨next, 0⟩ else { m with width := widen m.width c }) next cs

end Margin

/-- What the walk over the lexemes knows, with the widths of the open blocks, the innermost first.
-/
structure LayoutState where
  offset : Nat := 0
  margin : Margin := ⟨0, 0⟩
  depth : Nat := 0
  atLineStart : Bool := true
  indents : List Nat := []
deriving Inhabited

abbrev Event := Token ⊕ Diagnostic

def depthAfter (depth : Nat) : TokenKind → Nat
  | .symbol s => if s.isOpening then depth + 1 else if s.isClosing then depth - 1 else depth
  | _ => depth

/-- The open blocks and the layout tokens before the first token of a line. -/
def indentTo (source : Source) (state : LayoutState) (span : Span) : List Nat × List Event :=
  let width := state.margin.width
  let current := state.indents.headD 0
  if current < width then
    (width :: state.indents, [.inl ⟨.indent, source.span state.margin.lineStart state.offset⟩])
  else
    let kept := state.indents.dropWhile (width < ·)
    let closed := state.indents.length - kept.length
    let dedents := List.replicate closed (Sum.inl ⟨.dedent, span⟩)
    if width = kept.headD 0 then (kept, dedents)
    else
      (kept, dedents ++ [.inr (.error Diagnostic.Code.inconsistentDedent
        "Unindent does not match any outer indentation level" span)])

/-- The fault that a lexeme without a token is. -/
def faultOf (text : List Char) (span : Span) : Diagnostic :=
  if text.any isQuote then
    .error Diagnostic.Code.unterminatedString "Unterminated string literal" span
  else .error Diagnostic.Code.unexpectedToken ("Unexpected character: " ++ Text.quoted text) span

/-- What one lexeme gives, and the state after it. -/
def layoutStep (source : Source) (state : LayoutState) (lexeme : Lexeme) (text : List Char) :
    LayoutState × List Event :=
  let stop := state.offset + Text.utf8Length text
  let span := source.span state.offset stop
  let moved := { state with offset := stop, margin := state.margin.advance state.offset text }
  match lexeme with
  | .blank => (moved, [])
  | .lineEnd =>
    if state.depth = 0 && !state.atLineStart then
      ({ moved with atLineStart := true }, [.inl ⟨.newline, span⟩])
    else (moved, [])
  | .token kind =>
    let (indents, margin) :=
      if state.atLineStart then indentTo source state span else (state.indents, [])
    ({ moved with atLineStart := false, indents, depth := depthAfter state.depth kind },
      margin ++ [.inl ⟨kind, span⟩])
  | .unterminated | .stray => ({ moved with atLineStart := false }, [.inr (faultOf text span)])

/-- The end of the text ends its last line and closes all blocks. -/
def layoutEnd (source : Source) (state : LayoutState) : List Event :=
  let eof := source.endSpan
  (if state.atLineStart then [] else [.inl ⟨.newline, eof⟩]) ++
    List.replicate state.indents.length (.inl ⟨.dedent, eof⟩) ++ [.inl ⟨.eof, eof⟩]

def layout (source : Source) : LayoutState → List (Lexeme × List Char) → List Event
  | state, [] => layoutEnd source state
  | state, (lexeme, text) :: rest =>
    let (state, events) := layoutStep source state lexeme text
    events ++ layout source state rest

def tokensOf (events : List Event) : List Token := events.filterMap Sum.getLeft?

def faultsOf (events : List Event) : List Diagnostic := events.filterMap Sum.getRight?

/-- The tokens of a source text, or all of its faults. -/
def tokenize (source : Source) : Except (List Diagnostic) (List Token) :=
  let events := layout source {} (lexemes source.text.toList)
  let faults := faultsOf events
  if faults.isEmpty then .ok (tokensOf events) else .error faults

end TypeInfer.Token
