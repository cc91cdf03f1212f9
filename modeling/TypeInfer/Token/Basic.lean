/-
Tokens: words and marks of the source with their spans, and the layout tokens
that stand for line ends and changes of indentation.
-/
import TypeInfer.Span
import TypeInfer.Syntax.Operator

namespace TypeInfer

inductive Keyword where
  | falseKw | noneKw | trueKw | andKw | asKw | assertKw | asyncKw | awaitKw | breakKw | classKw
  | continueKw | defKw | delKw | elifKw | elseKw | exceptKw | finallyKw | forKw | fromKw | globalKw
  | ifKw | importKw | inKw | isKw | lambdaKw | nonlocalKw | notKw | orKw | passKw | raiseKw
  | returnKw | tryKw | whileKw | withKw | yieldKw
deriving DecidableEq, Repr, Inhabited

namespace Keyword

def all : List Keyword :=
  [.falseKw, .noneKw, .trueKw, .andKw, .asKw, .assertKw, .asyncKw, .awaitKw, .breakKw, .classKw,
    .continueKw, .defKw, .delKw, .elifKw, .elseKw, .exceptKw, .finallyKw, .forKw, .fromKw,
    .globalKw, .ifKw, .importKw, .inKw, .isKw, .lambdaKw, .nonlocalKw, .notKw, .orKw, .passKw,
    .raiseKw, .returnKw, .tryKw, .whileKw, .withKw, .yieldKw]

def text : Keyword → String
  | .falseKw => "False"
  | .noneKw => "None"
  | .trueKw => "True"
  | .andKw => "and"
  | .asKw => "as"
  | .assertKw => "assert"
  | .asyncKw => "async"
  | .awaitKw => "await"
  | .breakKw => "break"
  | .classKw => "class"
  | .continueKw => "continue"
  | .defKw => "def"
  | .delKw => "del"
  | .elifKw => "elif"
  | .elseKw => "else"
  | .exceptKw => "except"
  | .finallyKw => "finally"
  | .forKw => "for"
  | .fromKw => "from"
  | .globalKw => "global"
  | .ifKw => "if"
  | .importKw => "import"
  | .inKw => "in"
  | .isKw => "is"
  | .lambdaKw => "lambda"
  | .nonlocalKw => "nonlocal"
  | .notKw => "not"
  | .orKw => "or"
  | .passKw => "pass"
  | .raiseKw => "raise"
  | .returnKw => "return"
  | .tryKw => "try"
  | .whileKw => "while"
  | .withKw => "with"
  | .yieldKw => "yield"

def ofText? (s : String) : Option Keyword := all.find? (·.text == s)

/-- The name shown in messages; literals are told apart from their values. -/
def label (k : Keyword) : String :=
  match k with
  | .falseKw | .noneKw | .trueKw => k.text ++ "Kw"
  | _ =>
    match k.text.toList with
    | c :: cs => String.ofList (c.toUpper :: cs)
    | [] => ""

end Keyword

inductive Symbol where
  | plus | minus | star | doubleStar | slash | doubleSlash | percent | at | shiftLeft | shiftRight
  | amp | pipe | caret | tilde | lt | gt | ltEq | gtEq | eqEq | notEq | eq | colonEq | arrow
  | leftParen | rightParen | leftBracket | rightBracket | leftBrace | rightBrace
  | comma | colon | semicolon | dot | ellipsis
deriving DecidableEq, Repr, Inhabited

namespace Symbol

def all : List Symbol :=
  [.plus, .minus, .star, .doubleStar, .slash, .doubleSlash, .percent, .at, .shiftLeft, .shiftRight,
    .amp, .pipe, .caret, .tilde, .lt, .gt, .ltEq, .gtEq, .eqEq, .notEq, .eq, .colonEq, .arrow,
    .leftParen, .rightParen, .leftBracket, .rightBracket, .leftBrace, .rightBrace, .comma, .colon,
    .semicolon, .dot, .ellipsis]

def text : Symbol → String
  | .plus => "+"
  | .minus => "-"
  | .star => "*"
  | .doubleStar => "**"
  | .slash => "/"
  | .doubleSlash => "//"
  | .percent => "%"
  | .at => "@"
  | .shiftLeft => "<<"
  | .shiftRight => ">>"
  | .amp => "&"
  | .pipe => "|"
  | .caret => "^"
  | .tilde => "~"
  | .lt => "<"
  | .gt => ">"
  | .ltEq => "<="
  | .gtEq => ">="
  | .eqEq => "=="
  | .notEq => "!="
  | .eq => "="
  | .colonEq => ":="
  | .arrow => "->"
  | .leftParen => "("
  | .rightParen => ")"
  | .leftBracket => "["
  | .rightBracket => "]"
  | .leftBrace => "\x7b"
  | .rightBrace => "\x7d"
  | .comma => ","
  | .colon => ":"
  | .semicolon => ";"
  | .dot => "."
  | .ellipsis => "..."

def label : Symbol → String
  | .plus => "Plus"
  | .minus => "Minus"
  | .star => "Star"
  | .doubleStar => "DoubleStar"
  | .slash => "Slash"
  | .doubleSlash => "DoubleSlash"
  | .percent => "Percent"
  | .at => "At"
  | .shiftLeft => "LShift"
  | .shiftRight => "RShift"
  | .amp => "Amp"
  | .pipe => "Pipe"
  | .caret => "Caret"
  | .tilde => "Tilde"
  | .lt => "Lt"
  | .gt => "Gt"
  | .ltEq => "LtEq"
  | .gtEq => "GtEq"
  | .eqEq => "EqEq"
  | .notEq => "NotEq"
  | .eq => "Eq"
  | .colonEq => "ColonEq"
  | .arrow => "Arrow"
  | .leftParen => "LParen"
  | .rightParen => "RParen"
  | .leftBracket => "LBracket"
  | .rightBracket => "RBracket"
  | .leftBrace => "LBrace"
  | .rightBrace => "RBrace"
  | .comma => "Comma"
  | .colon => "Colon"
  | .semicolon => "Semicolon"
  | .dot => "Dot"
  | .ellipsis => "Ellipsis"

def isOpening (s : Symbol) : Bool := s == .leftParen || s == .leftBracket || s == .leftBrace

def isClosing (s : Symbol) : Bool := s == .rightParen || s == .rightBracket || s == .rightBrace

end Symbol

/-- What a token is. A string keeps what stands between its quotes. -/
inductive TokenKind where
  | keyword (word : Keyword)
  | symbol (mark : Symbol)
  | augAssign (op : Operator)
  | ident (name : String)
  | int (text : String)
  | float (text : String)
  | imaginary (text : String)
  | str (value : String) (isBytes : Bool)
  | newline
  | indent
  | dedent
  | eof
deriving DecidableEq, Repr, Inhabited

namespace TokenKind

/-- The tokens that the layout of lines brings in. -/
def isLayout : TokenKind → Bool
  | .newline | .indent | .dedent | .eof => true
  | _ => false

/-- The name of the kind, without what a token of it holds. -/
def label : TokenKind → String
  | .keyword word => word.label
  | .symbol mark => mark.label
  | .augAssign _ => "AugAssign"
  | .ident _ => "Ident"
  | .int _ => "Int"
  | .float _ => "Float"
  | .imaginary _ => "Imaginary"
  | .str _ _ => "Str"
  | .newline => "Newline"
  | .indent => "Indent"
  | .dedent => "Dedent"
  | .eof => "Eof"

def describe : TokenKind → String
  | .ident name => "identifier '" ++ name ++ "'"
  | .int text | .float text | .imaginary text => "number '" ++ text ++ "'"
  | .str _ _ => "string literal"
  | .newline => "end of line"
  | .indent => "indent"
  | .dedent => "dedent"
  | .eof => "end of file"
  | .augAssign op => "AugAssign(" ++ op.label ++ ")"
  | kind => kind.label

end TokenKind

structure Token where
  kind : TokenKind
  span : Span
deriving DecidableEq, Repr, Inhabited

end TypeInfer
