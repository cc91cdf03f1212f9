/-
The stored form of a syntax tree. A record is an object with its fields in a
fixed order, a choice is an object with its name as the only key, and a choice
that holds nothing is its name alone. What is absent is written as null.
-/
import TypeInfer.Diagnostic
import TypeInfer.Syntax.Basic

namespace TypeInfer

def ParamKind.label : ParamKind → String
  | .positional => "Positional"
  | .varArgs => "VarArgs"
  | .keywordOnly => "KeywordOnly"
  | .kwArgs => "KwArgs"

def Ident.toJson (i : Ident) : Json := .obj [("name", .str i.name), ("span", i.span.toJson)]

def Alias.toJson (a : Alias) : Json :=
  .obj [("span", a.span.toJson), ("name", .arr (a.name.map Ident.toJson)),
    ("asname", (a.asName.map Ident.toJson).getD .null)]

def ImportNames.toJson : ImportNames → Json
  | .star span => .obj [("Star", span.toJson)]
  | .names aliases => .obj [("Names", .arr (aliases.map Alias.toJson))]

/-- A choice with the fields that it holds. -/
def Json.node (tag : String) (span : Span) (fields : List (String × Json)) : Json :=
  .obj [(tag, .obj (("span", span.toJson) :: fields))]

mutual

def Expr.toJson : Expr → Json
  | .name s id => .node "Name" s [("id", .str id)]
  | .int s value => .node "Int" s [("value", .str value)]
  | .float s value => .node "Float" s [("value", .str value)]
  | .imaginary s value => .node "Imaginary" s [("value", .str value)]
  | .str s value => .node "Str" s [("value", .str value)]
  | .bytes s value => .node "Bytes" s [("value", .str value)]
  | .bool s value => .node "Bool" s [("value", .bool value)]
  | .none s => .node "NoneLit" s []
  | .ellipsis s => .node "Ellipsis" s []
  | .attribute s value attr =>
    .node "Attribute" s [("value", value.toJson), ("attr", attr.toJson)]
  | .subscript s value index =>
    .node "Subscript" s [("value", value.toJson), ("index", index.toJson)]
  | .slice s lower upper step =>
    .node "Slice" s [("lower", optionToJson lower), ("upper", optionToJson upper),
      ("step", optionToJson step)]
  | .call s func args => .node "Call" s [("func", func.toJson), ("args", .arr (argsToJson args))]
  | .binary s left op right =>
    .node "BinOp" s [("left", left.toJson), ("op", .str op.label), ("right", right.toJson)]
  | .unary s op operand =>
    .node "UnaryOp" s [("op", .str op.label), ("operand", operand.toJson)]
  | .boolean s op values =>
    .node "BoolOp" s [("op", .str op.label), ("values", .arr (exprsToJson values))]
  | .compare s left ops comparators =>
    .node "Compare" s [("left", left.toJson), ("ops", .arr (ops.map fun op => .str op.label)),
      ("comparators", .arr (exprsToJson comparators))]
  | .conditional s test body orElse =>
    .node "IfExp" s [("test", test.toJson), ("body", body.toJson), ("orelse", orElse.toJson)]
  | .lambda s definition => .node "Lambda" s [("def", definition.toJson)]
  | .list s elts => .node "List" s [("elts", .arr (exprsToJson elts))]
  | .tuple s elts => .node "Tuple" s [("elts", .arr (exprsToJson elts))]
  | .set s elts => .node "Set" s [("elts", .arr (exprsToJson elts))]
  | .dict s items => .node "Dict" s [("items", .arr (itemsToJson items))]
  | .listComp s elt clauses =>
    .node "ListComp" s [("elt", elt.toJson), ("generators", .arr (clausesToJson clauses))]
  | .setComp s elt clauses =>
    .node "SetComp" s [("elt", elt.toJson), ("generators", .arr (clausesToJson clauses))]
  | .generator s elt clauses =>
    .node "GeneratorExp" s [("elt", elt.toJson), ("generators", .arr (clausesToJson clauses))]
  | .dictComp s key value clauses =>
    .node "DictComp" s [("key", key.toJson), ("value", value.toJson),
      ("generators", .arr (clausesToJson clauses))]
  | .yield s value => .node "Yield" s [("value", optionToJson value)]
  | .yieldFrom s value => .node "YieldFrom" s [("value", value.toJson)]
  | .await s value => .node "Await" s [("value", value.toJson)]
  | .starred s value => .node "Starred" s [("value", value.toJson)]
  | .named s target value =>
    .node "NamedExpr" s [("target", target.toJson), ("value", value.toJson)]

def optionToJson : Option Expr → Json
  | none => .null
  | some e => e.toJson

def exprsToJson : List Expr → List Json
  | [] => []
  | e :: es => e.toJson :: exprsToJson es

def Arg.toJson : Arg → Json
  | .positional value => .obj [("Positional", value.toJson)]
  | .keyword name value =>
    .obj [("Keyword", .obj [("name", name.toJson), ("value", value.toJson)])]
  | .star value => .obj [("Star", value.toJson)]
  | .doubleStar value => .obj [("DoubleStar", value.toJson)]

def argsToJson : List Arg → List Json
  | [] => []
  | a :: more => a.toJson :: argsToJson more

def DictItem.toJson : DictItem → Json
  | ⟨key, value⟩ => .obj [("key", optionToJson key), ("value", value.toJson)]

def itemsToJson : List DictItem → List Json
  | [] => []
  | i :: more => i.toJson :: itemsToJson more

def Comprehension.toJson : Comprehension → Json
  | ⟨target, iter, conditions, isAsync⟩ =>
    .obj [("target", target.toJson), ("iter", iter.toJson),
      ("ifs", .arr (exprsToJson conditions)), ("is_async", .bool isAsync)]

def clausesToJson : List Comprehension → List Json
  | [] => []
  | c :: more => c.toJson :: clausesToJson more

def Param.toJson : Param → Json
  | ⟨name, kind, default, annotation⟩ =>
    .obj [("name", name.toJson), ("kind", .str kind.label), ("default", optionToJson default),
      ("annotation", optionToJson annotation)]

def paramsToJson : List Param → List Json
  | [] => []
  | p :: more => p.toJson :: paramsToJson more

def FunctionDef.toJson : FunctionDef → Json
  | ⟨span, name, params, body, decorators, returns, isAsync⟩ =>
    .obj [("span", span.toJson), ("name", name.toJson), ("params", .arr (paramsToJson params)),
      ("body", .arr (stmtsToJson body)), ("decorators", .arr (exprsToJson decorators)),
      ("returns", optionToJson returns), ("is_async", .bool isAsync)]

def ClassKeyword.toJson : ClassKeyword → Json
  | ⟨name, value⟩ => .obj [("name", name.toJson), ("value", value.toJson)]

def keywordsToJson : List ClassKeyword → List Json
  | [] => []
  | k :: more => k.toJson :: keywordsToJson more

def ClassDef.toJson : ClassDef → Json
  | ⟨span, name, bases, keywords, body, decorators⟩ =>
    .obj [("span", span.toJson), ("name", name.toJson), ("bases", .arr (exprsToJson bases)),
      ("keywords", .arr (keywordsToJson keywords)), ("body", .arr (stmtsToJson body)),
      ("decorators", .arr (exprsToJson decorators))]

def ExceptHandler.toJson : ExceptHandler → Json
  | ⟨span, type, name, body⟩ =>
    .obj [("span", span.toJson), ("ty", optionToJson type),
      ("name", (name.map Ident.toJson).getD .null), ("body", .arr (stmtsToJson body))]

def handlersToJson : List ExceptHandler → List Json
  | [] => []
  | h :: more => h.toJson :: handlersToJson more

def WithItem.toJson : WithItem → Json
  | ⟨context, target⟩ => .obj [("context", context.toJson), ("target", optionToJson target)]

def withItemsToJson : List WithItem → List Json
  | [] => []
  | i :: more => i.toJson :: withItemsToJson more

def Stmt.toJson : Stmt → Json
  | .expr s value => .node "Expr" s [("value", value.toJson)]
  | .assign s targets value =>
    .node "Assign" s [("targets", .arr (exprsToJson targets)), ("value", value.toJson)]
  | .augAssign s target op value =>
    .node "AugAssign" s [("target", target.toJson), ("op", .str op.label), ("value", value.toJson)]
  | .annAssign s target annotation value =>
    .node "AnnAssign" s [("target", target.toJson), ("annotation", annotation.toJson),
      ("value", optionToJson value)]
  | .return s value => .node "Return" s [("value", optionToJson value)]
  | .pass s => .node "Pass" s []
  | .break s => .node "Break" s []
  | .continue s => .node "Continue" s []
  | .cond s test body orElse =>
    .node "If" s [("test", test.toJson), ("body", .arr (stmtsToJson body)),
      ("orelse", .arr (stmtsToJson orElse))]
  | .while s test body orElse =>
    .node "While" s [("test", test.toJson), ("body", .arr (stmtsToJson body)),
      ("orelse", .arr (stmtsToJson orElse))]
  | .for s target iter body orElse isAsync =>
    .node "For" s [("target", target.toJson), ("iter", iter.toJson),
      ("body", .arr (stmtsToJson body)), ("orelse", .arr (stmtsToJson orElse)),
      ("is_async", .bool isAsync)]
  | .function definition => .obj [("FunctionDef", definition.toJson)]
  | .classDef definition => .obj [("ClassDef", definition.toJson)]
  | .importModules s names => .node "Import" s [("names", .arr (names.map Alias.toJson))]
  | .importFrom s module level names =>
    .node "ImportFrom" s [("module", .arr (module.map Ident.toJson)), ("level", .num level),
      ("names", names.toJson)]
  | .global s names => .node "Global" s [("names", .arr (names.map Ident.toJson))]
  | .nonlocal s names => .node "Nonlocal" s [("names", .arr (names.map Ident.toJson))]
  | .try s body handlers orElse finalBody =>
    .node "Try" s [("body", .arr (stmtsToJson body)), ("handlers", .arr (handlersToJson handlers)),
      ("orelse", .arr (stmtsToJson orElse)), ("finalbody", .arr (stmtsToJson finalBody))]
  | .with s items body isAsync =>
    .node "With" s [("items", .arr (withItemsToJson items)), ("body", .arr (stmtsToJson body)),
      ("is_async", .bool isAsync)]
  | .raise s exception cause =>
    .node "Raise" s [("exc", optionToJson exception), ("cause", optionToJson cause)]
  | .assert s test message =>
    .node "Assert" s [("test", test.toJson), ("msg", optionToJson message)]
  | .delete s targets => .node "Delete" s [("targets", .arr (exprsToJson targets))]

def stmtsToJson : List Stmt → List Json
  | [] => []
  | s :: more => s.toJson :: stmtsToJson more

end

namespace Module

def toJson (m : Module) : Json :=
  .obj [("span", m.span.toJson), ("file", .str m.file.text), ("body", .arr (stmtsToJson m.body))]

def toText (m : Module) : String := m.toJson.render

end Module

end TypeInfer
