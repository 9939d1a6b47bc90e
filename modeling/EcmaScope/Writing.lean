import EcmaScope.Tree.Marks

/-!
# Writing trees

The form of a tree as a JSON value that leaves nothing to defaults: a node is an object with its
type, its place as `start` and `end`, and all of its fields. A part that is left out is written as
null. The number of a node is not written, as it follows from the shape of the tree.

## Main definitions

* `Identifier.toJson`, `Literal.toJson`, `TemplateElement.toJson`: the leaves.
* `Tree.toJson`: the form of a tree.
-/

namespace EcmaScope

namespace Json

/-- An array with one more item in front. -/
def cons (head : Json) : Json → Json
  | .array items => .array (head :: items)
  | value => value

/-- A value that may be missing. -/
def ofOption {α : Type} (write : α → Json) : Option α → Json
  | some a => write a
  | none => .null

/-- A node of a type with its place and its fields. -/
def ofNode (type : String) (mark : Mark) (fields : List (String × Json)) : Json :=
  .object ([("type", .string type), ("start", ofNat mark.loc.start), ("end", ofNat mark.loc.stop)]
    ++ fields)

end Json

open Json (ofNode ofOption)

/-- The form of an identifier. -/
def Identifier.toJson (i : Identifier) : Json :=
  ofNode "Identifier" i.mark [("name", .string i.name)]

/-- The form of the parts of a regular expression. -/
def Regex.toJson (r : Regex) : Json :=
  .object [("pattern", .string r.pattern), ("flags", .string r.flags)]

/-- The form of a literal. -/
def Literal.toJson (l : Literal) : Json :=
  ofNode "Literal" l.mark
    [("value", l.value), ("raw", ofOption .string l.raw), ("regex", ofOption Regex.toJson l.regex),
      ("bigint", ofOption .string l.bigint)]

/-- The form of a template element. -/
def TemplateElement.toJson (q : TemplateElement) : Json :=
  ofNode "TemplateElement" q.mark
    [("value", .object [("raw", .string q.raw), ("cooked", ofOption .string q.cooked)]),
      ("tail", .bool q.tail)]

namespace Tree

/-- The form of a tree. -/
def toJson {c : Category} : Tree c → Json
  -- lists and optional parts
  | .nil => .array []
  | .cons head tail => Json.cons head.toJson tail.toJson
  | .absent => .null
  | .present part => part.toJson
  -- programs
  | .program m body => ofNode "Program" m [("body", body.toJson)]
  -- statements
  | .blockStatement b => b.toJson
  | .breakStatement m label =>
    ofNode "BreakStatement" m [("label", ofOption Identifier.toJson label)]
  | .classDeclaration declared => declared.toJson
  | .continueStatement m label =>
    ofNode "ContinueStatement" m [("label", ofOption Identifier.toJson label)]
  | .debuggerStatement m => ofNode "DebuggerStatement" m []
  | .directiveStatement m directive raw =>
    ofNode "DirectiveStatement" m
      [("directive", .string directive), ("raw", ofOption .string raw)]
  | .doWhileStatement m body test =>
    ofNode "DoWhileStatement" m [("body", body.toJson), ("test", test.toJson)]
  | .emptyStatement m => ofNode "EmptyStatement" m []
  | .exportAllDeclaration m source exported =>
    ofNode "ExportAllDeclaration" m [("source", source.toJson), ("exported", exported.toJson)]
  | .exportDefaultDeclaration m d => ofNode "ExportDefaultDeclaration" m [("declaration", d.toJson)]
  | .exportNamedDeclaration m d specifiers source =>
    ofNode "ExportNamedDeclaration" m
      [("declaration", d.toJson), ("specifiers", specifiers.toJson),
        ("source", ofOption Literal.toJson source)]
  | .expressionStatement m e directive =>
    ofNode "ExpressionStatement" m
      [("expression", e.toJson), ("directive", ofOption .string directive)]
  | .iterationStatement form m left right body await =>
    ofNode form.typeName m
      [("left", left.toJson), ("right", right.toJson), ("body", body.toJson),
        ("await", .bool await)]
  | .forStatement m init test update body =>
    ofNode "ForStatement" m
      [("init", init.toJson), ("test", test.toJson), ("update", update.toJson),
        ("body", body.toJson)]
  | .functionDeclaration declared => declared.toJson
  | .ifStatement m test consequent alternate =>
    ofNode "IfStatement" m
      [("test", test.toJson), ("consequent", consequent.toJson), ("alternate", alternate.toJson)]
  | .importDeclaration m specifiers source =>
    ofNode "ImportDeclaration" m [("specifiers", specifiers.toJson), ("source", source.toJson)]
  | .labeledStatement m label body =>
    ofNode "LabeledStatement" m [("label", label.toJson), ("body", body.toJson)]
  | .returnStatement m argument => ofNode "ReturnStatement" m [("argument", argument.toJson)]
  | .switchStatement m discriminant cases =>
    ofNode "SwitchStatement" m [("discriminant", discriminant.toJson), ("cases", cases.toJson)]
  | .throwStatement m argument => ofNode "ThrowStatement" m [("argument", argument.toJson)]
  | .tryStatement m b handler finalizer =>
    ofNode "TryStatement" m
      [("block", b.toJson), ("handler", handler.toJson), ("finalizer", finalizer.toJson)]
  | .variableDeclaration d => d.toJson
  | .whileStatement m test body =>
    ofNode "WhileStatement" m [("test", test.toJson), ("body", body.toJson)]
  | .withStatement m object body =>
    ofNode "WithStatement" m [("object", object.toJson), ("body", body.toJson)]
  -- parts of statements
  | .block m body => ofNode "BlockStatement" m [("body", body.toJson)]
  | .declaration m kind declarators =>
    ofNode "VariableDeclaration" m
      [("kind", .string kind.spelling), ("declarations", declarators.toJson)]
  | .declarator m target init =>
    ofNode "VariableDeclarator" m [("id", target.toJson), ("init", init.toJson)]
  | .switchCase m test consequent =>
    ofNode "SwitchCase" m [("test", test.toJson), ("consequent", consequent.toJson)]
  | .catchClause m param body =>
    ofNode "CatchClause" m [("param", param.toJson), ("body", body.toJson)]
  | .initDeclaration d => d.toJson
  | .initExpression e => e.toJson
  | .targetDeclaration d => d.toJson
  | .targetPattern p => p.toJson
  | .importDefaultSpecifier m binding =>
    ofNode "ImportDefaultSpecifier" m [("local", binding.toJson)]
  | .importNamespaceSpecifier m binding =>
    ofNode "ImportNamespaceSpecifier" m [("local", binding.toJson)]
  | .importNamedSpecifier m imported binding =>
    ofNode "ImportSpecifier" m [("imported", imported.toJson), ("local", binding.toJson)]
  | .exportSpecifier m binding exported =>
    ofNode "ExportSpecifier" m [("local", binding.toJson), ("exported", exported.toJson)]
  | .defaultFunction declared => declared.toJson
  | .defaultClass declared => declared.toJson
  | .defaultExpression e => e.toJson
  -- functions and classes
  | .function form m name params body generator async expression =>
    ofNode form.typeName m
      [("id", ofOption Identifier.toJson name), ("params", params.toJson), ("body", body.toJson),
        ("generator", .bool generator), ("async", .bool async), ("expression", .bool expression)]
  | .blockBody b => b.toJson
  | .expressionBody e => e.toJson
  | .classNode form m name superclass body =>
    ofNode form.typeName m
      [("id", ofOption Identifier.toJson name), ("superClass", superclass.toJson),
        ("body", body.toJson)]
  | .classBody m members => ofNode "ClassBody" m [("body", members.toJson)]
  | .method m key value kind computed isStatic =>
    ofNode "MethodDefinition" m
      [("key", key.toJson), ("value", value.toJson), ("kind", .string kind.spelling),
        ("computed", .bool computed), ("static", .bool isStatic)]
  -- expressions
  | .arrayExpression m elements => ofNode "ArrayExpression" m [("elements", elements.toJson)]
  | .arrowFunction fn => fn.toJson
  | .assignmentExpression m operator left right =>
    ofNode "AssignmentExpression" m
      [("operator", .string operator.spelling), ("left", left.toJson), ("right", right.toJson)]
  | .awaitExpression m argument => ofNode "AwaitExpression" m [("argument", argument.toJson)]
  | .binaryExpression form m operator left right =>
    ofNode form.typeName m
      [("operator", .string operator), ("left", left.toJson), ("right", right.toJson)]
  | .callExpression m callee arguments isOptional =>
    ofNode "CallExpression" m
      [("callee", callee.toJson), ("arguments", arguments.toJson), ("optional", .bool isOptional)]
  | .chainExpression m e => ofNode "ChainExpression" m [("expression", e.toJson)]
  | .classExpression value => value.toJson
  | .conditionalExpression m test consequent alternate =>
    ofNode "ConditionalExpression" m
      [("test", test.toJson), ("consequent", consequent.toJson), ("alternate", alternate.toJson)]
  | .functionExpression fn => fn.toJson
  | .identifier i => i.toJson
  | .importExpression m source => ofNode "ImportExpression" m [("source", source.toJson)]
  | .literal l => l.toJson
  | .memberExpression a => a.toJson
  | .metaProperty m object prop =>
    ofNode "MetaProperty" m [("meta", object.toJson), ("property", prop.toJson)]
  | .newExpression m callee arguments isOptional =>
    ofNode "NewExpression" m
      [("callee", callee.toJson), ("arguments", arguments.toJson), ("optional", .bool isOptional)]
  | .objectExpression m members => ofNode "ObjectExpression" m [("properties", members.toJson)]
  | .sequenceExpression m expressions =>
    ofNode "SequenceExpression" m [("expressions", expressions.toJson)]
  | .spreadExpression s => s.toJson
  | .superExpression m => ofNode "Super" m []
  | .taggedTemplate m tag quasi =>
    ofNode "TaggedTemplateExpression" m [("tag", tag.toJson), ("quasi", quasi.toJson)]
  | .templateExpression t => t.toJson
  | .thisExpression m => ofNode "ThisExpression" m []
  | .unaryExpression m operator leading argument =>
    ofNode "UnaryExpression" m
      [("operator", .string operator), ("prefix", .bool leading), ("argument", argument.toJson)]
  | .updateExpression m operator leading argument =>
    ofNode "UpdateExpression" m
      [("operator", .string operator.spelling), ("prefix", .bool leading),
        ("argument", argument.toJson)]
  | .yieldExpression m argument delegate =>
    ofNode "YieldExpression" m [("argument", argument.toJson), ("delegate", .bool delegate)]
  -- parts of expressions
  | .access m object prop computed isOptional =>
    ofNode "MemberExpression" m
      [("object", object.toJson), ("property", prop.toJson), ("computed", .bool computed),
        ("optional", .bool isOptional)]
  | .spread m argument => ofNode "SpreadElement" m [("argument", argument.toJson)]
  | .template m quasis expressions =>
    ofNode "TemplateLiteral" m
      [("quasis", .array (quasis.map TemplateElement.toJson)), ("expressions", expressions.toJson)]
  | .property m key value kind isMethod shorthand computed =>
    ofNode "Property" m
      [("key", key.toJson), ("value", value.toJson), ("kind", .string kind.spelling),
        ("method", .bool isMethod), ("shorthand", .bool shorthand), ("computed", .bool computed)]
  | .spreadMember s => s.toJson
  -- patterns
  | .arrayPattern m elements => ofNode "ArrayPattern" m [("elements", elements.toJson)]
  | .assignmentPattern m left right =>
    ofNode "AssignmentPattern" m [("left", left.toJson), ("right", right.toJson)]
  | .identifierPattern i => i.toJson
  | .memberPattern a => a.toJson
  | .objectPattern m members => ofNode "ObjectPattern" m [("properties", members.toJson)]
  | .restPattern r => r.toJson
  | .rest m argument => ofNode "RestElement" m [("argument", argument.toJson)]
  | .patternProperty m key value computed shorthand =>
    ofNode "Property" m
      [("key", key.toJson), ("value", value.toJson), ("computed", .bool computed),
        ("shorthand", .bool shorthand)]
  | .restMember r => r.toJson

end Tree

end EcmaScope
