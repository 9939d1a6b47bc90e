import EcmaScope.Tree.Marks

/-!
# The outline of a tree

The outline lists the nodes of a tree in traversal order, one row for each node with its shape and
the attributes that are not nodes themselves. A member of a family has a row for the family in
front of the row of its node: the family's row names the type of the member, the node's row its
shape, which several types may share.

## Main definitions

* `Row`: a row of the outline.
* `Tree.outline`: the rows of a tree.
-/

namespace EcmaScope

/-- The attributes of a node by name. -/
abbrev Attributes := List (String × Json)

/-- A row of an outline. -/
inductive Row where
  /-- A member of a family of nodes, with the type it names. -/
  | member (family : String) (type : String) (mark : Mark)
  /-- A node with its shape and its attributes. -/
  | node (shape : String) (mark : Mark) (attributes : Attributes)
  deriving Repr

namespace Row

/-- The row of a node without attributes. -/
def plain (shape : String) (mark : Mark) : Row :=
  .node shape mark []

/-- An attribute that is a string or null. -/
def text? (s : Option String) : Json :=
  match s with
  | some s => .string s
  | none => .null

/-- The name of an optional identifier. -/
def name? (i : Option Identifier) : Json :=
  text? (i.map (·.name))

/-- Which elements of an array are left out. -/
def holes {c : Category} (elements : Tree (.list (.optional c))) : Json :=
  .array (elements.toList.map fun e => .bool (!e.isPresent))

/-- The number of items of a list. -/
def count {c : Category} (items : Tree (.list c)) : Json :=
  Json.ofNat items.length

/-- Whether an optional part is there. -/
def given {c : Category} (part : Tree (.optional c)) : Json :=
  .bool part.isPresent

end Row

/-! ## Words of attributes -/

/-- The name of a kind of property. -/
def PropertyKind.label : PropertyKind → String
  | .plain => "Init"
  | .getter => "Get"
  | .setter => "Set"

/-- The name of a kind of method. -/
def MethodKind.label : MethodKind → String
  | .constructor => "Constructor"
  | .method => "Method"
  | .getter => "Get"
  | .setter => "Set"

/-- The name of a stepping operator. -/
def UpdateOperator.label : UpdateOperator → String
  | .increment => "Increment"
  | .decrement => "Decrement"

/-- The name of an assignment operator. -/
def AssignmentOperator.label : AssignmentOperator → String
  | .assign => "Assign"
  | .add => "AddAssign"
  | .sub => "SubAssign"
  | .mul => "MulAssign"
  | .div => "DivAssign"
  | .rem => "RemAssign"
  | .exp => "ExpAssign"
  | .shl => "ShlAssign"
  | .shr => "ShrAssign"
  | .ushr => "UshrAssign"
  | .bitOr => "BitOrAssign"
  | .bitXor => "BitXorAssign"
  | .bitAnd => "BitAndAssign"
  | .or => "OrAssign"
  | .and => "AndAssign"
  | .nullish => "NullishAssign"

/-! ## Rows of leaves -/

/-- The row of an identifier. -/
def Identifier.row (i : Identifier) : Row :=
  .node "Identifier" i.mark [("name", .string i.name)]

/-- The row of a literal. -/
def Literal.row (l : Literal) : Row :=
  .node "Literal" l.mark
    [("value", .string l.value.kind),
      ("string", Row.text? l.value.string?),
      ("raw", Row.text? l.raw),
      ("bigint", Row.text? l.bigint),
      ("regex", match l.regex with
        | some r => .array [.string r.pattern, .string r.flags]
        | none => .null)]

/-- The row of a template element. -/
def TemplateElement.row (q : TemplateElement) : Row :=
  .node "TemplateElement" q.mark
    [("raw", .string q.raw), ("cooked", Row.text? q.cooked), ("tail", .bool q.tail)]

/-! ## Attributes that look one level down -/

/-- What the head of a loop starts with. -/
def ForInit.label : Tree (.optional .forInit) → String
  | .absent => "none"
  | .present (.initDeclaration _) => "declaration"
  | .present (.initExpression _) => "expression"

/-- What a loop over a value assigns to. -/
def ForTarget.label : Tree .forTarget → String
  | .targetDeclaration _ => "declaration"
  | .targetPattern _ => "pattern"

/-- What a module exports by default. -/
def ExportDefault.label : Tree .exportDefault → String
  | .defaultFunction _ => "function"
  | .defaultClass _ => "class"
  | .defaultExpression _ => "expression"

/-- The body of a function is a block. -/
def FunctionBody.isBlock : Tree .functionBody → Bool
  | .blockBody _ => true
  | .expressionBody _ => false

namespace Tree

/-- The row in front of a statement's node. -/
def statementRow (s : Stmt) : Row :=
  .member "Stmt" (Stmt.typeName s) (Stmt.mark s)

/-- The row in front of an expression's node. -/
def expressionRow (e : Expr) : Row :=
  .member "Expr" (Expr.typeName e) (Expr.mark e)

/-- The row in front of a pattern's node. -/
def patternRow (p : Pat) : Row :=
  .member "Pat" (Pat.typeName p) (Pat.mark p)

/-- The row in front of an object member's node. -/
def objectMemberRow (m : Tree .objectMember) : Row :=
  .member "ObjectMember" (ObjectMember.typeName m) (ObjectMember.mark m)

/-- The row in front of a pattern member's node. -/
def patternMemberRow (m : Tree .patternMember) : Row :=
  .member "ObjectPatternMember" (PatternMember.typeName m) (PatternMember.mark m)

/-- The row in front of a class member's node. -/
def classMemberRow (m : Tree .method) : Row :=
  .member "ClassMember" (ClassMember.typeName m) (ClassMember.mark m)

/-- The row in front of an import specifier's node. -/
def importSpecifierRow (s : Tree .importSpecifier) : Row :=
  .member "ImportSpecifierKind" (ImportSpecifier.typeName s) (ImportSpecifier.mark s)

/-- The row in front of the row of the node, for a member of a family. -/
def familyRow {c : Category} (t : Tree c) : List Row :=
  match c, t with
  | .statement, t => [statementRow t]
  | .expression, t => [expressionRow t]
  | .pattern, t => [patternRow t]
  | .objectMember, t => [objectMemberRow t]
  | .patternMember, t => [patternMemberRow t]
  | .method, t => [classMemberRow t]
  | .importSpecifier, t => [importSpecifierRow t]
  | _, _ => []

/-- The row of the node at the root of a tree; the parts that only wrap a node have none. -/
def nodeRow {c : Category} : Tree c → List Row
  | .program m body => [.node "Program" m [("body", Row.count body)]]
  | .breakStatement m label => [.node "BreakStatement" m [("label", Row.name? label)]]
  | .continueStatement m label => [.node "ContinueStatement" m [("label", Row.name? label)]]
  | .debuggerStatement m => [.plain "DebuggerStatement" m]
  | .directiveStatement m directive raw =>
    [.node "DirectiveStatement" m [("directive", .string directive), ("raw", Row.text? raw)]]
  | .doWhileStatement m _ _ => [.plain "DoWhileStatement" m]
  | .emptyStatement m => [.plain "EmptyStatement" m]
  | .exportAllDeclaration m _ exported =>
    [.node "ExportAllDeclaration" m [("exported", Row.given exported)]]
  | .exportDefaultDeclaration m d =>
    [.node "ExportDefaultDeclaration" m [("declaration", .string (ExportDefault.label d))]]
  | .exportNamedDeclaration m d specifiers source =>
    [.node "ExportNamedDeclaration" m
      [("declaration", Row.given d), ("specifiers", Row.count specifiers),
        ("source", .bool source.isSome)]]
  | .expressionStatement m _ directive =>
    [.node "ExpressionStatement" m [("directive", Row.text? directive)]]
  | .iterationStatement _ m left _ _ await =>
    [.node "ForInStatement" m
      [("left", .string (ForTarget.label left)), ("await", .bool await)]]
  | .forStatement m init test update _ =>
    [.node "ForStatement" m
      [("init", .string (ForInit.label init)), ("test", Row.given test),
        ("update", Row.given update)]]
  | .ifStatement m _ _ alternate => [.node "IfStatement" m [("alternate", Row.given alternate)]]
  | .importDeclaration m specifiers _ =>
    [.node "ImportDeclaration" m
      [("locals", .array
        (specifiers.toList.map fun s => .string (ImportSpecifier.binding s).name))]]
  | .labeledStatement m label _ =>
    [.node "LabeledStatement" m [("label", .string label.name)]]
  | .returnStatement m argument =>
    [.node "ReturnStatement" m [("argument", Row.given argument)]]
  | .switchStatement m _ cases => [.node "SwitchStatement" m [("cases", Row.count cases)]]
  | .throwStatement m _ => [.plain "ThrowStatement" m]
  | .tryStatement m _ handler finalizer =>
    [.node "TryStatement" m
      [("handler", Row.given handler), ("finalizer", Row.given finalizer)]]
  | .whileStatement m _ _ => [.plain "WhileStatement" m]
  | .withStatement m _ _ => [.plain "WithStatement" m]
  | .block m body => [.node "BlockStatement" m [("body", Row.count body)]]
  | .declaration m kind declarators =>
    [.node "VariableDeclaration" m
      [("kind", .string kind.spelling), ("declarations", Row.count declarators)]]
  | .declarator m target init =>
    [.node "VariableDeclarator" m
      [("id", Row.name? (Pat.identifier? target)), ("init", Row.given init)]]
  | .switchCase m test consequent =>
    [.node "SwitchCase" m [("test", Row.given test), ("consequent", Row.count consequent)]]
  | .catchClause m param _ => [.node "CatchClause" m [("param", Row.given param)]]
  | .importDefaultSpecifier m _ => [.plain "ImportDefaultSpecifier" m]
  | .importNamespaceSpecifier m _ => [.plain "ImportNamespaceSpecifier" m]
  | .importNamedSpecifier m _ _ => [.plain "ImportSpecifier" m]
  | .exportSpecifier m _ _ => [.plain "ExportSpecifier" m]
  | .function _ m name params body generator async expression =>
    [.node "Function" m
      [("id", Row.name? name), ("params", Row.count params), ("generator", .bool generator),
        ("async", .bool async), ("expression", .bool expression),
        ("block", .bool (FunctionBody.isBlock body))]]
  | .classNode _ m name superclass _ =>
    [.node "Class" m [("id", Row.name? name), ("superClass", Row.given superclass)]]
  | .classBody m members => [.node "ClassBody" m [("body", Row.count members)]]
  | .method m _ _ kind computed isStatic =>
    [.node "MethodDefinition" m
      [("kind", .string kind.label), ("computed", .bool computed), ("static", .bool isStatic)]]
  | .arrayExpression m elements => [.node "ArrayExpression" m [("holes", Row.holes elements)]]
  | .assignmentExpression m operator _ _ =>
    [.node "AssignmentExpression" m [("operator", .string operator.label)]]
  | .awaitExpression m _ => [.plain "AwaitExpression" m]
  | .binaryExpression _ m operator _ _ =>
    [.node "BinaryExpression" m [("operator", .string operator)]]
  | .callExpression m callee arguments isOptional
  | .newExpression m callee arguments isOptional =>
    [.node "CallExpression" m
      [("callee", Row.name? (Expr.identifier? callee)), ("arguments", Row.count arguments),
        ("optional", .bool isOptional)]]
  | .chainExpression m _ => [.plain "ChainExpression" m]
  | .conditionalExpression m _ _ _ => [.plain "ConditionalExpression" m]
  | .identifier i => [i.row]
  | .importExpression m _ => [.plain "ImportExpression" m]
  | .literal l => [l.row]
  | .metaProperty m object prop =>
    [.node "MetaProperty" m [("meta", .string object.name), ("property", .string prop.name)]]
  | .objectExpression m members =>
    [.node "ObjectExpression" m [("properties", Row.count members)]]
  | .sequenceExpression m expressions =>
    [.node "SequenceExpression" m [("expressions", Row.count expressions)]]
  | .superExpression m => [.plain "Super" m]
  | .taggedTemplate m _ _ => [.plain "TaggedTemplateExpression" m]
  | .thisExpression m => [.plain "ThisExpression" m]
  | .unaryExpression m operator leading _ =>
    [.node "UnaryExpression" m [("operator", .string operator), ("prefix", .bool leading)]]
  | .updateExpression m operator leading _ =>
    [.node "UpdateExpression" m
      [("operator", .string operator.label), ("prefix", .bool leading)]]
  | .yieldExpression m argument delegate =>
    [.node "YieldExpression" m
      [("argument", Row.given argument), ("delegate", .bool delegate)]]
  | .access m _ _ computed isOptional =>
    [.node "MemberExpression" m
      [("computed", .bool computed), ("optional", .bool isOptional)]]
  | .spread m _ => [.plain "SpreadElement" m]
  | .template m quasis expressions =>
    [.node "TemplateLiteral" m
      [("quasis", Json.ofNat quasis.length), ("expressions", Row.count expressions)]]
  | .property m _ _ kind isMethod shorthand computed =>
    [.node "Property" m
      [("kind", .string kind.label), ("method", .bool isMethod),
        ("shorthand", .bool shorthand), ("computed", .bool computed)]]
  | .arrayPattern m elements => [.node "ArrayPattern" m [("holes", Row.holes elements)]]
  | .assignmentPattern m _ _ => [.plain "AssignmentPattern" m]
  | .identifierPattern i => [i.row]
  | .objectPattern m members =>
    [.node "ObjectPattern" m [("properties", Row.count members)]]
  | .rest m _ => [.plain "RestElement" m]
  | .patternProperty m _ _ computed shorthand =>
    [.node "AssignmentProperty" m
      [("computed", .bool computed), ("shorthand", .bool shorthand)]]
  | _ => []

/-- The rows of all nodes of a tree, in traversal order. -/
def outline {c : Category} (t : Tree c) : List Row :=
  familyRow t ++ nodeRow t ++
    match t with
    | .cons head tail => head.outline ++ tail.outline
    | .present part => part.outline
    | .program _ body => body.outline
    | .blockStatement b => b.outline
    | .breakStatement _ label => (label.map (·.row)).toList
    | .classDeclaration declared => declared.outline
    | .continueStatement _ label => (label.map (·.row)).toList
    | .doWhileStatement _ body test => body.outline ++ test.outline
    | .exportAllDeclaration _ source exported => [source.row] ++ exported.outline
    | .exportDefaultDeclaration _ d => d.outline
    | .exportNamedDeclaration _ d specifiers source =>
      d.outline ++ specifiers.outline ++ (source.map (·.row)).toList
    | .expressionStatement _ e _ => e.outline
    | .iterationStatement _ _ left right body _ => left.outline ++ right.outline ++ body.outline
    | .forStatement _ init test update body =>
      init.outline ++ test.outline ++ update.outline ++ body.outline
    | .functionDeclaration declared => declared.outline
    | .ifStatement _ test consequent alternate =>
      test.outline ++ consequent.outline ++ alternate.outline
    | .importDeclaration _ specifiers source => specifiers.outline ++ [source.row]
    | .labeledStatement _ label body => [label.row] ++ body.outline
    | .returnStatement _ argument => argument.outline
    | .switchStatement _ discriminant cases => discriminant.outline ++ cases.outline
    | .throwStatement _ argument => argument.outline
    | .tryStatement _ b handler finalizer => b.outline ++ handler.outline ++ finalizer.outline
    | .variableDeclaration d => d.outline
    | .whileStatement _ test body => test.outline ++ body.outline
    | .withStatement _ object body => object.outline ++ body.outline
    | .block _ body => body.outline
    | .declaration _ _ declarators => declarators.outline
    | .declarator _ target init => target.outline ++ init.outline
    | .switchCase _ test consequent => test.outline ++ consequent.outline
    | .catchClause _ param body => param.outline ++ body.outline
    | .initDeclaration d => d.outline
    | .initExpression e => e.outline
    | .targetDeclaration d => d.outline
    | .targetPattern p => p.outline
    | .importDefaultSpecifier _ binding => [binding.row]
    | .importNamespaceSpecifier _ binding => [binding.row]
    | .importNamedSpecifier _ imported binding => imported.outline ++ [binding.row]
    | .exportSpecifier _ binding exported => binding.outline ++ exported.outline
    | .defaultFunction declared => declared.outline
    | .defaultClass declared => declared.outline
    | .defaultExpression e => e.outline
    | .function _ _ name params body _ _ _ =>
      (name.map (·.row)).toList ++ params.outline ++ body.outline
    | .blockBody b => b.outline
    | .expressionBody e => e.outline
    | .classNode _ _ name superclass body =>
      (name.map (·.row)).toList ++ superclass.outline ++ body.outline
    | .classBody _ members => members.outline
    | .method _ key value _ _ _ => key.outline ++ value.outline
    | .arrayExpression _ elements => elements.outline
    | .arrowFunction fn => fn.outline
    | .assignmentExpression _ _ left right => left.outline ++ right.outline
    | .awaitExpression _ argument => argument.outline
    | .binaryExpression _ _ _ left right => left.outline ++ right.outline
    | .callExpression _ callee arguments _ => callee.outline ++ arguments.outline
    | .chainExpression _ e => e.outline
    | .classExpression value => value.outline
    | .conditionalExpression _ test consequent alternate =>
      test.outline ++ consequent.outline ++ alternate.outline
    | .functionExpression fn => fn.outline
    | .importExpression _ source => source.outline
    | .memberExpression a => a.outline
    | .metaProperty _ object prop => [object.row] ++ [prop.row]
    | .newExpression _ callee arguments _ => callee.outline ++ arguments.outline
    | .objectExpression _ members => members.outline
    | .sequenceExpression _ expressions => expressions.outline
    | .spreadExpression s => s.outline
    | .taggedTemplate _ tag quasi => tag.outline ++ quasi.outline
    | .templateExpression t => t.outline
    | .unaryExpression _ _ _ argument => argument.outline
    | .updateExpression _ _ _ argument => argument.outline
    | .yieldExpression _ argument _ => argument.outline
    | .access _ object prop _ _ => object.outline ++ prop.outline
    | .spread _ argument => argument.outline
    | .template _ quasis expressions => quasis.map (·.row) ++ expressions.outline
    | .property _ key value _ _ _ _ => key.outline ++ value.outline
    | .spreadMember s => s.outline
    | .arrayPattern _ elements => elements.outline
    | .assignmentPattern _ left right => left.outline ++ right.outline
    | .memberPattern a => a.outline
    | .objectPattern _ members => members.outline
    | .restPattern r => r.outline
    | .rest _ argument => argument.outline
    | .patternProperty _ key value _ _ => key.outline ++ value.outline
    | .restMember r => r.outline
    | _ => []

end Tree

end EcmaScope
