import EcmaScope.Tree

/-!
# The nodes of a tree

Accessors of the tree, and the list of the marks of all its nodes in the order of a traversal:
a node comes before the nodes below it, and those come in the order of its parts.

## Main definitions

* `Tree.toList`, `Tree.toOption`: lists and optional parts as lists and options of trees.
* `Tree.marks`, `Tree.ids`: the marks and the numbers of all nodes, in traversal order.
* `Expr.mark`, `Expr.typeName`, `Expr.identifier?` and their like for statements, patterns and the
  smaller families.
-/

namespace EcmaScope

/-- The category of the items of a list. -/
def Category.item : Category → Category
  | .list c => c
  | c => c

namespace Tree

/-- The items of a tree, if it is a list. -/
def items {c : Category} : Tree c → List (Tree c.item)
  | .cons head tail => head :: tail.items
  | _ => []

/-- The items of a list. -/
def toList {c : Category} (t : Tree (.list c)) : List (Tree c) :=
  t.items

@[simp] theorem toList_nil {c : Category} : (nil : Tree (.list c)).toList = [] := rfl

@[simp] theorem toList_cons {c : Category} (head : Tree c) (tail : Tree (.list c)) :
    (cons head tail).toList = head :: tail.toList := rfl

/-- The number of items of a list. -/
def length {c : Category} (items : Tree (.list c)) : Nat :=
  items.toList.length

/-- An optional part. -/
def toOption {c : Category} : Tree (.optional c) → Option (Tree c)
  | .absent => none
  | .present part => some part

/-- An optional part is there. -/
def isPresent {c : Category} (part : Tree (.optional c)) : Bool :=
  part.toOption.isSome

/-- The marks of all nodes of a tree, in traversal order. -/
def marks {c : Category} : Tree c → List Mark
  | .nil => []
  | .cons head tail => head.marks ++ tail.marks
  | .absent => []
  | .present part => part.marks
  | .program m body => m :: body.marks
  | .blockStatement b => b.marks
  | .breakStatement m label => m :: (label.map (·.mark)).toList
  | .classDeclaration declared => declared.marks
  | .continueStatement m label => m :: (label.map (·.mark)).toList
  | .debuggerStatement m => [m]
  | .directiveStatement m _ _ => [m]
  | .doWhileStatement m body test => m :: (body.marks ++ test.marks)
  | .emptyStatement m => [m]
  | .exportAllDeclaration m source exported => m :: ([source.mark] ++ exported.marks)
  | .exportDefaultDeclaration m d => m :: d.marks
  | .exportNamedDeclaration m d specifiers source =>
    m :: (d.marks ++ specifiers.marks ++ (source.map (·.mark)).toList)
  | .expressionStatement m e _ => m :: e.marks
  | .iterationStatement _ m left right body _ => m :: (left.marks ++ right.marks ++ body.marks)
  | .forStatement m init test update body =>
    m :: (init.marks ++ test.marks ++ update.marks ++ body.marks)
  | .functionDeclaration declared => declared.marks
  | .ifStatement m test consequent alternate =>
    m :: (test.marks ++ consequent.marks ++ alternate.marks)
  | .importDeclaration m specifiers source => m :: (specifiers.marks ++ [source.mark])
  | .labeledStatement m label body => m :: ([label.mark] ++ body.marks)
  | .returnStatement m argument => m :: argument.marks
  | .switchStatement m discriminant cases => m :: (discriminant.marks ++ cases.marks)
  | .throwStatement m argument => m :: argument.marks
  | .tryStatement m b handler finalizer => m :: (b.marks ++ handler.marks ++ finalizer.marks)
  | .variableDeclaration d => d.marks
  | .whileStatement m test body => m :: (test.marks ++ body.marks)
  | .withStatement m object body => m :: (object.marks ++ body.marks)
  | .block m body => m :: body.marks
  | .declaration m _ declarators => m :: declarators.marks
  | .declarator m target init => m :: (target.marks ++ init.marks)
  | .switchCase m test consequent => m :: (test.marks ++ consequent.marks)
  | .catchClause m param body => m :: (param.marks ++ body.marks)
  | .initDeclaration d => d.marks
  | .initExpression e => e.marks
  | .targetDeclaration d => d.marks
  | .targetPattern p => p.marks
  | .importDefaultSpecifier m binding => [m, binding.mark]
  | .importNamespaceSpecifier m binding => [m, binding.mark]
  | .importNamedSpecifier m imported binding => m :: (imported.marks ++ [binding.mark])
  | .exportSpecifier m binding exported => m :: (binding.marks ++ exported.marks)
  | .defaultFunction declared => declared.marks
  | .defaultClass declared => declared.marks
  | .defaultExpression e => e.marks
  | .function _ m name params body _ _ _ =>
    m :: ((name.map (·.mark)).toList ++ params.marks ++ body.marks)
  | .blockBody b => b.marks
  | .expressionBody e => e.marks
  | .classNode _ m name superclass body =>
    m :: ((name.map (·.mark)).toList ++ superclass.marks ++ body.marks)
  | .classBody m members => m :: members.marks
  | .method m key value _ _ _ => m :: (key.marks ++ value.marks)
  | .arrayExpression m elements => m :: elements.marks
  | .arrowFunction fn => fn.marks
  | .assignmentExpression m _ left right => m :: (left.marks ++ right.marks)
  | .awaitExpression m argument => m :: argument.marks
  | .binaryExpression _ m _ left right => m :: (left.marks ++ right.marks)
  | .callExpression m callee arguments _ => m :: (callee.marks ++ arguments.marks)
  | .chainExpression m e => m :: e.marks
  | .classExpression value => value.marks
  | .conditionalExpression m test consequent alternate =>
    m :: (test.marks ++ consequent.marks ++ alternate.marks)
  | .functionExpression fn => fn.marks
  | .identifier i => [i.mark]
  | .importExpression m source => m :: source.marks
  | .literal l => [l.mark]
  | .memberExpression a => a.marks
  | .metaProperty m object prop => m :: ([object.mark] ++ [prop.mark])
  | .newExpression m callee arguments _ => m :: (callee.marks ++ arguments.marks)
  | .objectExpression m members => m :: members.marks
  | .sequenceExpression m expressions => m :: expressions.marks
  | .spreadExpression s => s.marks
  | .superExpression m => [m]
  | .taggedTemplate m tag quasi => m :: (tag.marks ++ quasi.marks)
  | .templateExpression t => t.marks
  | .thisExpression m => [m]
  | .unaryExpression m _ _ argument => m :: argument.marks
  | .updateExpression m _ _ argument => m :: argument.marks
  | .yieldExpression m argument _ => m :: argument.marks
  | .access m object prop _ _ => m :: (object.marks ++ prop.marks)
  | .spread m argument => m :: argument.marks
  | .template m quasis expressions => m :: (quasis.map (·.mark) ++ expressions.marks)
  | .property m key value _ _ _ _ => m :: (key.marks ++ value.marks)
  | .spreadMember s => s.marks
  | .arrayPattern m elements => m :: elements.marks
  | .assignmentPattern m left right => m :: (left.marks ++ right.marks)
  | .identifierPattern i => [i.mark]
  | .memberPattern a => a.marks
  | .objectPattern m members => m :: members.marks
  | .restPattern r => r.marks
  | .rest m argument => m :: argument.marks
  | .patternProperty m key value _ _ => m :: (key.marks ++ value.marks)
  | .restMember r => r.marks

/-- The numbers of all nodes of a tree, in traversal order. -/
def ids {c : Category} (t : Tree c) : List Nat :=
  t.marks.map (·.id)

end Tree

/-! ## Nodes that several families share -/

/-- The mark of a function. -/
def Function.mark {form : FunctionForm} : Tree (.function form) → Mark
  | .function _ m _ _ _ _ _ _ => m

/-- The mark of a class. -/
def Class.mark {form : ClassForm} : Tree (.classOf form) → Mark
  | .classNode _ m _ _ _ => m

/-- The mark of a block. -/
def Block.mark : Tree .block → Mark
  | .block m _ => m

/-- The mark of a variable declaration. -/
def Declaration.mark : Tree .declaration → Mark
  | .declaration m _ _ => m

/-- The mark of a member access. -/
def Access.mark : Tree .access → Mark
  | .access m _ _ _ _ => m

/-- The mark of a spread. -/
def Spread.mark : Tree .spread → Mark
  | .spread m _ => m

/-- The mark of a rest element. -/
def Rest.mark : Tree .rest → Mark
  | .rest m _ => m

/-- The mark of a template. -/
def Template.mark : Tree .template → Mark
  | .template m _ _ => m

/-! ## Expressions -/

/-- The mark of an expression. -/
def Expr.mark : Expr → Mark
  | .arrowFunction function => Function.mark function
  | .functionExpression function => Function.mark function
  | .classExpression value => Class.mark value
  | .memberExpression access => Access.mark access
  | .spreadExpression spread => Spread.mark spread
  | .templateExpression template => Template.mark template
  | .identifier identifier => identifier.mark
  | .literal literal => literal.mark
  | .arrayExpression m _ => m
  | .assignmentExpression m _ _ _ => m
  | .awaitExpression m _ => m
  | .binaryExpression _ m _ _ _ => m
  | .callExpression m _ _ _ => m
  | .chainExpression m _ => m
  | .conditionalExpression m _ _ _ => m
  | .importExpression m _ => m
  | .metaProperty m _ _ => m
  | .newExpression m _ _ _ => m
  | .objectExpression m _ => m
  | .sequenceExpression m _ => m
  | .superExpression m => m
  | .taggedTemplate m _ _ => m
  | .thisExpression m => m
  | .unaryExpression m _ _ _ => m
  | .updateExpression m _ _ _ => m
  | .yieldExpression m _ _ => m

/-- The type of an expression. -/
def Expr.typeName : Expr → String
  | .arrayExpression .. => "ArrayExpression"
  | .arrowFunction _ => "ArrowFunctionExpression"
  | .assignmentExpression .. => "AssignmentExpression"
  | .awaitExpression .. => "AwaitExpression"
  | .binaryExpression form .. => form.typeName
  | .callExpression .. => "CallExpression"
  | .chainExpression .. => "ChainExpression"
  | .classExpression _ => "ClassExpression"
  | .conditionalExpression .. => "ConditionalExpression"
  | .functionExpression _ => "FunctionExpression"
  | .identifier _ => "Identifier"
  | .importExpression .. => "ImportExpression"
  | .literal _ => "Literal"
  | .memberExpression _ => "MemberExpression"
  | .metaProperty .. => "MetaProperty"
  | .newExpression .. => "NewExpression"
  | .objectExpression .. => "ObjectExpression"
  | .sequenceExpression .. => "SequenceExpression"
  | .spreadExpression _ => "SpreadElement"
  | .superExpression _ => "Super"
  | .taggedTemplate .. => "TaggedTemplateExpression"
  | .templateExpression _ => "TemplateLiteral"
  | .thisExpression _ => "ThisExpression"
  | .unaryExpression .. => "UnaryExpression"
  | .updateExpression .. => "UpdateExpression"
  | .yieldExpression .. => "YieldExpression"

/-- The identifier that an expression is. -/
def Expr.identifier? : Expr → Option Identifier
  | .identifier identifier => some identifier
  | _ => none

/-! ## Patterns -/

/-- The mark of a pattern. -/
def Pat.mark : Pat → Mark
  | .arrayPattern m _ => m
  | .assignmentPattern m _ _ => m
  | .identifierPattern identifier => identifier.mark
  | .memberPattern access => Access.mark access
  | .objectPattern m _ => m
  | .restPattern rest => Rest.mark rest

/-- The type of a pattern. -/
def Pat.typeName : Pat → String
  | .arrayPattern .. => "ArrayPattern"
  | .assignmentPattern .. => "AssignmentPattern"
  | .identifierPattern _ => "Identifier"
  | .memberPattern _ => "MemberExpression"
  | .objectPattern .. => "ObjectPattern"
  | .restPattern _ => "RestElement"

/-- The identifier that a pattern is. -/
def Pat.identifier? : Pat → Option Identifier
  | .identifierPattern identifier => some identifier
  | _ => none

/-! ## Statements -/

/-- The mark of a statement. -/
def Stmt.mark : Stmt → Mark
  | .blockStatement block => Block.mark block
  | .classDeclaration declared => Class.mark declared
  | .functionDeclaration declared => Function.mark declared
  | .variableDeclaration declaration => Declaration.mark declaration
  | .breakStatement m _ => m
  | .continueStatement m _ => m
  | .debuggerStatement m => m
  | .directiveStatement m _ _ => m
  | .doWhileStatement m _ _ => m
  | .emptyStatement m => m
  | .exportAllDeclaration m _ _ => m
  | .exportDefaultDeclaration m _ => m
  | .exportNamedDeclaration m _ _ _ => m
  | .expressionStatement m _ _ => m
  | .iterationStatement _ m _ _ _ _ => m
  | .forStatement m _ _ _ _ => m
  | .ifStatement m _ _ _ => m
  | .importDeclaration m _ _ => m
  | .labeledStatement m _ _ => m
  | .returnStatement m _ => m
  | .switchStatement m _ _ => m
  | .throwStatement m _ => m
  | .tryStatement m _ _ _ => m
  | .whileStatement m _ _ => m
  | .withStatement m _ _ => m

/-- The type of a statement. -/
def Stmt.typeName : Stmt → String
  | .blockStatement _ => "BlockStatement"
  | .breakStatement .. => "BreakStatement"
  | .classDeclaration _ => "ClassDeclaration"
  | .continueStatement .. => "ContinueStatement"
  | .debuggerStatement _ => "DebuggerStatement"
  | .directiveStatement .. => "DirectiveStatement"
  | .doWhileStatement .. => "DoWhileStatement"
  | .emptyStatement _ => "EmptyStatement"
  | .exportAllDeclaration .. => "ExportAllDeclaration"
  | .exportDefaultDeclaration .. => "ExportDefaultDeclaration"
  | .exportNamedDeclaration .. => "ExportNamedDeclaration"
  | .expressionStatement .. => "ExpressionStatement"
  | .iterationStatement form .. => form.typeName
  | .forStatement .. => "ForStatement"
  | .functionDeclaration _ => "FunctionDeclaration"
  | .ifStatement .. => "IfStatement"
  | .importDeclaration .. => "ImportDeclaration"
  | .labeledStatement .. => "LabeledStatement"
  | .returnStatement .. => "ReturnStatement"
  | .switchStatement .. => "SwitchStatement"
  | .throwStatement .. => "ThrowStatement"
  | .tryStatement .. => "TryStatement"
  | .variableDeclaration _ => "VariableDeclaration"
  | .whileStatement .. => "WhileStatement"
  | .withStatement .. => "WithStatement"

/-! ## Smaller families -/

/-- The mark of a member of an object expression. -/
def ObjectMember.mark : Tree .objectMember → Mark
  | .property m _ _ _ _ _ _ => m
  | .spreadMember spread => Spread.mark spread

/-- The type of a member of an object expression. -/
def ObjectMember.typeName : Tree .objectMember → String
  | .property .. => "Property"
  | .spreadMember _ => "SpreadElement"

/-- The mark of a member of an object pattern. -/
def PatternMember.mark : Tree .patternMember → Mark
  | .patternProperty m _ _ _ _ => m
  | .restMember rest => Rest.mark rest

/-- The type of a member of an object pattern. -/
def PatternMember.typeName : Tree .patternMember → String
  | .patternProperty .. => "Property"
  | .restMember _ => "RestElement"

/-- The mark of a member of a class. -/
def ClassMember.mark : Tree .method → Mark
  | .method m _ _ _ _ _ => m

/-- The type of a member of a class. -/
def ClassMember.typeName : Tree .method → String
  | .method .. => "MethodDefinition"

/-- The mark of an import specifier. -/
def ImportSpecifier.mark : Tree .importSpecifier → Mark
  | .importDefaultSpecifier m _ => m
  | .importNamespaceSpecifier m _ => m
  | .importNamedSpecifier m _ _ => m

/-- The type of an import specifier. -/
def ImportSpecifier.typeName : Tree .importSpecifier → String
  | .importDefaultSpecifier .. => "ImportDefaultSpecifier"
  | .importNamespaceSpecifier .. => "ImportNamespaceSpecifier"
  | .importNamedSpecifier .. => "ImportSpecifier"

/-- The name that an import specifier binds. -/
def ImportSpecifier.binding : Tree .importSpecifier → Identifier
  | .importDefaultSpecifier _ binding => binding
  | .importNamespaceSpecifier _ binding => binding
  | .importNamedSpecifier _ _ binding => binding

/-- The mark of a program. -/
def Program.mark : Program → Mark
  | .program m _ => m

end EcmaScope
