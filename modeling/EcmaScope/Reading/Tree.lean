import EcmaScope.Tree.Numbering
import EcmaScope.Reading.Leaf
import EcmaScope.Json.Text

/-!
# Reading trees

A JSON value is read as a tree of a given category. Statements, expressions, patterns and the
smaller families name their type in the field `type`, which is looked at first. Below the root of a
value the type may be given by its position in the list of the family's types instead of its name.
Where only one node type may stand, `type` is not looked at. Where nodes of two families may stand,
the name of the type chooses between them.

A value is read by giving the readings of its parts to the rule for its category, so the recursion
goes over the value alone.

## Main definitions

* `Part`: a part of a value together with its reading.
* `Category.tags`: the types of a family.
* `Json.read`: reads a value as a tree of a category.
* `Program.ofJson`: reads a value as a program and numbers its nodes.
* `Program.ofText`: the same for JSON text.
-/

namespace EcmaScope

/-- The types of the members of a family, in alphabetical order. -/
def Category.tags : Category → List String
  | .statement =>
    ["BlockStatement", "BreakStatement", "ClassDeclaration", "ContinueStatement",
      "DebuggerStatement", "DirectiveStatement", "DoWhileStatement", "EmptyStatement",
      "ExportAllDeclaration", "ExportDefaultDeclaration", "ExportNamedDeclaration",
      "ExpressionStatement", "ForInStatement", "ForOfStatement", "ForStatement",
      "FunctionDeclaration", "IfStatement", "ImportDeclaration", "LabeledStatement",
      "ReturnStatement", "SwitchStatement", "ThrowStatement", "TryStatement",
      "VariableDeclaration", "WhileStatement", "WithStatement"]
  | .expression =>
    ["ArrayExpression", "ArrowFunctionExpression", "AssignmentExpression", "AwaitExpression",
      "BinaryExpression", "CallExpression", "ChainExpression", "ClassExpression",
      "ConditionalExpression", "FunctionExpression", "Identifier", "ImportExpression", "Literal",
      "LogicalExpression", "MemberExpression", "MetaProperty", "NewExpression",
      "ObjectExpression", "SequenceExpression", "SpreadElement", "Super",
      "TaggedTemplateExpression", "TemplateLiteral", "ThisExpression", "UnaryExpression",
      "UpdateExpression", "YieldExpression"]
  | .pattern =>
    ["ArrayPattern", "AssignmentPattern", "Identifier", "MemberExpression", "ObjectPattern",
      "RestElement"]
  | .objectMember => ["Property", "SpreadElement"]
  | .patternMember => ["Property", "RestElement"]
  | .method => ["MethodDefinition"]
  | .importSpecifier =>
    ["ImportDefaultSpecifier", "ImportNamespaceSpecifier", "ImportSpecifier"]
  | _ => []

/-- A part of a value, and what it can be read as. -/
structure Part where
  value : Json
  read : (c : Category) → Except ReadError (Tree c)

/-- The parts of an object by name. -/
abbrev Parts := String → Option Part

namespace Parts

/-- The values of the parts. -/
def values (o : Parts) (field : String) : Option Json :=
  (o field).map (·.value)

/-- A tree that must be there. -/
def tree (o : Parts) (field : String) (c : Category) : Fields (Tree c) :=
  Fields.required o field (·.read c)

/-- A tree that may be null or left out. -/
def tree? (o : Parts) (field : String) (c : Category) : Fields (Tree (.optional c)) :=
  Fields.defaulted o field .absent (·.read (.optional c))

/-- A required string. -/
def text (o : Parts) (field : String) : Fields String :=
  readText o.values field

/-- A string that may be null or left out. -/
def text? (o : Parts) (field : String) : Fields (Option String) :=
  readText? o.values field

/-- A flag that is off when it is left out. -/
def flag (o : Parts) (field : String) : Fields Bool :=
  readFlag o.values field

/-- A required word. -/
def word {α : Type} (o : Parts) (field : String) (words : List (String × α)) : Fields α :=
  Fields.required o.values field (readWord words)

/-- A required identifier. -/
def name (o : Parts) (field : String) : Fields Identifier :=
  Fields.required o.values field Identifier.ofJson

/-- An identifier that may be null or left out. -/
def name? (o : Parts) (field : String) : Fields (Option Identifier) :=
  Fields.defaulted o.values field none (Json.readOption Identifier.ofJson)

/-- A required literal. -/
def source (o : Parts) (field : String) : Fields Literal :=
  Fields.required o.values field Literal.ofJson

/-- A literal that may be null or left out. -/
def source? (o : Parts) (field : String) : Fields (Option Literal) :=
  Fields.defaulted o.values field none (Json.readOption Literal.ofJson)

/-- A node with the fields of the object. -/
def node {α : Type} (o : Parts) (fields : Mark → Fields α) : Except ReadError α :=
  readNode o.values fields

/-- The type that an object gives as a member of a family whose types are `types`. A part of a
larger value may give its position among them in place of its name. -/
def tag (o : Parts) (isPart : Bool) (types : List String) : Except ReadError String :=
  match o.values "type" with
  | some (.string tag) => .ok tag
  | some (.number (.integer (.ofNat position))) =>
    match isPart, types[position]? with
    | true, some tag => .ok tag
    | _, _ => .error .invalid
  | some _ => .error .invalid
  | none => .error (.missingField "type")

/-- The type that an object names, where it decides between families. -/
def typeName (o : Parts) : Except ReadError String :=
  match o.values "type" with
  | some (.string tag) => .ok tag
  | _ => .error .untagged

/-! ## Nodes at positions for one type -/

/-- The whole program. -/
def program (o : Parts) : Except ReadError Program :=
  o.node fun m => .program m <$> o.tree "body" (.list .statement)

/-- A block. -/
def block (o : Parts) : Except ReadError (Tree .block) :=
  o.node fun m => .block m <$> o.tree "body" (.list .statement)

/-- A variable declaration. -/
def declaration (o : Parts) : Except ReadError (Tree .declaration) :=
  o.node fun m => .declaration m
    <$> o.word "kind" VariableKind.spellings
    <*> o.tree "declarations" (.list .declarator)

/-- A declarator. -/
def declarator (o : Parts) : Except ReadError (Tree .declarator) :=
  o.node fun m => .declarator m <$> o.tree "id" .pattern <*> o.tree? "init" .expression

/-- A case of a switch. -/
def switchCase (o : Parts) : Except ReadError (Tree .switchCase) :=
  o.node fun m => .switchCase m
    <$> o.tree? "test" .expression
    <*> o.tree "consequent" (.list .statement)

/-- A catch clause. -/
def catchClause (o : Parts) : Except ReadError (Tree .catchClause) :=
  o.node fun m => .catchClause m <$> o.tree? "param" .pattern <*> o.tree "body" .block

/-- A function. -/
def function (o : Parts) (form : FunctionForm) : Except ReadError (Tree (.function form)) :=
  o.node fun m => .function form m
    <$> o.name? "id"
    <*> o.tree "params" (.list .pattern)
    <*> o.tree "body" .functionBody
    <*> o.flag "generator"
    <*> o.flag "async"
    <*> o.flag "expression"

/-- A class. -/
def classNode (o : Parts) (form : ClassForm) : Except ReadError (Tree (.classOf form)) :=
  o.node fun m => .classNode form m
    <$> o.name? "id"
    <*> o.tree? "superClass" .expression
    <*> o.tree "body" .classBody

/-- The body of a class. -/
def classBody (o : Parts) : Except ReadError (Tree .classBody) :=
  o.node fun m => .classBody m <$> o.tree "body" (.list .method)

/-- A member access. -/
def access (o : Parts) : Except ReadError (Tree .access) :=
  o.node fun m => .access m
    <$> o.tree "object" .expression
    <*> o.tree "property" .expression
    <*> o.flag "computed"
    <*> o.flag "optional"

/-- A spread. -/
def spread (o : Parts) : Except ReadError (Tree .spread) :=
  o.node fun m => .spread m <$> o.tree "argument" .expression

/-- A rest element. -/
def rest (o : Parts) : Except ReadError (Tree .rest) :=
  o.node fun m => .rest m <$> o.tree "argument" .pattern

/-- A template. -/
def template (o : Parts) : Except ReadError (Tree .template) :=
  o.node fun m => .template m
    <$> Fields.required o.values "quasis" readTemplateElements
    <*> o.tree "expressions" (.list .expression)

/-- An export specifier. -/
def exportSpecifier (o : Parts) : Except ReadError (Tree .exportSpecifier) :=
  o.node fun m => .exportSpecifier m
    <$> o.tree "local" .expression
    <*> o.tree "exported" .expression

/-! ## Families -/

/-- A loop over a value. -/
def iteration (o : Parts) (form : IterationForm) : Except ReadError Stmt :=
  o.node fun m => .iterationStatement form m
    <$> o.tree "left" .forTarget
    <*> o.tree "right" .expression
    <*> o.tree "body" .statement
    <*> o.flag "await"

/-- A statement of the type `tag`. -/
def statement (o : Parts) (tag : String) : Except ReadError Stmt :=
  match tag with
  | "BlockStatement" => .blockStatement <$> o.block
  | "BreakStatement" => o.node fun m => .breakStatement m <$> o.name? "label"
  | "ClassDeclaration" => .classDeclaration <$> o.classNode .declaration
  | "ContinueStatement" => o.node fun m => .continueStatement m <$> o.name? "label"
  | "DebuggerStatement" => o.node fun m => pure (.debuggerStatement m)
  | "DirectiveStatement" =>
    o.node fun m => .directiveStatement m
      <$> Fields.defaulted o.values "directive" "" Json.readString
      <*> o.text? "raw"
  | "DoWhileStatement" =>
    o.node fun m => .doWhileStatement m <$> o.tree "body" .statement <*> o.tree "test" .expression
  | "EmptyStatement" => o.node fun m => pure (.emptyStatement m)
  | "ExportAllDeclaration" =>
    o.node fun m => .exportAllDeclaration m <$> o.source "source" <*> o.tree? "exported" .expression
  | "ExportDefaultDeclaration" =>
    o.node fun m => .exportDefaultDeclaration m <$> o.tree "declaration" .exportDefault
  | "ExportNamedDeclaration" =>
    o.node fun m => .exportNamedDeclaration m
      <$> o.tree? "declaration" .statement
      <*> Fields.defaulted o "specifiers" .nil (·.read (.list .exportSpecifier))
      <*> o.source? "source"
  | "ExpressionStatement" =>
    o.node fun m => .expressionStatement m
      <$> o.tree "expression" .expression
      <*> o.text? "directive"
  | "ForInStatement" => o.iteration .forIn
  | "ForOfStatement" => o.iteration .forOf
  | "ForStatement" =>
    o.node fun m => .forStatement m
      <$> o.tree? "init" .forInit
      <*> o.tree? "test" .expression
      <*> o.tree? "update" .expression
      <*> o.tree "body" .statement
  | "FunctionDeclaration" => .functionDeclaration <$> o.function .declaration
  | "IfStatement" =>
    o.node fun m => .ifStatement m
      <$> o.tree "test" .expression
      <*> o.tree "consequent" .statement
      <*> o.tree? "alternate" .statement
  | "ImportDeclaration" =>
    o.node fun m => .importDeclaration m
      <$> o.tree "specifiers" (.list .importSpecifier)
      <*> o.source "source"
  | "LabeledStatement" =>
    o.node fun m => .labeledStatement m <$> o.name "label" <*> o.tree "body" .statement
  | "ReturnStatement" => o.node fun m => .returnStatement m <$> o.tree? "argument" .expression
  | "SwitchStatement" =>
    o.node fun m => .switchStatement m
      <$> o.tree "discriminant" .expression
      <*> o.tree "cases" (.list .switchCase)
  | "ThrowStatement" => o.node fun m => .throwStatement m <$> o.tree "argument" .expression
  | "TryStatement" =>
    o.node fun m => .tryStatement m
      <$> o.tree "block" .block
      <*> o.tree? "handler" .catchClause
      <*> o.tree? "finalizer" .block
  | "VariableDeclaration" => .variableDeclaration <$> o.declaration
  | "WhileStatement" =>
    o.node fun m => .whileStatement m <$> o.tree "test" .expression <*> o.tree "body" .statement
  | "WithStatement" =>
    o.node fun m => .withStatement m <$> o.tree "object" .expression <*> o.tree "body" .statement
  | _ => .error (.unknownVariant tag)

/-- An operator between two operands. -/
def binary (o : Parts) (form : BinaryForm) : Except ReadError Expr :=
  o.node fun m => .binaryExpression form m
    <$> o.text "operator"
    <*> o.tree "left" .expression
    <*> o.tree "right" .expression

/-- A callee with arguments. -/
def call (o : Parts) (make : Mark → Expr → Tree (.list .expression) → Bool → Expr) :
    Except ReadError Expr :=
  o.node fun m => make m
    <$> o.tree "callee" .expression
    <*> o.tree "arguments" (.list .expression)
    <*> o.flag "optional"

/-- An expression of the type `tag`. -/
def expression (o : Parts) (tag : String) : Except ReadError Expr :=
  match tag with
  | "ArrayExpression" =>
    o.node fun m => .arrayExpression m <$> o.tree "elements" (.list (.optional .expression))
  | "ArrowFunctionExpression" => .arrowFunction <$> o.function .arrow
  | "AssignmentExpression" =>
    o.node fun m => .assignmentExpression m
      <$> o.word "operator" AssignmentOperator.spellings
      <*> o.tree "left" .pattern
      <*> o.tree "right" .expression
  | "AwaitExpression" => o.node fun m => .awaitExpression m <$> o.tree "argument" .expression
  | "BinaryExpression" => o.binary .binary
  | "CallExpression" => o.call .callExpression
  | "ChainExpression" => o.node fun m => .chainExpression m <$> o.tree "expression" .expression
  | "ClassExpression" => .classExpression <$> o.classNode .expression
  | "ConditionalExpression" =>
    o.node fun m => .conditionalExpression m
      <$> o.tree "test" .expression
      <*> o.tree "consequent" .expression
      <*> o.tree "alternate" .expression
  | "FunctionExpression" => .functionExpression <$> o.function .expression
  | "Identifier" => o.node fun m => (.identifier ⟨m, ·⟩) <$> o.text "name"
  | "ImportExpression" => o.node fun m => .importExpression m <$> o.tree "source" .expression
  | "Literal" => o.node fun m => .literal <$> Literal.fields o.values m
  | "LogicalExpression" => o.binary .logical
  | "MemberExpression" => .memberExpression <$> o.access
  | "MetaProperty" => o.node fun m => .metaProperty m <$> o.name "meta" <*> o.name "property"
  | "NewExpression" => o.call .newExpression
  | "ObjectExpression" =>
    o.node fun m => .objectExpression m <$> o.tree "properties" (.list .objectMember)
  | "SequenceExpression" =>
    o.node fun m => .sequenceExpression m <$> o.tree "expressions" (.list .expression)
  | "SpreadElement" => .spreadExpression <$> o.spread
  | "Super" => o.node fun m => pure (.superExpression m)
  | "TaggedTemplateExpression" =>
    o.node fun m => .taggedTemplate m <$> o.tree "tag" .expression <*> o.tree "quasi" .template
  | "TemplateLiteral" => .templateExpression <$> o.template
  | "ThisExpression" => o.node fun m => pure (.thisExpression m)
  | "UnaryExpression" =>
    o.node fun m => .unaryExpression m
      <$> o.text "operator"
      <*> o.flag "prefix"
      <*> o.tree "argument" .expression
  | "UpdateExpression" =>
    o.node fun m => .updateExpression m
      <$> o.word "operator" UpdateOperator.spellings
      <*> Fields.required o.values "prefix" Json.readBool
      <*> o.tree "argument" .expression
  | "YieldExpression" =>
    o.node fun m => .yieldExpression m <$> o.tree? "argument" .expression <*> o.flag "delegate"
  | _ => .error (.unknownVariant tag)

/-- A pattern of the type `tag`. -/
def pattern (o : Parts) (tag : String) : Except ReadError Pat :=
  match tag with
  | "ArrayPattern" =>
    o.node fun m => .arrayPattern m <$> o.tree "elements" (.list (.optional .pattern))
  | "AssignmentPattern" =>
    o.node fun m => .assignmentPattern m <$> o.tree "left" .pattern <*> o.tree "right" .expression
  | "Identifier" => o.node fun m => (.identifierPattern ⟨m, ·⟩) <$> o.text "name"
  | "MemberExpression" => .memberPattern <$> o.access
  | "ObjectPattern" =>
    o.node fun m => .objectPattern m <$> o.tree "properties" (.list .patternMember)
  | "RestElement" => .restPattern <$> o.rest
  | _ => .error (.unknownVariant tag)

/-- A member of an object expression of the type `tag`. -/
def objectMember (o : Parts) (tag : String) : Except ReadError (Tree .objectMember) :=
  match tag with
  | "Property" =>
    o.node fun m => .property m
      <$> o.tree "key" .expression
      <*> o.tree "value" .expression
      <*> o.word "kind" PropertyKind.spellings
      <*> o.flag "method"
      <*> o.flag "shorthand"
      <*> o.flag "computed"
  | "SpreadElement" => .spreadMember <$> o.spread
  | _ => .error (.unknownVariant tag)

/-- A member of an object pattern of the type `tag`. -/
def patternMember (o : Parts) (tag : String) : Except ReadError (Tree .patternMember) :=
  match tag with
  | "Property" =>
    o.node fun m => .patternProperty m
      <$> o.tree "key" .expression
      <*> o.tree "value" .pattern
      <*> o.flag "computed"
      <*> o.flag "shorthand"
  | "RestElement" => .restMember <$> o.rest
  | _ => .error (.unknownVariant tag)

/-- A member of a class of the type `tag`. -/
def method (o : Parts) (tag : String) : Except ReadError (Tree .method) :=
  match tag with
  | "MethodDefinition" =>
    o.node fun m => .method m
      <$> o.tree "key" .expression
      <*> o.tree "value" (.function .expression)
      <*> o.word "kind" MethodKind.spellings
      <*> o.flag "computed"
      <*> o.flag "static"
  | _ => .error (.unknownVariant tag)

/-- An import specifier of the type `tag`. -/
def importSpecifier (o : Parts) (tag : String) : Except ReadError (Tree .importSpecifier) :=
  match tag with
  | "ImportDefaultSpecifier" => o.node fun m => .importDefaultSpecifier m <$> o.name "local"
  | "ImportNamespaceSpecifier" => o.node fun m => .importNamespaceSpecifier m <$> o.name "local"
  | "ImportSpecifier" =>
    o.node fun m => .importNamedSpecifier m <$> o.tree "imported" .expression <*> o.name "local"
  | _ => .error (.unknownVariant tag)

/-! ## Positions for two families -/

/-- The body of a function. -/
def functionBody (o : Parts) (tag : String) : Except ReadError (Tree .functionBody) :=
  if tag = "BlockStatement" then .blockBody <$> o.block else .expressionBody <$> o.expression tag

/-- The first part of the head of a loop. -/
def forInit (o : Parts) (tag : String) : Except ReadError (Tree .forInit) :=
  if tag = "VariableDeclaration" then .initDeclaration <$> o.declaration
  else .initExpression <$> o.expression tag

/-- The target of a loop over a value. -/
def forTarget (o : Parts) (tag : String) : Except ReadError (Tree .forTarget) :=
  if tag = "VariableDeclaration" then .targetDeclaration <$> o.declaration
  else .targetPattern <$> o.pattern tag

/-- What a module exports by default. -/
def exportDefault (o : Parts) (tag : String) : Except ReadError (Tree .exportDefault) :=
  if tag = "FunctionDeclaration" then .defaultFunction <$> o.function .declaration
  else if tag = "ClassDeclaration" then .defaultClass <$> o.classNode .declaration
  else .defaultExpression <$> o.expression tag

/-- An object as a tree of a category; `isPart` says that it is a part of a larger value. -/
def read (o : Parts) (isPart : Bool) : (c : Category) → Except ReadError (Tree c)
  | .program => o.program
  | .statement => do o.statement (← o.tag isPart (Category.tags .statement))
  | .expression => do o.expression (← o.tag isPart (Category.tags .expression))
  | .pattern => do o.pattern (← o.tag isPart (Category.tags .pattern))
  | .block => o.block
  | .declaration => o.declaration
  | .declarator => o.declarator
  | .switchCase => o.switchCase
  | .catchClause => o.catchClause
  | .function form => o.function form
  | .functionBody => do o.functionBody (← o.typeName)
  | .classOf form => o.classNode form
  | .classBody => o.classBody
  | .method => do o.method (← o.tag isPart (Category.tags .method))
  | .objectMember => do o.objectMember (← o.tag isPart (Category.tags .objectMember))
  | .patternMember => do o.patternMember (← o.tag isPart (Category.tags .patternMember))
  | .access => o.access
  | .spread => o.spread
  | .rest => o.rest
  | .template => o.template
  | .forInit => do o.forInit (← o.typeName)
  | .forTarget => do o.forTarget (← o.typeName)
  | .importSpecifier => do o.importSpecifier (← o.tag isPart (Category.tags .importSpecifier))
  | .exportSpecifier => o.exportSpecifier
  | .exportDefault => do o.exportDefault (← o.typeName)
  | .list _ => .error .invalid
  | .optional c => .present <$> o.read isPart c

end Parts

/-- What the type of a node decides at a position. -/
inductive Tagging where
  /-- Nothing: one type of node may stand here. -/
  | fixed
  /-- Which member of a family the node is. -/
  | family
  /-- Which of two families the node belongs to. -/
  | mixed
  deriving DecidableEq, Repr

/-- What the type of a node decides at a position of a category. -/
def Category.tagging : Category → Tagging
  | .statement | .expression | .pattern | .objectMember | .patternMember | .method
  | .importSpecifier => .family
  | .functionBody | .forInit | .forTarget | .exportDefault => .mixed
  | _ => .fixed

namespace Part

/-- The items of an array as a list of trees, from left to right. -/
def readItems (c : Category) : List Part → Except ReadError (Tree (.list c))
  | [] => .ok .nil
  | p :: ps => do
    let head ← p.read c
    let tail ← readItems c ps
    return .cons head tail

/-- Why an array is not a node of a category: the first item stands where the type would. -/
def arrayError (c : Category) (items : List Part) : ReadError :=
  match c.tagging, items with
  | .fixed, _ => .invalid
  | .mixed, _ => .untagged
  | .family, [] => .missingField "type"
  | .family, p :: _ =>
    match p.value with
    | .string tag => if tag ∈ c.tags then .invalid else .unknownVariant tag
    | _ => .invalid

/-- An array as a tree of a category. -/
def readArray (items : List Part) : (c : Category) → Except ReadError (Tree c)
  | .list c => readItems c items
  | .optional c => .present <$> readArray items c
  | c => .error (arrayError c items)

/-- Why a value without parts is not a node of a category. -/
def scalarError (c : Category) : ReadError :=
  match c.tagging with
  | .mixed => .untagged
  | _ => .invalid

/-- A value without parts as a tree of a category: only null is one, where nothing may stand. -/
def readScalar (isNull : Bool) : (c : Category) → Except ReadError (Tree c)
  | .optional c => if isNull then .ok .absent else .present <$> readScalar isNull c
  | c => .error (scalarError c)

end Part

namespace Json

mutual

/-- Reads a value as a tree of a category; `isPart` says that it is a part of a larger value. -/
def readAt (isPart : Bool) : Json → (c : Category) → Except ReadError (Tree c)
  | .object members =>
    let named := parts members
    Parts.read (fun field => lookup field named) isPart
  | .array items => Part.readArray (itemParts items)
  | .null => Part.readScalar true
  | .bool _ => Part.readScalar false
  | .number _ => Part.readScalar false
  | .string _ => Part.readScalar false

/-- The parts of an object. -/
def parts : List (String × Json) → List (String × Part)
  | [] => []
  | (key, v) :: rest => (key, ⟨v, readAt true v⟩) :: parts rest

/-- The parts of an array. -/
def itemParts : List Json → List Part
  | [] => []
  | v :: rest => ⟨v, readAt true v⟩ :: itemParts rest

end

/-- Reads a value as a tree of a category. -/
def read (value : Json) (c : Category) : Except ReadError (Tree c) :=
  value.readAt false c

end Json

/-- Reads a value as a program and numbers its nodes; the value must name its type. -/
def Program.ofJson (value : Json) : Except ReadError Program :=
  match value.get? "type" with
  | some (.string tag) =>
    if tag = "Program" then Tree.number <$> value.read .program else .error (.notProgram tag)
  | _ => .error .untagged

/-- Why a text is not a program. -/
inductive SourceError where
  /-- The text is not JSON, or its values are nested too deeply. -/
  | notJson
  /-- The value does not fit. -/
  | unreadable (cause : ReadError)
  deriving DecidableEq, Repr

/-- The depth at which the nesting of a text is refused. -/
def nestingLimit : Nat :=
  128

/-- Reads a JSON text as a program and numbers its nodes. -/
def Program.ofText (text : String) : Except SourceError Program :=
  match Json.ofText? (some nestingLimit) text with
  | none => .error .notJson
  | some value =>
    match Program.ofJson value with
    | .ok p => .ok p
    | .error cause => .error (.unreadable cause)

end EcmaScope
