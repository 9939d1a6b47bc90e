import EcmaScope.Node

/-!
# The syntax tree

Programs are ESTree nodes. One family holds them all: the category in the type of a tree says what
it may stand for, so a statement never stands where an expression belongs. Lists and optional
parts are categories too, which makes every traversal of a program one structural recursion.

The parts of a constructor are in the order in which a traversal meets them.

## Main definitions

* `Category`: what a tree stands for.
* `Tree`: the trees of a category.
* `Expr`, `Stmt`, `Pat`, `Program`: names for the main categories.
-/

namespace EcmaScope

/-- What a tree stands for. -/
inductive Category where
  | program
  | statement
  | expression
  | pattern
  | block
  | declaration
  | declarator
  | switchCase
  | catchClause
  | function (form : FunctionForm)
  | functionBody
  | classOf (form : ClassForm)
  | classBody
  | method
  | objectMember
  | patternMember
  | access
  | spread
  | rest
  | template
  | forInit
  | forTarget
  | importSpecifier
  | exportSpecifier
  | exportDefault
  | list (item : Category)
  | optional (part : Category)
  deriving DecidableEq, Repr, Inhabited

/-- Trees by category. -/
inductive Tree : Category → Type where
  -- lists and optional parts
  | nil {c : Category} : Tree (.list c)
  | cons {c : Category} (head : Tree c) (tail : Tree (.list c)) : Tree (.list c)
  | absent {c : Category} : Tree (.optional c)
  | present {c : Category} (part : Tree c) : Tree (.optional c)
  -- programs
  | program (mark : Mark) (body : Tree (.list .statement)) : Tree .program
  -- statements
  | blockStatement (block : Tree .block) : Tree .statement
  | breakStatement (mark : Mark) (label : Option Identifier) : Tree .statement
  | classDeclaration (declared : Tree (.classOf .declaration)) : Tree .statement
  | continueStatement (mark : Mark) (label : Option Identifier) : Tree .statement
  | debuggerStatement (mark : Mark) : Tree .statement
  | directiveStatement (mark : Mark) (directive : String) (raw : Option String) : Tree .statement
  | doWhileStatement (mark : Mark) (body : Tree .statement) (test : Tree .expression) :
      Tree .statement
  | emptyStatement (mark : Mark) : Tree .statement
  | exportAllDeclaration (mark : Mark) (source : Literal)
      (exported : Tree (.optional .expression)) : Tree .statement
  | exportDefaultDeclaration (mark : Mark) (declaration : Tree .exportDefault) : Tree .statement
  | exportNamedDeclaration (mark : Mark) (declaration : Tree (.optional .statement))
      (specifiers : Tree (.list .exportSpecifier)) (source : Option Literal) : Tree .statement
  | expressionStatement (mark : Mark) (expression : Tree .expression) (directive : Option String) :
      Tree .statement
  | iterationStatement (form : IterationForm) (mark : Mark) (left : Tree .forTarget)
      (right : Tree .expression) (body : Tree .statement) (await : Bool) : Tree .statement
  | forStatement (mark : Mark) (init : Tree (.optional .forInit))
      (test : Tree (.optional .expression)) (update : Tree (.optional .expression))
      (body : Tree .statement) : Tree .statement
  | functionDeclaration (declared : Tree (.function .declaration)) : Tree .statement
  | ifStatement (mark : Mark) (test : Tree .expression) (consequent : Tree .statement)
      (alternate : Tree (.optional .statement)) : Tree .statement
  | importDeclaration (mark : Mark) (specifiers : Tree (.list .importSpecifier))
      (source : Literal) : Tree .statement
  | labeledStatement (mark : Mark) (label : Identifier) (body : Tree .statement) : Tree .statement
  | returnStatement (mark : Mark) (argument : Tree (.optional .expression)) : Tree .statement
  | switchStatement (mark : Mark) (discriminant : Tree .expression)
      (cases : Tree (.list .switchCase)) : Tree .statement
  | throwStatement (mark : Mark) (argument : Tree .expression) : Tree .statement
  | tryStatement (mark : Mark) (block : Tree .block) (handler : Tree (.optional .catchClause))
      (finalizer : Tree (.optional .block)) : Tree .statement
  | variableDeclaration (declaration : Tree .declaration) : Tree .statement
  | whileStatement (mark : Mark) (test : Tree .expression) (body : Tree .statement) :
      Tree .statement
  | withStatement (mark : Mark) (object : Tree .expression) (body : Tree .statement) :
      Tree .statement
  -- parts of statements
  | block (mark : Mark) (body : Tree (.list .statement)) : Tree .block
  | declaration (mark : Mark) (kind : VariableKind) (declarators : Tree (.list .declarator)) :
      Tree .declaration
  | declarator (mark : Mark) (target : Tree .pattern) (init : Tree (.optional .expression)) :
      Tree .declarator
  | switchCase (mark : Mark) (test : Tree (.optional .expression))
      (consequent : Tree (.list .statement)) : Tree .switchCase
  | catchClause (mark : Mark) (param : Tree (.optional .pattern)) (body : Tree .block) :
      Tree .catchClause
  | initDeclaration (declaration : Tree .declaration) : Tree .forInit
  | initExpression (expression : Tree .expression) : Tree .forInit
  | targetDeclaration (declaration : Tree .declaration) : Tree .forTarget
  | targetPattern (pattern : Tree .pattern) : Tree .forTarget
  | importDefaultSpecifier (mark : Mark) (binding : Identifier) : Tree .importSpecifier
  | importNamespaceSpecifier (mark : Mark) (binding : Identifier) : Tree .importSpecifier
  | importNamedSpecifier (mark : Mark) (imported : Tree .expression) (binding : Identifier) :
      Tree .importSpecifier
  | exportSpecifier (mark : Mark) (binding : Tree .expression) (exported : Tree .expression) :
      Tree .exportSpecifier
  | defaultFunction (declared : Tree (.function .declaration)) : Tree .exportDefault
  | defaultClass (declared : Tree (.classOf .declaration)) : Tree .exportDefault
  | defaultExpression (expression : Tree .expression) : Tree .exportDefault
  -- functions and classes
  | function (form : FunctionForm) (mark : Mark) (name : Option Identifier)
      (params : Tree (.list .pattern)) (body : Tree .functionBody)
      (generator async expression : Bool) : Tree (.function form)
  | blockBody (block : Tree .block) : Tree .functionBody
  | expressionBody (expression : Tree .expression) : Tree .functionBody
  | classNode (form : ClassForm) (mark : Mark) (name : Option Identifier)
      (superclass : Tree (.optional .expression)) (body : Tree .classBody) : Tree (.classOf form)
  | classBody (mark : Mark) (members : Tree (.list .method)) : Tree .classBody
  | method (mark : Mark) (key : Tree .expression) (value : Tree (.function .expression))
      (kind : MethodKind) (computed isStatic : Bool) : Tree .method
  -- expressions
  | arrayExpression (mark : Mark) (elements : Tree (.list (.optional .expression))) :
      Tree .expression
  | arrowFunction (function : Tree (.function .arrow)) : Tree .expression
  | assignmentExpression (mark : Mark) (operator : AssignmentOperator) (left : Tree .pattern)
      (right : Tree .expression) : Tree .expression
  | awaitExpression (mark : Mark) (argument : Tree .expression) : Tree .expression
  | binaryExpression (form : BinaryForm) (mark : Mark) (operator : String)
      (left : Tree .expression) (right : Tree .expression) : Tree .expression
  | callExpression (mark : Mark) (callee : Tree .expression) (arguments : Tree (.list .expression))
      (isOptional : Bool) : Tree .expression
  | chainExpression (mark : Mark) (expression : Tree .expression) : Tree .expression
  | classExpression (value : Tree (.classOf .expression)) : Tree .expression
  | conditionalExpression (mark : Mark) (test : Tree .expression) (consequent : Tree .expression)
      (alternate : Tree .expression) : Tree .expression
  | functionExpression (function : Tree (.function .expression)) : Tree .expression
  | identifier (identifier : Identifier) : Tree .expression
  | importExpression (mark : Mark) (source : Tree .expression) : Tree .expression
  | literal (literal : Literal) : Tree .expression
  | memberExpression (access : Tree .access) : Tree .expression
  | metaProperty (mark : Mark) (object : Identifier) (property : Identifier) : Tree .expression
  | newExpression (mark : Mark) (callee : Tree .expression) (arguments : Tree (.list .expression))
      (isOptional : Bool) : Tree .expression
  | objectExpression (mark : Mark) (members : Tree (.list .objectMember)) : Tree .expression
  | sequenceExpression (mark : Mark) (expressions : Tree (.list .expression)) : Tree .expression
  | spreadExpression (spread : Tree .spread) : Tree .expression
  | superExpression (mark : Mark) : Tree .expression
  | taggedTemplate (mark : Mark) (tag : Tree .expression) (quasi : Tree .template) :
      Tree .expression
  | templateExpression (template : Tree .template) : Tree .expression
  | thisExpression (mark : Mark) : Tree .expression
  | unaryExpression (mark : Mark) (operator : String) (leading : Bool)
      (argument : Tree .expression) : Tree .expression
  | updateExpression (mark : Mark) (operator : UpdateOperator) (leading : Bool)
      (argument : Tree .expression) : Tree .expression
  | yieldExpression (mark : Mark) (argument : Tree (.optional .expression)) (delegate : Bool) :
      Tree .expression
  -- parts of expressions
  | access (mark : Mark) (object : Tree .expression) (property : Tree .expression)
      (computed isOptional : Bool) : Tree .access
  | spread (mark : Mark) (argument : Tree .expression) : Tree .spread
  | template (mark : Mark) (quasis : List TemplateElement)
      (expressions : Tree (.list .expression)) : Tree .template
  | property (mark : Mark) (key : Tree .expression) (value : Tree .expression)
      (kind : PropertyKind) (method shorthand computed : Bool) : Tree .objectMember
  | spreadMember (spread : Tree .spread) : Tree .objectMember
  -- patterns
  | arrayPattern (mark : Mark) (elements : Tree (.list (.optional .pattern))) : Tree .pattern
  | assignmentPattern (mark : Mark) (left : Tree .pattern) (right : Tree .expression) :
      Tree .pattern
  | identifierPattern (identifier : Identifier) : Tree .pattern
  | memberPattern (access : Tree .access) : Tree .pattern
  | objectPattern (mark : Mark) (members : Tree (.list .patternMember)) : Tree .pattern
  | restPattern (rest : Tree .rest) : Tree .pattern
  | rest (mark : Mark) (argument : Tree .pattern) : Tree .rest
  | patternProperty (mark : Mark) (key : Tree .expression) (value : Tree .pattern)
      (computed shorthand : Bool) : Tree .patternMember
  | restMember (rest : Tree .rest) : Tree .patternMember

/-- Whole programs. -/
abbrev Program := Tree .program

/-- Statements. -/
abbrev Stmt := Tree .statement

/-- Expressions. -/
abbrev Expr := Tree .expression

/-- Patterns: what a value may be assigned or bound to. -/
abbrev Pat := Tree .pattern

end EcmaScope
