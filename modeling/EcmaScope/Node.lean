import EcmaScope.Json

/-!
# Marks and leaves of the syntax tree

Every node of a program carries a mark: the number that identifies it and the part of the source
text it was read from. This module also holds the nodes that have no nodes of other kinds below
them, and the words that nodes choose from: kinds of declarations and properties, operators.

## Main definitions

* `Loc`, `Mark`: where a node stands and which one it is.
* `Identifier`, `Literal`, `TemplateElement`: the leaves.
* `VariableKind`, `PropertyKind`, `MethodKind`, `UpdateOperator`, `AssignmentOperator`: the words,
  each with its spelling in source code.
* `FunctionForm`, `ClassForm`, `BinaryForm`, `IterationForm`: node types that share one shape.
-/

namespace EcmaScope

/-- A part of the source text, from the position `start` up to the position `stop`. -/
structure Loc where
  start : Nat
  stop : Nat
  deriving DecidableEq, Repr, Inhabited

/-- The number of a node within its program, and its place. -/
structure Mark where
  id : Nat
  loc : Loc
  deriving DecidableEq, Repr, Inhabited

/-- An identifier. -/
structure Identifier where
  mark : Mark
  name : String
  deriving DecidableEq, Repr, Inhabited

/-- The two parts of a regular expression literal. -/
structure Regex where
  pattern : String
  flags : String
  deriving DecidableEq, Repr, Inhabited

/-- A literal with its value, its source text and, for the two kinds that JSON has no value for, its
parts or digits. -/
structure Literal where
  mark : Mark
  value : Json
  raw : Option String
  regex : Option Regex
  bigint : Option String
  deriving Repr, Inhabited

/-- A piece of text in a template, as written and with its escapes resolved. -/
structure TemplateElement where
  mark : Mark
  raw : String
  cooked : Option String
  tail : Bool
  deriving DecidableEq, Repr, Inhabited

/-- How a declaration introduces its variables. -/
inductive VariableKind where
  | var
  | letKind
  | constKind
  deriving DecidableEq, Repr, Inhabited

/-- How a property of an object gets its value. -/
inductive PropertyKind where
  | plain
  | getter
  | setter
  deriving DecidableEq, Repr, Inhabited

/-- What a method of a class is for. -/
inductive MethodKind where
  | constructor
  | method
  | getter
  | setter
  deriving DecidableEq, Repr, Inhabited

/-- An operator that steps a number. -/
inductive UpdateOperator where
  | increment
  | decrement
  deriving DecidableEq, Repr, Inhabited

/-- An assignment operator. -/
inductive AssignmentOperator where
  | assign
  | add
  | sub
  | mul
  | div
  | rem
  | exp
  | shl
  | shr
  | ushr
  | bitOr
  | bitXor
  | bitAnd
  | or
  | and
  | nullish
  deriving DecidableEq, Repr, Inhabited

/-- How a function is written. -/
inductive FunctionForm where
  | declaration
  | expression
  | arrow
  deriving DecidableEq, Repr, Inhabited

/-- How a class is written. -/
inductive ClassForm where
  | declaration
  | expression
  deriving DecidableEq, Repr, Inhabited

/-- Whether a binary operator always evaluates both of its operands. -/
inductive BinaryForm where
  | binary
  | logical
  deriving DecidableEq, Repr, Inhabited

/-- What a loop over a value steps through: its keys or its items. -/
inductive IterationForm where
  | forIn
  | forOf
  deriving DecidableEq, Repr, Inhabited

/-! ## Spellings -/

/-- Every kind of declaration with its keyword. -/
def VariableKind.spellings : List (String × VariableKind) :=
  [("var", .var), ("let", .letKind), ("const", .constKind)]

/-- The keyword of a kind of declaration. -/
def VariableKind.spelling : VariableKind → String
  | .var => "var"
  | .letKind => "let"
  | .constKind => "const"

/-- The declared variables live in the enclosing block. -/
def VariableKind.isLexical : VariableKind → Bool
  | .var => false
  | .letKind | .constKind => true

/-- Every kind of property with its word. -/
def PropertyKind.spellings : List (String × PropertyKind) :=
  [("init", .plain), ("get", .getter), ("set", .setter)]

/-- The word of a kind of property. -/
def PropertyKind.spelling : PropertyKind → String
  | .plain => "init"
  | .getter => "get"
  | .setter => "set"

/-- Every kind of method with its word. -/
def MethodKind.spellings : List (String × MethodKind) :=
  [("constructor", .constructor), ("method", .method), ("get", .getter), ("set", .setter)]

/-- The word of a kind of method. -/
def MethodKind.spelling : MethodKind → String
  | .constructor => "constructor"
  | .method => "method"
  | .getter => "get"
  | .setter => "set"

/-- Every stepping operator with its sign. -/
def UpdateOperator.spellings : List (String × UpdateOperator) :=
  [("++", .increment), ("--", .decrement)]

/-- The sign of a stepping operator. -/
def UpdateOperator.spelling : UpdateOperator → String
  | .increment => "++"
  | .decrement => "--"

/-- Every assignment operator with its sign. -/
def AssignmentOperator.spellings : List (String × AssignmentOperator) :=
  [("=", .assign), ("+=", .add), ("-=", .sub), ("*=", .mul), ("/=", .div), ("%=", .rem),
    ("**=", .exp), ("<<=", .shl), (">>=", .shr), (">>>=", .ushr), ("|=", .bitOr), ("^=", .bitXor),
    ("&=", .bitAnd), ("||=", .or), ("&&=", .and), ("??=", .nullish)]

/-- The sign of an assignment operator. -/
def AssignmentOperator.spelling : AssignmentOperator → String
  | .assign => "="
  | .add => "+="
  | .sub => "-="
  | .mul => "*="
  | .div => "/="
  | .rem => "%="
  | .exp => "**="
  | .shl => "<<="
  | .shr => ">>="
  | .ushr => ">>>="
  | .bitOr => "|="
  | .bitXor => "^="
  | .bitAnd => "&="
  | .or => "||="
  | .and => "&&="
  | .nullish => "??="

/-- The type of a function node. -/
def FunctionForm.typeName : FunctionForm → String
  | .declaration => "FunctionDeclaration"
  | .expression => "FunctionExpression"
  | .arrow => "ArrowFunctionExpression"

/-- The type of a class node. -/
def ClassForm.typeName : ClassForm → String
  | .declaration => "ClassDeclaration"
  | .expression => "ClassExpression"

/-- The type of a node with two operands. -/
def BinaryForm.typeName : BinaryForm → String
  | .binary => "BinaryExpression"
  | .logical => "LogicalExpression"

/-- The type of a loop over a value. -/
def IterationForm.typeName : IterationForm → String
  | .forIn => "ForInStatement"
  | .forOf => "ForOfStatement"

end EcmaScope
