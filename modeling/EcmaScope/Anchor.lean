import EcmaScope.Tree.Marks

/-!
# Anchors

Scopes, definitions and writes point back at nodes of the program. An anchor is such a pointer:
which construct the node is, and its mark.

## Main definitions

* `AnchorKind`, `Anchor`: the constructs that are pointed at, and the pointers.
* `Anchor.typeName`, `Anchor.function?`, `Anchor.isArrow`: what can be told of the node.
-/

namespace EcmaScope

/-- The construct that an anchor points at. -/
inductive AnchorKind where
  | program
  | function (form : FunctionForm)
  | classNode (form : ClassForm)
  | block
  | switchStatement
  | catchClause
  | withStatement
  | forStatement
  | iteration (form : IterationForm)
  /-- An expression of the given type, pointed at as a value. -/
  | expression (type : String)
  | declaration
  | declarator
  | assignment
  | importDeclaration
  /-- An import specifier of the given type. -/
  | importSpecifier (type : String)
  deriving DecidableEq, Repr, Inhabited

/-- A pointer to a node. -/
structure Anchor where
  kind : AnchorKind
  mark : Mark
  deriving DecidableEq, Repr, Inhabited

/-- The type of the nodes of a construct. -/
def AnchorKind.typeName : AnchorKind → String
  | .program => "Program"
  | .function form => form.typeName
  | .classNode form => form.typeName
  | .block => "BlockStatement"
  | .switchStatement => "SwitchStatement"
  | .catchClause => "CatchClause"
  | .withStatement => "WithStatement"
  | .forStatement => "ForStatement"
  | .iteration form => form.typeName
  | .expression type => type
  | .declaration => "VariableDeclaration"
  | .declarator => "VariableDeclarator"
  | .assignment => "AssignmentExpression"
  | .importDeclaration => "ImportDeclaration"
  | .importSpecifier type => type

namespace Anchor

/-- The number of the node. -/
def id (a : Anchor) : Nat :=
  a.mark.id

/-- The place of the node. -/
def loc (a : Anchor) : Loc :=
  a.mark.loc

/-- The type of the node. -/
def typeName (a : Anchor) : String :=
  a.kind.typeName

/-- The form of the function that the anchor points at as a function. -/
def function? (a : Anchor) : Option FunctionForm :=
  match a.kind with
  | .function form => some form
  | _ => none

/-- The anchor points at an arrow function as a function. -/
def isArrow (a : Anchor) : Bool :=
  a.kind = .function .arrow

end Anchor

/-- The anchor of an expression as a value. -/
def Expr.anchor (e : Expr) : Anchor :=
  ⟨.expression (Expr.typeName e), Expr.mark e⟩

/-- The anchor of an import specifier. -/
def ImportSpecifier.anchor (s : Tree .importSpecifier) : Anchor :=
  ⟨.importSpecifier (ImportSpecifier.typeName s), ImportSpecifier.mark s⟩

end EcmaScope
