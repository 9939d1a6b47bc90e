import EcmaScope.Anchor

/-!
# Definitions and variables

A variable is a name that a scope binds. Every construct that introduces the name adds a
definition to it; the variable `arguments` of a function has none.

Scopes, variables and references are numbered in the order in which they are made, and refer to each
other by number.

## Main definitions

* `DefinitionKind`, `Definition`: how and where a name is introduced.
* `Variable`: a bound name.
-/

namespace EcmaScope

/-- How a name is introduced. -/
inductive DefinitionKind where
  | catchClause
  | className
  | functionName
  /-- By an assignment, without a declaration. -/
  | implicitGlobal
  | importBinding (declaration : Anchor)
  | parameter (index : Nat) (isRest : Bool)
  /-- As a name in the head of a loop that is not initialized while the value to loop over is
  computed. -/
  | tdz (declaration : Anchor) (index : Nat) (kind : VariableKind)
  /-- By the declarator at `index` of a declaration. -/
  | declared (declaration : Anchor) (index : Nat) (kind : VariableKind)
  deriving DecidableEq, Repr, Inhabited

namespace DefinitionKind

/-- The name of a kind of definition. -/
def label : DefinitionKind → String
  | .catchClause => "CatchClause"
  | .className => "ClassName"
  | .functionName => "FunctionName"
  | .implicitGlobal => "ImplicitGlobalVariable"
  | .importBinding _ => "ImportBinding"
  | .parameter .. => "Parameter"
  | .tdz .. => "TDZ"
  | .declared .. => "Variable"

/-- The declaration around the definition. -/
def parent? : DefinitionKind → Option Anchor
  | .importBinding declaration => some declaration
  | .tdz declaration _ _ => some declaration
  | .declared declaration _ _ => some declaration
  | _ => none

/-- The position among the declarators of a declaration or the parameters of a function. -/
def index? : DefinitionKind → Option Nat
  | .parameter index _ => some index
  | .tdz _ index _ => some index
  | .declared _ index _ => some index
  | _ => none

/-- The kind of the declaration around the definition. -/
def variableKind? : DefinitionKind → Option VariableKind
  | .tdz _ _ kind => some kind
  | .declared _ _ kind => some kind
  | _ => none

/-- The definition is a parameter that takes the rest of the arguments. -/
def isRest : DefinitionKind → Bool
  | .parameter _ isRest => isRest
  | _ => false

end DefinitionKind

/-- A place where a name is introduced, and the construct that introduces it. -/
structure Definition where
  kind : DefinitionKind
  name : Identifier
  node : Anchor
  deriving DecidableEq, Repr, Inhabited

/-- A name that a scope binds. -/
structure Variable where
  name : String
  /-- The scope that binds the name. -/
  scope : Nat
  /-- The identifiers that introduce the name. -/
  identifiers : Array Identifier := #[]
  /-- The references that were resolved to the variable. -/
  references : Array Nat := #[]
  defs : Array Definition := #[]
  /-- Some of the references may mean a property of an object instead. -/
  tainted : Bool := false
  /-- All of the references come from the function that the variable belongs to. -/
  stack : Bool := true
  deriving DecidableEq, Repr, Inhabited

end EcmaScope
