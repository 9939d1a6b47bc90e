import EcmaScope.Scope

/-!
# Analyses

An analysis is what is known of the names of a program: tables of scopes, variables and references,
in the order in which they were made, and for every node the scopes that it opens and the
variables that it declares.

## Main definitions

* `Analysis`: the tables.
* `Analysis.scopesOf`, `Analysis.scopeOf?`, `Analysis.scopeAround?`: from nodes to scopes.
* `Analysis.declaredBy`: from nodes to variables.
* `Analysis.lookup?`: from names to variables.
-/

namespace EcmaScope

/-- What is known of the names of a program. -/
structure Analysis where
  scopes : Array Scope := #[]
  vars : Array Variable := #[]
  references : Array Reference := #[]
  /-- The scopes that a node opens, outermost first. -/
  owned : Std.TreeMap Nat (Array Nat) := {}
  /-- The variables that a node declares or that are declared in it. -/
  declared : Std.TreeMap Nat (Array Nat) := {}

namespace Analysis

/-- The scopes that a node opens, outermost first. -/
def scopesOf (a : Analysis) (node : Nat) : List Nat :=
  (a.owned.getD node #[]).toList

/-- The scope stands for its node: it does not merely hold a function's name or names that are not
initialized. -/
def isMain (a : Analysis) (s : Nat) : Bool :=
  a.scopes[s]?.any fun scope => !scope.isFunctionName && scope.kind ≠ .tdz

/-- The scope of a node: its only one, or else the outermost or innermost of those that stand for
it. -/
def scopeOf? (a : Analysis) (node : Nat) (inner : Bool) : Option Nat :=
  match a.scopesOf node with
  | [s] => some s
  | scopes => (if inner then scopes.reverse else scopes).find? a.isMain

/-- The scope of the node around the scopes of a node. -/
def scopeAround? (a : Analysis) (node : Nat) (inner : Bool) : Option Nat := do
  let first ← (a.scopesOf node).head?
  let scope ← a.scopes[first]?
  let around ← scope.upper?
  let outer ← a.scopes[around]?
  a.scopeOf? outer.block.id inner

/-- The variables that a node declares or that are declared in it. -/
def declaredBy (a : Analysis) (node : Nat) : List Nat :=
  (a.declared.getD node #[]).toList

/-- The reference that an identifier is in a scope. -/
def referenceAt? (a : Analysis) (s : Nat) (identifier : Nat) : Option Nat := do
  let scope ← a.scopes[s]?
  scope.references.find? fun r => a.references[r]?.any (·.identifier.mark.id = identifier)

/-- The variable that a scope binds under a name. -/
def variableIn? (a : Analysis) (name : String) (s : Nat) : Option Nat := do
  let scope ← a.scopes[s]?
  scope.find? name

/-- The variable of a name in the nearest scope that binds it, from a scope outwards. -/
def lookup? (a : Analysis) (s : Nat) (name : String) : Option Nat := do
  let scope ← a.scopes[s]?
  (s :: scope.enclosing).findSome? (a.variableIn? name)

/-- The name is bound by the scope, or is not resolved within it. -/
def isNameUsed (a : Analysis) (s : Nat) (name : String) : Bool :=
  a.scopes[s]?.any fun scope =>
    (scope.find? name).isSome ||
      scope.through.any fun r => a.references[r]?.any (·.name = name)

/-- Something may depend on the object `arguments` of a scope; only a function can be known not
to. -/
def needsArguments (a : Analysis) (s : Nat) : Bool :=
  match a.scopes[s]? with
  | none => true
  | some scope =>
    if scope.kind ≠ .function then true
    else if scope.block.isArrow then false
    else if scope.dynamic then true
    else
      match (scope.find? "arguments").bind (a.vars[·]?) with
      | some v => v.tainted || !v.references.isEmpty
      | none => true

/-- Something may depend on the value of `this` in a scope. -/
def needsThis (a : Analysis) (s : Nat) : Bool :=
  match a.scopes[s]? with
  | none => true
  | some scope => scope.needsThis

/-- The reference means a variable, whatever happens while the program runs. -/
def isCertain (a : Analysis) (r : Nat) : Bool :=
  a.references[r]?.any fun reference =>
    !reference.tainted &&
      ((do
        let v ← a.vars[← reference.resolved]?
        a.scopes[v.scope]?) : Option Scope).any (·.isStatic)

end Analysis

end EcmaScope
