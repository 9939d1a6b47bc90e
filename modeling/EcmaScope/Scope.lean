import EcmaScope.Variable
import EcmaScope.Reference
import Std.Data.TreeMap
import Std.Data.TreeSet

/-!
# Scopes

A scope is a stretch of the program in which names are bound. Scopes are nested; a name that a scope
does not bind is looked up in the scopes around it.

## Main definitions

* `ScopeKind`: what opens a scope.
* `Bindings`: the variables of a scope, in order and by name.
* `ImplicitGlobals`: the variables that assignments without declaration make.
* `Scope`: a scope with its variables and references.
-/

namespace EcmaScope

/-- What opens a scope. -/
inductive ScopeKind where
  | global
  | module
  | function
  /-- The name of a function expression. -/
  | functionName
  | block
  | switchStatement
  | catchClause
  | withStatement
  | classBody
  /-- A loop whose head declares variables. -/
  | loop
  /-- The value to loop over, where the variables of the head are not initialized. -/
  | tdz
  deriving DecidableEq, Repr, Inhabited

namespace ScopeKind

/-- The name of a kind of scope. -/
def label : ScopeKind → String
  | .global => "global"
  | .module => "module"
  | .function => "function"
  | .functionName => "function-expression-name"
  | .block => "block"
  | .switchStatement => "switch"
  | .catchClause => "catch"
  | .withStatement => "with"
  | .classBody => "class"
  | .loop => "for"
  | .tdz => "TDZ"

/-- Scopes of this kind bind what is declared by `var` inside. -/
def isVariableScope : ScopeKind → Bool
  | .global | .module | .function => true
  | _ => false

/-- Names in scopes of this kind may get other meanings while the program runs. -/
def isDynamic : ScopeKind → Bool
  | .global | .withStatement => true
  | _ => false

end ScopeKind

/-- Variables in the order in which they were made, and by name. -/
structure Bindings where
  names : Std.TreeMap String Nat := {}
  vars : Array Nat := #[]

namespace Bindings

/-- The variable of a name. -/
def find? (b : Bindings) (name : String) : Option Nat :=
  b.names[name]?

/-- Adds a variable under a name. -/
def add (b : Bindings) (name : String) (v : Nat) : Bindings :=
  ⟨b.names.insert name v, b.vars.push v⟩

end Bindings

/-- The variables that assignments make where nothing declares the name, and the references that
were left over. -/
structure ImplicitGlobals where
  bindings : Bindings := {}
  left : Array Nat := #[]

/-- A scope. -/
structure Scope where
  kind : ScopeKind
  /-- The node that opens the scope. -/
  block : Anchor
  isStrict : Bool
  /-- The scopes around this one, from the inside out. -/
  enclosing : List Nat
  /-- The scope that binds what is declared by `var` inside. -/
  variableScope : Nat
  children : Array Nat := #[]
  bindings : Bindings := {}
  /-- The references in this scope and not in a scope inside it. -/
  references : Array Nat := #[]
  /-- The references that this scope does not resolve, with those that inner scopes pass on. -/
  through : Array Nat := #[]
  /-- The names whose meaning cannot be relied on. -/
  taints : Std.TreeSet String := {}
  thisFound : Bool := false
  /-- Code in this scope calls `eval`. -/
  directEval : Bool := false
  /-- Names may get other meanings while the program runs. -/
  dynamic : Bool
  implicit : Option ImplicitGlobals
  /-- The references to be resolved when the scope is closed; none once it is. -/
  pending : Option (Array Nat) := some #[]

namespace Scope

/-- The scope around this one. -/
def upper? (s : Scope) : Option Nat :=
  s.enclosing.head?

/-- The variable of a name. -/
def find? (s : Scope) (name : String) : Option Nat :=
  s.bindings.find? name

/-- All names keep their meanings while the program runs. -/
def isStatic (s : Scope) : Bool :=
  !s.dynamic

/-- The scope has been closed. -/
def isClosed (s : Scope) : Bool :=
  s.pending.isNone

/-- The scope holds nothing but the name of a function expression. -/
def isFunctionName (s : Scope) : Bool :=
  s.kind = .functionName

/-- Something may depend on the value of `this`; only a function can be known not to. -/
def needsThis (s : Scope) : Bool :=
  if s.kind ≠ .function ∨ s.dynamic then true else s.thisFound

end Scope

end EcmaScope
