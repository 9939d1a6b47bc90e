import EcmaScope.Action
import EcmaScope.Analysis

/-!
# Building an analysis

The builder carries out the actions of a program one after the other. It keeps the open scopes on a
stack. A reference waits in the scope in which it was made until that scope is closed; then it is
resolved there or passed on to the scope around it.

How a closed scope treats the references that wait in it depends on what can be known of its names.
In a static scope a name means the scope's variable of that name. Inside a `with`, a name may
mean a property of the object, and so the scope passes everything on, marked as tainted. In a
scope that `eval` may add names to, nothing is resolved, and neither is it in the scopes around it.

## Main definitions

* `Builder`: an analysis under construction.
* `Builder.closeScope`: closes a scope.
* `Builder.step`: carries out an action.
* `Program.analyze`: the analysis of a program.
-/

namespace EcmaScope

/-- Why a program cannot be analyzed. -/
inductive AnalysisError where
  /-- An import declaration outside of a module. -/
  | importOutsideModule (loc : Loc)
  /-- An action that needs an open scope finds none. -/
  | noOpenScope
  /-- A reference is passed to a scope that has been closed. -/
  | scopeClosed (scope : Nat)
  /-- A scope is still open at the end. -/
  | unclosedScope (scope : Nat)
  deriving DecidableEq, Repr

/-- The wording of an error. -/
def AnalysisError.message : AnalysisError → String
  | .importOutsideModule loc =>
    s!"import declaration at {loc.start}..{loc.stop} is only allowed in modules with " ++
      "ecmaVersion >= 6"
  | .noOpenScope => "no scope is open"
  | .scopeClosed scope => s!"scope {scope} is already closed"
  | .unclosedScope scope => s!"scope {scope} was never closed"

/-- An analysis under construction. -/
structure Builder extends Analysis where
  /-- The open scopes, innermost first. -/
  stack : List Nat := []
  /-- The scopes that receive the declarations under way, innermost first. -/
  sites : List Nat := []

namespace Builder

/-- Changes a scope. -/
def modifyScope (b : Builder) (s : Nat) (f : Scope → Scope) : Builder :=
  { b with scopes := b.scopes.modify s f }

/-- The innermost open scope. -/
def current? (b : Builder) : Option Nat :=
  b.stack.head?

/-- The innermost open scope, which must be there. -/
def current (b : Builder) : Except AnalysisError Nat :=
  match b.current? with
  | some s => .ok s
  | none => .error .noOpenScope

/-- The scope that binds what is declared by `var` in a scope. -/
def variableScope (b : Builder) (s : Nat) : Nat :=
  match b.scopes[s]? with
  | some scope => scope.variableScope
  | none => s

/-- The code of a scope is strict. -/
def isStrict (b : Builder) (s : Nat) : Bool :=
  b.scopes[s]?.any (·.isStrict)

/-! ## Declaring names -/

/-- The variable of a name among `bindings`, which is made for the scope `s` if it is not there. -/
def ensure (b : Builder) (bindings : Bindings) (s : Nat) (name : String) :
    Builder × Bindings × Nat :=
  match bindings.find? name with
  | some v => (b, bindings, v)
  | none =>
    let v := b.vars.size
    ({ b with vars := b.vars.push { name := name, scope := s } },
      bindings.add name v, v)

/-- Notes that a node declares a variable. -/
def noteDeclared (b : Builder) (node v : Nat) : Builder :=
  let vs := b.declared.getD node #[]
  if vs.contains v then b else { b with declared := b.declared.insert node (vs.push v) }

/-- Adds a definition to a variable. -/
def define (b : Builder) (v : Nat) (d : Definition) : Builder :=
  let b := b.noteDeclared d.node.id v
  let b := match d.kind.parent? with
    | some parent => b.noteDeclared parent.id v
    | none => b
  { b with
    vars := b.vars.modify v fun x =>
      { x with defs := x.defs.push d, identifiers := x.identifiers.push d.name } }

/-- Adds a definition to the variable of its name in a scope. -/
def declareIn (b : Builder) (s : Nat) (d : Definition) : Builder :=
  match b.scopes[s]? with
  | none => b
  | some scope =>
    let (b, bindings, v) := b.ensure scope.bindings s d.name.name
    (b.modifyScope s fun x => { x with bindings := bindings }).define v d

/-- Adds a definition to the implicit global variable of its name. -/
def declareImplicit (b : Builder) (s : Nat) (d : Definition) : Builder :=
  match b.scopes[s]? with
  | none => b
  | some scope =>
    match scope.implicit with
    | none => b
    | some implicit =>
      let (b, bindings, v) := b.ensure implicit.bindings s d.name.name
      (b.modifyScope s fun x =>
        { x with implicit := some { implicit with bindings := bindings } }).define v d

/-- Gives a function the variable `arguments`, which code may reach by other means than its name. -/
def declareArguments (b : Builder) (s : Nat) : Builder :=
  match b.scopes[s]? with
  | none => b
  | some scope =>
    let (b, bindings, _) := b.ensure scope.bindings s "arguments"
    b.modifyScope s fun x =>
      { x with bindings := bindings, taints := x.taints.insert "arguments" }

/-! ## Opening scopes -/

/-- Opens a scope. -/
def openScope (o : Options) (b : Builder) (kind : ScopeKind) (block : Anchor) (strict : Bool) :
    Except AnalysisError Builder := do
  let s := b.scopes.size
  let variableScope ← if kind.isVariableScope then pure s else b.variableScope <$> b.current
  let scope : Scope :=
    { kind := kind
      block := block
      isStrict := o.hasStrictMode && (b.current?.any b.isStrict || strict)
      enclosing := b.stack
      variableScope := variableScope
      dynamic := kind.isDynamic
      implicit := if kind = .global then some {} else none }
  let b := match b.current? with
    | some upper => b.modifyScope upper fun x => { x with children := x.children.push s }
    | none => b
  let b : Builder :=
    { b with
      scopes := b.scopes.push scope
      owned := b.owned.insert block.id ((b.owned.getD block.id #[]).push s)
      stack := s :: b.stack }
  return if kind = .function && !block.isArrow then b.declareArguments s else b

/-! ## Referring to names -/

/-- Makes a reference in the innermost open scope. -/
def refer (b : Builder) (identifier : Identifier) (use : Use) (creator : Option Anchor) :
    Except AnalysisError Builder := do
  let s ← b.current
  match b.scopes[s]?.bind (·.pending) with
  | none => throw (.scopeClosed s)
  | some pending =>
    let r := b.references.size
    let reference : Reference :=
      { identifier := identifier
        scope := s
        use := use
        implicit := if b.isStrict s then none else creator }
    let b := b.modifyScope s fun x =>
      { x with references := x.references.push r, pending := some (pending.push r) }
    return { b with references := b.references.push reference }

/-- Notes that `this` is used. -/
def useThis (b : Builder) : Except AnalysisError Builder := do
  let s ← b.current
  return b.modifyScope (b.variableScope s) fun x => { x with thisFound := true }

/-- Notes that `eval` is called: the function that calls it and all scopes around are dynamic. -/
def callEval (b : Builder) : Except AnalysisError Builder := do
  let s ← b.current
  let f := b.variableScope s
  let around := b.stack.dropWhile (· ≠ f)
  let b := b.modifyScope f fun x => { x with directEval := true }
  return around.foldl (fun b s => b.modifyScope s fun x => { x with dynamic := true }) b

/-! ## Closing scopes -/

/-- Resolves the reference `r`, which waits in the scope `s`, to the variable `v`. -/
def resolve (b : Builder) (s r v : Nat) (reference : Reference) : Builder :=
  let inFunction := b.variableScope reference.scope = b.variableScope s
  let b := if reference.tainted then
      b.modifyScope s fun x => { x with taints := x.taints.insert reference.name }
    else b
  { b with
    vars := b.vars.modify v fun x =>
      { x with
        references := x.references.push r
        stack := x.stack && inFunction
        tainted := x.tainted || reference.tainted }
    references := b.references.modify r fun x => { x with resolved := some v } }

/-- Lets a reference through a scope without passing it on. -/
def letThrough (b : Builder) (s r : Nat) : Builder :=
  b.modifyScope s fun x => { x with through := x.through.push r }

/-- Passes a reference on to the scope around `s`, if there is one. -/
def passOn (b : Builder) (s r : Nat) : Except AnalysisError Builder :=
  match b.scopes[s]?.bind (·.upper?) with
  | none => .ok (b.letThrough s r)
  | some upper =>
    match b.scopes[upper]?.bind (·.pending) with
    | none => .error (.scopeClosed upper)
    | some pending =>
      let b := b.modifyScope upper fun x => { x with pending := some (pending.push r) }
      .ok (b.letThrough s r)

/-- Resolves a reference in the scope `s`, or passes it on. -/
def settle (b : Builder) (s r : Nat) : Except AnalysisError Builder :=
  match b.references[r]? with
  | none => .ok b
  | some reference =>
    match b.variableIn? reference.name s with
    | some v => .ok (b.resolve s r v reference)
    | none => b.passOn s r

/-- Marks a reference as tainted and passes it on. -/
def taint (b : Builder) (s r : Nat) : Except AnalysisError Builder :=
  { b with references := b.references.modify r fun x => { x with tainted := true } }.passOn s r

/-- Lets a reference through the scope `s` and all scopes around it. -/
def abandon (b : Builder) (chain : List Nat) (r : Nat) : Builder :=
  chain.foldl (fun b s => b.letThrough s r) b

/-- Makes the global variable that a left over reference creates, if nothing declares its name. -/
def createImplicit (b : Builder) (s r : Nat) : Builder :=
  match b.references[r]? with
  | none => b
  | some reference =>
    match reference.implicit with
    | none => b
    | some creator =>
      match b.variableIn? reference.name s with
      | some _ => b
      | none => b.declareImplicit s ⟨.implicitGlobal, reference.identifier, creator⟩

/-- Makes all implicit global variables, from the references left over in the global scope. -/
def createImplicits (b : Builder) (s : Nat) (left : Array Nat) : Builder :=
  (left.toList.foldl (fun b r => b.createImplicit s r) b).modifyScope s fun x =>
    { x with implicit := x.implicit.map fun i => { i with left := left } }

/-- Treats the references `left` that wait in the scope `s` when it is closed. -/
def settleAll (o : Options) (b : Builder) (s : Nat) (scope : Scope) (left : List Nat) :
    Except AnalysisError Builder :=
  if scope.isStatic || o.optimistic then
    left.foldlM (fun b r => b.settle s r) b
  else if scope.kind = .withStatement then
    left.foldlM (fun b r => b.taint s r) b
  else
    .ok (left.foldl (fun b r => b.abandon (s :: scope.enclosing) r) b)

/-- Closes the scope `s`, which is the innermost open one. -/
def closeScope (o : Options) (b : Builder) (s : Nat) : Except AnalysisError Builder :=
  match b.scopes[s]? with
  | none => .error (.scopeClosed s)
  | some scope =>
    match scope.pending with
    | none => .error (.scopeClosed s)
    | some left => do
      let b := b.modifyScope s fun x => { x with pending := none }
      let b ← b.settleAll o s scope left.toList
      let b := if scope.kind = .global then b.createImplicits s left else b
      return { b with stack := b.stack.tail }

/-- The innermost open scopes that belong to a node. -/
def openFor (b : Builder) (node : Nat) : List Nat :=
  b.stack.takeWhile fun s => b.scopes[s]?.any (·.block.id = node)

/-- Closes the innermost open scopes as long as they belong to a node. -/
def closeScopes (o : Options) (b : Builder) (node : Nat) : Except AnalysisError Builder :=
  (b.openFor node).foldlM (closeScope o) b

/-! ## Carrying out actions -/

/-- Carries out an action. -/
def step (o : Options) (b : Builder) : Action → Except AnalysisError Builder
  | .openScope kind block strict => b.openScope o kind block strict
  | .closeScopes node => b.closeScopes o node
  | .beginSite .innermost => do
    let s ← b.current
    return { b with sites := s :: b.sites }
  | .beginSite .variableScope => do
    let s ← b.current
    return { b with sites := b.variableScope s :: b.sites }
  | .endSite => .ok { b with sites := b.sites.tail }
  | .declare definition =>
    match b.sites with
    | s :: _ => .ok (b.declareIn s definition)
    | [] => .error .noOpenScope
  | .refer identifier use creator => b.refer identifier use creator
  | .needScope => do
    let _ ← b.current
    return b
  | .useThis => b.useThis
  | .callEval => b.callEval
  | .refuseImport loc => .error (.importOutsideModule loc)

/-- Carries out actions one after the other. -/
def run (o : Options) (b : Builder) (actions : List Action) : Except AnalysisError Builder :=
  actions.foldlM (step o) b

end Builder

/-- The analysis of a program. -/
def Program.analyze (o : Options) (p : Program) : Except AnalysisError Analysis := do
  let b ← Builder.run o {} (Program.actions o p)
  match b.stack with
  | [] => return b.toAnalysis
  | s :: _ => throw (.unclosedScope s)

end EcmaScope
