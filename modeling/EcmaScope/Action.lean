import EcmaScope.Scope
import EcmaScope.Options
import EcmaScope.Pattern
import EcmaScope.Directive

/-!
# The actions of a program on its scopes

What a program means for scopes is a list of actions: scopes are opened and closed, names are
declared and referred to, in the order in which the constructs of the program are met. This is not
always the order of the source text. The parts of a pattern that are evaluated come after the
declarations of its targets, and the value of an assignment comes after its targets.

A declaration may go on after code that is inside it, as in `var a = f(), b`. So what is declared
goes to a declaration site that is chosen once, when the declaration begins.

The actions do not say how names are resolved; see `EcmaScope.Builder`.

## Main definitions

* `Action`: a step of the construction of scopes.
* `Place`: what the items of a list are walked as.
* `Tree.actions`: the actions of a part of the program.
* `Program.actions`: the actions of a program.
-/

namespace EcmaScope

/-- Which scope receives declarations. -/
inductive Reach where
  /-- The innermost open scope. -/
  | innermost
  /-- The scope that binds what is declared by `var` in the innermost open scope. -/
  | variableScope
  deriving DecidableEq, Repr

/-- A step of the construction of scopes. -/
inductive Action where
  /-- Opens a scope for a node; `strict` says that its code is strict whatever the code around it
  is. -/
  | openScope (kind : ScopeKind) (block : Anchor) (strict : Bool)
  /-- Closes the innermost open scopes as long as they belong to the node. -/
  | closeScopes (node : Nat)
  /-- Begins a declaration. -/
  | beginSite (reach : Reach)
  /-- Ends the declaration that was begun last. -/
  | endSite
  /-- Declares a name at the declaration site. -/
  | declare (definition : Definition)
  /-- Refers to a name in the innermost open scope; `creator` makes the name a global variable if
  nothing declares it and the code is not strict. -/
  | refer (identifier : Identifier) (use : Use) (creator : Option Anchor)
  /-- Relies on a scope being open. -/
  | needScope
  /-- Uses `this`. -/
  | useThis
  /-- Calls `eval`. -/
  | callEval
  /-- Meets an import that is not allowed. -/
  | refuseImport (loc : Loc)
  deriving DecidableEq, Repr

namespace Action

/-- Declares names in the innermost open scope. -/
def declareHere (definitions : List Definition) : List Action :=
  [.beginSite .innermost] ++ definitions.map .declare ++ [.endSite]

/-- Writes the defaults around a target into it. -/
def writeDefaults (t : Target) (isInit : Bool) (creator : Option Anchor) : List Action :=
  t.defaults.map fun d =>
    .refer t.identifier (.write (Expr.anchor d.right) (!d.isFor t) isInit) creator

/-- Declares the targets of a pattern that is a parameter or the like, and writes their defaults. -/
def bindTargets (kind : Target → DefinitionKind) (node : Anchor) (p : Pat) : List Action :=
  (Pat.targets p).flatMap fun t =>
    .declare ⟨kind t, t.identifier, node⟩ :: writeDefaults t true none

/-- Writes `value` into the targets of a pattern that is assigned to by `creator`. -/
def assignTargets (creator value : Anchor) (isPartial : Target → Bool) (p : Pat) : List Action :=
  .needScope :: (Pat.targets p).flatMap fun t =>
    writeDefaults t false (some creator) ++
      [.refer t.identifier (.write value (isPartial t) false) (some creator)]

/-- Declares the targets of a declarator and writes its initial value into them; names that are only
reserved get no defaults. -/
def bindDeclarator (kind : DefinitionKind) (reserved : Bool) :
    Tree .declarator → List Action
  | .declarator m target init =>
    (Pat.targets target).flatMap fun t =>
      .declare ⟨kind, t.identifier, ⟨.declarator, m⟩⟩ ::
        ((if reserved then [] else writeDefaults t true none) ++
          match init with
          | .present value =>
            [.refer t.identifier (.write (Expr.anchor value) (!t.isWhole) true) none]
          | .absent => [])

/-- Writes the items of the value that is looped over into the targets of the first declarator. -/
def bindItems (value : Anchor) : Tree (.list .declarator) → List Action
  | .cons (.declarator _ target _) _ =>
    (Pat.targets target).map fun t => .refer t.identifier (.write value true true) none
  | .nil => []

/-- Declares the targets of the first declarator in the innermost open scope. -/
def bindFirst (kind : DefinitionKind) (reserved : Bool) :
    Tree (.list .declarator) → List Action
  | .cons first _ => [.beginSite .innermost] ++ bindDeclarator kind reserved first ++ [.endSite]
  | .nil => []

end Action

/-- What a part of the program is walked as. -/
inductive Place where
  /-- Code; `method` says that it is the value of a method. -/
  | code (method : Bool)
  /-- The parameters of a function, from the position `index` on. -/
  | parameters (owner : Anchor) (index : Nat)
  /-- The declarators of a declaration, from the position `index` on. -/
  | declarators (declaration : Anchor) (kind : VariableKind) (index : Nat)
  /-- The declarators in the head of a loop, of which only the target of the first one counts. -/
  | head
  deriving DecidableEq, Repr

namespace Place

/-- The code is the value of a method. -/
def isMethod : Place → Bool
  | .code method => method
  | _ => false

/-- The place of the items of a list. -/
def item : Place → Place
  | .code method => .code method
  | .head => .head
  | _ => .code false

/-- The place of the rest of a list. -/
def next : Place → Place
  | .parameters owner index => .parameters owner (index + 1)
  | .declarators declaration kind index => .declarators declaration kind (index + 1)
  | place => place

/-- What is declared in front of an item of a list. -/
def declarations {c : Category} (place : Place) (t : Tree c) : List Action :=
  match place, c, t with
  | .parameters owner index, .pattern, p =>
    Action.bindTargets (fun t => .parameter index t.isRest) owner p
  | .declarators declaration kind index, .declarator, d =>
    Action.bindDeclarator (.declared declaration index kind) false d
  | _, _, _ => []

end Place

namespace Tree

open EcmaScope.Action

/-- A callee by which `eval` is called directly. -/
def isEval (callee : Expr) : Bool :=
  match Expr.identifier? callee with
  | some i => i.name = "eval"
  | none => false

/-- The definitions of an import declaration. -/
def importDefinitions (declaration : Anchor) (specifiers : Tree (.list .importSpecifier)) :
    List Definition :=
  specifiers.toList.map fun s =>
    ⟨.importBinding declaration, ImportSpecifier.binding s, ImportSpecifier.anchor s⟩

/-- What the name of a function does before the scope of the function is opened. -/
def functionName (form : FunctionForm) (block : Anchor) (name : Option Identifier) : List Action :=
  match form, name with
  | .declaration, some i => declareHere [⟨.functionName, i, block⟩]
  | .expression, some i =>
    .openScope .functionName block false :: declareHere [⟨.functionName, i, block⟩]
  | _, _ => []

/-- The name of a class, declared in the innermost open scope. -/
def className (block : Anchor) (name : Option Identifier) : List Action :=
  match name with
  | some i => declareHere [⟨.className, i, block⟩]
  | none => []

/-- The actions of a part of the program. -/
def actions {c : Category} (o : Options) : Place → Tree c → List Action
  -- lists and optional parts
  | _, .nil => []
  | place, .cons head tail =>
    match place with
    | .head => head.actions o place.item
    | _ => place.declarations head ++ head.actions o place.item ++ tail.actions o place.next
  | _, .absent => []
  | place, .present part => part.actions o place
  -- programs
  | _, .program m body =>
    let block : Anchor := ⟨.program, m⟩
    let isModule := o.isEs6 && o.isModule
    let strict := hasUseStrict o.directive body.toList || (!isModule && o.impliesStrict)
    [.openScope .global block (!o.nodejsScope && strict)] ++
    (if o.nodejsScope then [.openScope .function block strict] else []) ++
    (if isModule then [.openScope .module block true] else []) ++
    body.actions o (.code false) ++ [.closeScopes m.id]
  -- statements
  | place, .blockStatement b => b.actions o place
  | place, .classDeclaration declared => declared.actions o place
  | place, .doWhileStatement _ body test => body.actions o place ++ test.actions o place
  | place, .exportDefaultDeclaration _ d => d.actions o place
  | place, .exportNamedDeclaration _ d specifiers source =>
    match source, d with
    | some _, _ => []
    | none, .present declared => declared.actions o place
    | none, .absent => specifiers.actions o place
  | place, .expressionStatement _ e _ => e.actions o place
  | place, .iterationStatement form m left right body _ =>
    let block : Anchor := ⟨.iteration form, m⟩
    let value := Expr.anchor right
    match left with
    | .targetDeclaration (.declaration dm kind declarators) =>
      let declaration : Anchor := ⟨.declaration, dm⟩
      if kind.isLexical && o.isEs6 then
        [.openScope .tdz value false] ++
        bindFirst (.tdz declaration 0 kind) true declarators ++
        right.actions o place ++
        [.closeScopes value.id, .openScope .loop block false] ++
        bindFirst (.declared declaration 0 kind) false declarators ++
        declarators.actions o .head ++
        bindItems value declarators ++
        body.actions o place ++
        [.closeScopes m.id]
      else
        [.beginSite (if kind.isLexical then .innermost else .variableScope)] ++
        declarators.actions o (.declarators declaration kind 0) ++
        [.endSite] ++
        bindItems value declarators ++
        right.actions o place ++
        body.actions o place
    | .targetPattern (.memberPattern a) =>
      a.actions o place ++ right.actions o place ++ body.actions o place
    | .targetPattern p =>
      assignTargets block value (fun _ => true) p ++
      p.actions o place ++ right.actions o place ++ body.actions o place
  | place, .forStatement m init test update body =>
    let block : Anchor := ⟨.forStatement, m⟩
    (match init with
      | .present (.initDeclaration (.declaration _ kind _)) =>
        if kind.isLexical && o.isEs6 then [.openScope .loop block false] else []
      | _ => []) ++
    init.actions o place ++ test.actions o place ++ update.actions o place ++
    body.actions o place ++ [.closeScopes m.id]
  | place, .functionDeclaration declared => declared.actions o place
  | place, .ifStatement _ test consequent alternate =>
    test.actions o place ++ consequent.actions o place ++ alternate.actions o place
  | _, .importDeclaration m specifiers _ =>
    if o.isEs6 && o.isModule then
      declareHere (importDefinitions ⟨.importDeclaration, m⟩ specifiers)
    else [.refuseImport m.loc]
  | place, .labeledStatement _ _ body => body.actions o place
  | place, .returnStatement _ argument => argument.actions o place
  | place, .switchStatement m discriminant cases =>
    discriminant.actions o place ++
    (if o.isEs6 then [.openScope .switchStatement ⟨.switchStatement, m⟩ false] else []) ++
    cases.actions o place ++ [.closeScopes m.id]
  | place, .throwStatement _ argument => argument.actions o place
  | place, .tryStatement _ b handler finalizer =>
    b.actions o place ++ handler.actions o place ++ finalizer.actions o place
  | place, .variableDeclaration d => d.actions o place
  | place, .whileStatement _ test body => test.actions o place ++ body.actions o place
  | place, .withStatement m object body =>
    object.actions o place ++
    [.openScope .withStatement ⟨.withStatement, m⟩ false] ++
    body.actions o place ++ [.closeScopes m.id]
  -- parts of statements
  | place, .block m body =>
    (if o.isEs6 then [.openScope .block ⟨.block, m⟩ false] else []) ++
    body.actions o place ++ [.closeScopes m.id]
  | _, .declaration m kind declarators =>
    [.beginSite (if kind.isLexical then .innermost else .variableScope)] ++
    declarators.actions o (.declarators ⟨.declaration, m⟩ kind 0) ++ [.endSite]
  | place, .declarator _ target init =>
    match place with
    | .head => target.actions o (.code false)
    | _ => target.actions o place ++ init.actions o place
  | place, .switchCase _ test consequent => test.actions o place ++ consequent.actions o place
  | place, .catchClause m param body =>
    let block : Anchor := ⟨.catchClause, m⟩
    [.openScope .catchClause block false] ++
    (match param with
      | .present p =>
        [.beginSite .innermost] ++ bindTargets (fun _ => .catchClause) block p ++ [.endSite]
      | .absent => []) ++
    param.actions o place ++ body.actions o place ++ [.closeScopes m.id]
  | place, .initDeclaration d => d.actions o place
  | place, .initExpression e => e.actions o place
  | place, .exportSpecifier _ binding _ => binding.actions o place
  | place, .defaultFunction declared => declared.actions o place
  | place, .defaultClass declared => declared.actions o place
  | place, .defaultExpression e => e.actions o place
  -- functions and classes
  | place, .function form m name params body _ _ _ =>
    let block : Anchor := ⟨.function form, m⟩
    functionName form block name ++
    [.openScope .function block
      (form = .arrow || place.isMethod || FunctionBody.hasUseStrict o.directive body),
      .beginSite .innermost] ++
    params.actions o (.parameters block 0) ++ [.endSite] ++
    body.actions o (.code false) ++ [.closeScopes m.id]
  | place, .blockBody (.block _ body) => body.actions o place
  | place, .expressionBody e => e.actions o place
  | place, .classNode form m name superclass body =>
    let block : Anchor := ⟨.classNode form, m⟩
    (if form = .declaration then className block name else []) ++
    superclass.actions o place ++
    (if o.isEs6 then .openScope .classBody block true :: className block name else []) ++
    body.actions o place ++ [.closeScopes m.id]
  | place, .classBody _ members => members.actions o place
  | place, .method _ key value _ computed _ =>
    (if computed then key.actions o place else []) ++ value.actions o (.code true)
  -- expressions
  | place, .arrayExpression _ elements => elements.actions o place
  | place, .arrowFunction fn => fn.actions o place
  | place, .assignmentExpression m operator left right =>
    (match left with
      | .memberPattern a => a.actions o place
      | left =>
        if operator = .assign then
          assignTargets ⟨.assignment, m⟩ (Expr.anchor right) (fun t => !t.isWhole) left ++
          left.actions o place
        else
          match Pat.identifier? left with
          | some i => [.refer i (.update (some (Expr.anchor right))) none]
          | none => []) ++
    right.actions o place
  | place, .awaitExpression _ argument => argument.actions o place
  | place, .binaryExpression _ _ _ left right => left.actions o place ++ right.actions o place
  | place, .callExpression _ callee arguments isOptional =>
    (if !o.ignoreEval && !isOptional && isEval callee then [.callEval] else []) ++
    callee.actions o place ++ arguments.actions o place
  | place, .chainExpression _ e => e.actions o place
  | place, .classExpression value => value.actions o place
  | place, .conditionalExpression _ test consequent alternate =>
    test.actions o place ++ consequent.actions o place ++ alternate.actions o place
  | place, .functionExpression fn => fn.actions o place
  | _, .identifier i => [.refer i .read none]
  | place, .importExpression _ source => source.actions o place
  | place, .memberExpression a => a.actions o place
  | place, .newExpression _ callee arguments _ =>
    callee.actions o place ++ arguments.actions o place
  | place, .objectExpression _ members => members.actions o place
  | place, .sequenceExpression _ expressions => expressions.actions o place
  | place, .spreadExpression s => s.actions o place
  | place, .taggedTemplate _ tag quasi => tag.actions o place ++ quasi.actions o place
  | place, .templateExpression t => t.actions o place
  | _, .thisExpression _ => [.useThis]
  | place, .unaryExpression _ _ _ argument => argument.actions o place
  | place, .updateExpression _ _ _ argument =>
    match Expr.identifier? argument with
    | some i => [.refer i (.update none) none]
    | none => argument.actions o place
  | place, .yieldExpression _ argument _ => argument.actions o place
  -- parts of expressions
  | place, .access _ object prop computed _ =>
    object.actions o place ++ (if computed then prop.actions o place else [])
  | place, .spread _ argument => argument.actions o place
  | place, .template _ _ expressions => expressions.actions o place
  | place, .property _ key value _ isMethod _ computed =>
    (if computed then key.actions o place else []) ++
    value.actions o (if isMethod then .code true else place)
  | place, .spreadMember s => s.actions o place
  -- patterns, of which only the evaluated parts act
  | place, .arrayPattern _ elements => elements.actions o place
  | place, .assignmentPattern _ left right => left.actions o place ++ right.actions o place
  | place, .memberPattern (.access _ object prop computed _) =>
    (if computed then prop.actions o place else []) ++ object.actions o place
  | place, .objectPattern _ members => members.actions o place
  | place, .restPattern r => r.actions o place
  | place, .rest _ argument => argument.actions o place
  | place, .patternProperty _ key value computed _ =>
    (if computed then key.actions o place else []) ++ value.actions o place
  | place, .restMember r => r.actions o place
  | _, _ => []

end Tree

/-- The actions of a program. -/
def Program.actions (o : Options) (p : Program) : List Action :=
  Tree.actions o (.code false) p

end EcmaScope
