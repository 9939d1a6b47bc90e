import EcmaScope.Proofs.Roles

/-!
# What constructs do themselves

The actions of a tree are those that its constructs do themselves, at the places where they stand.
So what is true of the deeds of every single construct is true of a whole walk. This module gives
the deeds of every construct, and shows that a walk does nothing else: every action is the deed of a
piece of the program that is not skipped. A deed is routine unless it opens a scope, assigns to a
target or refuses an import, and each of these tells something about the construct.

## Main definitions

* `Tree.deeds`: what a construct does itself, leaving its parts aside.
* `Action.All`: a property of all actions of a list.
* `Done`: actions are deeds of pieces.
* `Tree.assigned?`: the construct and the pattern that it assigns to.
* `Tree.import?`: where the import stands that a construct is.
* `Tree.Asks`: whether a construct asks for strict mode where it opens a scope.
* `Tree.Deed`: what a construct can do itself.
* `Action.Heeds`: which actions may create global variables, given what is assigned to.

## Main results

* `Tree.done`: the actions of a tree are deeds of its pieces.
* `Tree.all_deeds`: a construct does nothing but what it can do.
* `Program.heeds`: names create global variables where they are assigned to, and nowhere else.
-/

namespace EcmaScope

open EcmaScope.Action

/-- What the loop `block` over a value does itself, with the given head. -/
def Tree.loopDeeds (o : Options) (block value : Anchor) : Tree .forTarget → List Action
  | .targetDeclaration (.declaration m kind declarators) =>
    (if kind.isLexical && o.isEs6 then
      [.openScope .tdz value false] ++ bindFirst (.tdz ⟨.declaration, m⟩ 0 kind) true declarators ++
      [.closeScopes value.id, .openScope .loop block false] ++
      bindFirst (.declared ⟨.declaration, m⟩ 0 kind) false declarators ++ [.closeScopes block.id]
    else
      [.beginSite (if kind.isLexical then .innermost else .variableScope)] ++ [.endSite]) ++
    bindItems value declarators
  | .targetPattern p => assignTargets block value (fun _ => true) p

/-- What a construct does itself at a place. -/
def Tree.deeds {c : Category} (o : Options) (place : Place) : Tree c → List Action
  | .cons head _ => place.declarations head
  | .program m body =>
    let block : Anchor := ⟨.program, m⟩
    let isModule := o.isEs6 && o.isModule
    let strict := hasUseStrict o.directive body.toList || (!isModule && o.impliesStrict)
    [.openScope .global block (!o.nodejsScope && strict)] ++
    (if o.nodejsScope then [.openScope .function block strict] else []) ++
    (if isModule then [.openScope .module block true] else []) ++ [.closeScopes m.id]
  | .iterationStatement form m left right _ _ =>
    left.loopDeeds o ⟨.iteration form, m⟩ (Expr.anchor right)
  | .forStatement m init _ _ _ =>
    (if ForInit.isLexical init && o.isEs6 then [.openScope .loop ⟨.forStatement, m⟩ false]
      else []) ++
    [.closeScopes m.id]
  | .importDeclaration m specifiers _ =>
    if o.isEs6 && o.isModule then
      declareHere (importDefinitions ⟨.importDeclaration, m⟩ specifiers)
    else [.refuseImport m.loc]
  | .switchStatement m _ _ =>
    (if o.isEs6 then [.openScope .switchStatement ⟨.switchStatement, m⟩ false] else []) ++
    [.closeScopes m.id]
  | .withStatement m _ _ =>
    [.openScope .withStatement ⟨.withStatement, m⟩ false] ++ [.closeScopes m.id]
  | .block m _ =>
    (if o.isEs6 then [.openScope .block ⟨.block, m⟩ false] else []) ++ [.closeScopes m.id]
  | .declaration _ kind _ =>
    [.beginSite (if kind.isLexical then .innermost else .variableScope)] ++ [.endSite]
  | .catchClause m param _ =>
    let block : Anchor := ⟨.catchClause, m⟩
    [.openScope .catchClause block false] ++
    (match param with
      | .present p =>
        [.beginSite .innermost] ++ bindTargets (fun _ => .catchClause) block p ++ [.endSite]
      | .absent => []) ++ [.closeScopes m.id]
  | .function form m name _ body _ _ _ =>
    let block : Anchor := ⟨.function form, m⟩
    functionName form block name ++
    [.openScope .function block
      (form = .arrow || place.isMethod || FunctionBody.hasUseStrict o.directive body),
      .beginSite .innermost] ++ [.endSite] ++ [.closeScopes m.id]
  | .classNode form m name _ _ =>
    let block : Anchor := ⟨.classNode form, m⟩
    (if form = .declaration then className block name else []) ++
    (if o.isEs6 then .openScope .classBody block true :: className block name else []) ++
    [.closeScopes m.id]
  | .assignmentExpression m operator left right =>
    if operator = .assign then
      assignTargets ⟨.assignment, m⟩ (Expr.anchor right) (fun t => !t.isWhole) left
    else
      match Pat.identifier? left with
      | some i => [.refer i (.update (some (Expr.anchor right))) none]
      | none => []
  | .callExpression _ callee _ isOptional =>
    if !o.ignoreEval && !isOptional && isEval callee then [.callEval] else []
  | .identifier i => [.refer i .read none]
  | .thisExpression _ => [.useThis]
  | .updateExpression _ _ _ argument =>
    match Expr.identifier? argument with
    | some i => [.refer i (.update none) none]
    | none => []
  | _ => []

/-- The role is one in which everything is looked at. -/
def Role.isWalked : Role → Bool
  | .skipped | .head true => false
  | _ => true

namespace Role

variable {role r : Role}

private theorem isWalked_inner (h : role.isWalked = true) (hr : r.isWalked = true) :
    (role.inner r).isWalked = true := by
  cases role with
  | skipped => cases h
  | _ => exact hr

private theorem isWalked_target (h : role.isWalked = true) (lexical : Bool) (values : Nat) :
    ((role.inner (.head lexical)).inner (.target values)).isWalked = true := by
  cases role with
  | skipped => cases h
  | _ => rfl

private theorem ne_skipped (h : role.isWalked = true) : role ≠ .skipped := by
  rintro rfl
  cases h

private theorem isWalked_ite {p : Prop} [Decidable p] (h : role.isWalked = true) (hp : p) :
    (if p then role else .skipped).isWalked = true := by
  rwa [if_pos hp]

private theorem isWalked_rest (h : role.isWalked = true) : role.rest.isWalked = true := by
  cases role with
  | head lexical => cases lexical <;> first | rfl | cases h
  | _ => exact h

private theorem isWalked_initial (h : role.isWalked = true) : role.initial.isWalked = true := by
  cases role with
  | head lexical => cases lexical <;> first | rfl | cases h
  | skipped => cases h
  | _ => rfl

private theorem isWalked_withDefault (h : role.isWalked = true) :
    role.withDefault.isWalked = true := by
  cases role with
  | target values => rfl
  | _ => exact h

end Role

/-! ## Properties of actions -/

/-- All of the actions have the property `P`. -/
def Action.All (P : Action → Prop) (A : List Action) : Prop :=
  ∀ a ∈ A, P a

namespace Action.All

variable {P Q : Action → Prop} {A B : List Action} {a : Action}

theorem nil : All P [] :=
  List.forall_mem_nil _

theorem single (ha : P a) : All P [a] :=
  List.forall_mem_singleton.mpr ha

theorem cons (ha : P a) (hA : All P A) : All P (a :: A) :=
  List.forall_mem_cons.mpr ⟨ha, hA⟩

theorem append_iff : All P (A ++ B) ↔ All P A ∧ All P B :=
  List.forall_mem_append

theorem append (hA : All P A) (hB : All P B) : All P (A ++ B) :=
  append_iff.mpr ⟨hA, hB⟩

theorem ite {p : Prop} [Decidable p] (hA : p → All P A) (hB : ¬p → All P B) :
    All P (if p then A else B) := by
  split
  · next h => exact hA h
  · next h => exact hB h

theorem flatMap {α : Type} {l : List α} {f : α → List Action} (h : ∀ x ∈ l, All P (f x)) :
    All P (l.flatMap f) := by
  intro a ha
  obtain ⟨x, hx, ha⟩ := List.mem_flatMap.mp ha
  exact h x hx a ha

theorem map {α : Type} {l : List α} {f : α → Action} (h : ∀ x ∈ l, P (f x)) :
    All P (l.map f) :=
  List.forall_mem_map.mpr h

theorem mono (hA : All P A) (h : ∀ a, P a → Q a) : All Q A :=
  fun a ha => h a (hA a ha)

end Action.All

/-! ## Actions and pieces -/

/-- Every action is the deed of one of the pieces, of one that is not skipped. -/
def Done (o : Options) (P : List Piece) (A : List Action) : Prop :=
  All (fun a => ∃ u ∈ P, u.role ≠ .skipped ∧ ∃ place, a ∈ u.tree.deeds o place) A

namespace Done

variable {o : Options} {c : Category} {role : Role} {t : Tree c} {u : Piece} {P Q : List Piece}
  {A B : List Action}

private theorem mono (h : Done o P A) (hPQ : P ⊆ Q) : Done o Q A :=
  All.mono h fun _ ⟨u, hu, hdeed⟩ => ⟨u, hPQ hu, hdeed⟩

private theorem below (h : Done o P A) : Done o (u :: P) A :=
  h.mono (List.subset_cons_self u P)

private theorem left (h : Done o P A) : Done o (P ++ Q) A :=
  h.mono (List.subset_append_left P Q)

private theorem right (h : Done o Q A) : Done o (P ++ Q) A :=
  h.mono (List.subset_append_right P Q)

private theorem both (hA : Done o P A) (hB : Done o P B) : Done o P (A ++ B) :=
  All.append hA hB

private theorem append (hA : Done o P A) (hB : Done o Q B) : Done o (P ++ Q) (A ++ B) :=
  hA.left.both hB.right

private theorem swap (h : Done o P (A ++ B)) : Done o P (B ++ A) :=
  All.append_iff.mpr (All.append_iff.mp h).symm

private theorem ite {p : Prop} [Decidable p] (h : p → Done o P A) :
    Done o P (if p then A else []) :=
  All.ite h fun _ => .nil

/-- Deeds of the first piece. -/
private theorem own (hrole : role.isWalked = true) (place : Place) (h : A ⊆ t.deeds o place) :
    Done o (⟨c, role, t⟩ :: P) A :=
  fun _ ha => ⟨_, List.mem_cons_self, Role.ne_skipped hrole, place, h ha⟩

end Done

namespace Tree

/-- In a list the items are met at the place of the list. -/
private theorem done_cons {o : Options} {c : Category} {role : Role} (hrole : role.isWalked = true)
    (place : Place) {head : Tree c} {tail : Tree (.list c)} {P Q : List Piece} {A B : List Action}
    (hA : Done o P A) (hB : Done o Q B) :
    Done o (⟨_, role, .cons head tail⟩ :: (P ++ Q)) (place.declarations head ++ A ++ B) :=
  .both (.both (.own hrole place (List.Subset.refl _)) hA.left.below) hB.right.below

section

variable {o : Options} {role : Role} (hrole : role.isWalked = true) (place : Place)
include hrole

/-- The deeds of a construct are done by it. -/
private theorem done_deeds {c : Category} (t : Tree c) (P : List Piece) :
    Done o (⟨c, role, t⟩ :: P) (t.deeds o place) :=
  .own hrole place (List.Subset.refl _)

/-- What is done before and after the parts of a construct. -/
private theorem done_around {c : Category} {t : Tree c} {P : List Piece} {A B C : List Action}
    (hB : Done o P B) (hdeeds : t.deeds o place = A ++ C := by rfl) :
    Done o (⟨c, role, t⟩ :: P) (A ++ B ++ C) := by
  have hown := done_deeds (o := o) hrole place t P
  rw [hdeeds] at hown
  obtain ⟨hA, hC⟩ := All.append_iff.mp hown
  exact .both (.both hA hB.below) hC

/-- What is done between the two parts of a construct, and after them. -/
private theorem done_between {c : Category} {t : Tree c} {P Q : List Piece} {A B C D : List Action}
    (hA : Done o P A) (hB : Done o Q B) (hdeeds : t.deeds o place = C ++ D := by rfl) :
    Done o (⟨c, role, t⟩ :: (P ++ Q)) (A ++ C ++ B ++ D) := by
  have hown := done_deeds (o := o) hrole place t (P ++ Q)
  rw [hdeeds] at hown
  obtain ⟨hC, hD⟩ := All.append_iff.mp hown
  exact .both (.both (.both hA.left.below hC) hB.right.below) hD

/-- The actions of a loop over a value whose head declares variables. -/
private theorem done_declaringLoop {form : IterationForm} {m dm : Mark} {kind : VariableKind}
    {declarators : Tree (.list .declarator)} {right : Expr} {body : Stmt} {await : Bool}
    (hhead : Done o (declarators.pieces o (role.inner (.head (kind.isLexical && o.isEs6))))
      (declarators.actions o .head))
    (hall : (kind.isLexical && o.isEs6) = false →
      Done o (declarators.pieces o (role.inner (.head (kind.isLexical && o.isEs6))))
        (declarators.actions o (.declarators ⟨.declaration, dm⟩ kind 0)))
    (hright : Done o (right.pieces o role) (right.actions o place))
    (hbody : Done o (body.pieces o role) (body.actions o place)) :
    Done o ((iterationStatement form m (.targetDeclaration (.declaration dm kind declarators))
        right body await).pieces o role)
      ((iterationStatement form m (.targetDeclaration (.declaration dm kind declarators))
        right body await).actions o place) := by
  have hown := done_deeds (o := o) hrole place (iterationStatement form m
    (.targetDeclaration (.declaration dm kind declarators)) right body await)
    ((targetDeclaration (.declaration dm kind declarators)).pieces o role ++ right.pieces o role ++
      body.pieces o role)
  change Done o _ (_ ++ _) at hown
  obtain ⟨hown, hitems⟩ := All.append_iff.mp hown
  change Done o (_ :: ((_ :: _ :: declarators.pieces o _) ++ _ ++ _)) (if _ then _ else _)
  split at hown
  · next hlexical =>
    rw [if_pos hlexical]
    simp only [All.append_iff] at hown
    obtain ⟨⟨⟨⟨hopen, hreserve⟩, hnext⟩, hbind⟩, hclose⟩ := hown
    exact .both (.both (.both (.both (.both (.both (.both (.both hopen hreserve)
      hright.right.left.below) hnext) hbind) hhead.below.below.left.left.below) hitems)
      hbody.right.below) hclose
  · next hlexical =>
    rw [if_neg hlexical]
    simp only [All.append_iff] at hown
    exact .both (.both (.both (.both (.both hown.1
      (hall (by simpa using hlexical)).below.below.left.left.below) hown.2) hitems)
      hright.right.left.below) hbody.right.below

/-- The actions of a loop over a value whose items are assigned to a pattern. -/
private theorem done_assigningLoop {form : IterationForm} {m : Mark} {p : Pat} {right : Expr}
    {body : Stmt} {await : Bool}
    (hpattern : Done o (p.pieces o (role.inner (.target 1))) (p.actions o place))
    (hright : Done o (right.pieces o role) (right.actions o place))
    (hbody : Done o (body.pieces o role) (body.actions o place)) :
    Done o ((iterationStatement form m (.targetPattern p) right body await).pieces o role)
      ((iterationStatement form m (.targetPattern p) right body await).actions o place) := by
  have hown := done_deeds (o := o) hrole place
    (iterationStatement form m (.targetPattern p) right body await)
    ((targetPattern p).pieces o role ++ right.pieces o role ++ body.pieces o role)
  have hleft (A : List Action) (hA : Done o (p.pieces o (role.inner (.target 1))) A) :
      Done o ((iterationStatement form m (.targetPattern p) right body await).pieces o role)
        (A ++ right.actions o place ++ body.actions o place) :=
    .both (.both hA.below.left.left.below hright.right.left.below) hbody.right.below
  cases p with
  | memberPattern a =>
    cases a
    exact hleft _ hpattern.swap
  | _ =>
    have hall := Done.both hown (hleft _ hpattern)
    rw [← List.append_assoc, ← List.append_assoc] at hall
    exact hall

/-- The actions of an assignment. -/
private theorem done_assignment {m : Mark} {operator : AssignmentOperator} {left : Pat}
    {right : Expr} (hpattern : (role.inner (operator.role left)).isWalked = true →
      Done o (left.pieces o (role.inner (operator.role left))) (left.actions o place))
    (hright : Done o (right.pieces o role) (right.actions o place)) :
    Done o ((assignmentExpression m operator left right).pieces o role)
      ((assignmentExpression m operator left right).actions o place) := by
  have hown := done_deeds (o := o) hrole place (assignmentExpression m operator left right)
    (left.pieces o (role.inner (operator.role left)) ++ right.pieces o role)
  have hwalked (hop : operator = .assign) : (role.inner (operator.role left)).isWalked = true := by
    rw [hop]
    exact Role.isWalked_inner hrole rfl
  cases left with
  | memberPattern a =>
    cases a
    refine .both (hpattern ?_).swap.left.below hright.right.below
    refine Role.isWalked_inner hrole ?_
    unfold AssignmentOperator.role
    split <;> rfl
  | _ =>
    refine .both ?_ hright.right.below
    change Done o _ (if _ then _ else _) at hown
    change Done o _ (if _ then _ else _)
    split at hown
    · next hop =>
      rw [if_pos hop]
      exact .both hown (hpattern (hwalked hop)).left.below
    · next hop =>
      rw [if_neg hop]
      exact hown

/-- The actions of a loop with a counter. -/
private theorem done_forStatement {m : Mark} {init : Tree (.optional .forInit)}
    {test update : Tree (.optional .expression)} {body : Stmt}
    (hinit : Done o (init.pieces o role) (init.actions o place))
    (htest : Done o (test.pieces o role) (test.actions o place))
    (hupdate : Done o (update.pieces o role) (update.actions o place))
    (hbody : Done o (body.pieces o role) (body.actions o place)) :
    Done o ((forStatement m init test update body).pieces o role)
      ((forStatement m init test update body).actions o place) := by
  have hown := done_deeds (o := o) hrole place (forStatement m init test update body)
    (init.pieces o role ++ test.pieces o role ++ update.pieces o role ++ body.pieces o role)
  obtain ⟨hopen, hclose⟩ := All.append_iff.mp hown
  refine .both (.both (.both (.both (.both ?_ hinit.left.left.left.below)
    htest.right.left.left.below) hupdate.right.left.below) hbody.right.below) hclose
  cases init with
  | absent => exact .nil
  | present i =>
    cases i with
    | initDeclaration d =>
      cases d
      exact hopen
    | initExpression e => exact .nil

/-- The actions of a clause that catches a value. -/
private theorem done_catchClause {m : Mark} {param : Tree (.optional .pattern)} {body : Tree .block}
    (hparam : Done o (param.pieces o (role.inner (.target 0))) (param.actions o place))
    (hbody : Done o (body.pieces o role) (body.actions o place)) :
    Done o ((catchClause m param body).pieces o role)
      ((catchClause m param body).actions o place) := by
  have hown := done_deeds (o := o) hrole place (catchClause m param body)
    (param.pieces o (role.inner (.target 0)) ++ body.pieces o role)
  obtain ⟨hopen, hclose⟩ := All.append_iff.mp hown
  exact .both (.both (.both hopen hparam.left.below) hbody.right.below) hclose

/-- The actions of a function. -/
private theorem done_function {form : FunctionForm} {m : Mark} {name : Option Identifier}
    {params : Tree (.list .pattern)} {body : Tree .functionBody} {generator async expression : Bool}
    (hparams : Done o (params.pieces o (role.inner (.target 0)))
      (params.actions o (.parameters ⟨.function form, m⟩ 0)))
    (hbody : Done o (body.pieces o role) (body.actions o (.code false))) :
    Done o ((function form m name params body generator async expression).pieces o role)
      ((function form m name params body generator async expression).actions o place) := by
  have hown := done_deeds (o := o) hrole place
    (function form m name params body generator async expression)
    (params.pieces o (role.inner (.target 0)) ++ body.pieces o role)
  change Done o _ (_ ++ _ ++ _ ++ _) at hown
  simp only [Done, All.append_iff] at hown
  obtain ⟨⟨⟨hname, hopen⟩, hend⟩, hclose⟩ := hown
  exact .both (.both (.both (.both (.both hname hopen) hparams.left.below) hend)
    hbody.right.below) hclose

/-- The actions of a class. -/
private theorem done_class {form : ClassForm} {m : Mark} {name : Option Identifier}
    {superclass : Tree (.optional .expression)} {body : Tree .classBody}
    (hsuper : Done o (superclass.pieces o role) (superclass.actions o place))
    (hbody : Done o (body.pieces o role) (body.actions o place)) :
    Done o ((classNode form m name superclass body).pieces o role)
      ((classNode form m name superclass body).actions o place) := by
  have hown := done_deeds (o := o) hrole place (classNode form m name superclass body)
    (superclass.pieces o role ++ body.pieces o role)
  change Done o _ (_ ++ _ ++ _) at hown
  simp only [Done, All.append_iff] at hown
  obtain ⟨⟨hname, hopen⟩, hclose⟩ := hown
  exact .both (.both (.both (.both hname hsuper.left.below) hopen) hbody.right.below) hclose

/-- The actions of a step of a variable. -/
private theorem done_update {m : Mark} {operator : UpdateOperator} {leading : Bool}
    {argument : Expr} (hargument : (Expr.identifier? argument).isSome = false →
      Done o (argument.pieces o role) (argument.actions o place)) :
    Done o ((updateExpression m operator leading argument).pieces o role)
      ((updateExpression m operator leading argument).actions o place) := by
  rw [actions_updateExpression]
  change Done o (_ :: argument.pieces o (if _ then _ else role)) _
  cases hidentifier : Expr.identifier? argument with
  | none => exact (hargument (by rw [hidentifier]; rfl)).below
  | some i =>
    refine .own hrole place ?_
    unfold deeds
    simp [hidentifier]

end

/-- The actions of a tree are deeds of its pieces. -/
theorem done {c : Category} (o : Options) : (t : Tree c) → (role : Role) →
    role.isWalked = true → (place : Place) → Done o (t.pieces o role) (t.actions o place)
  | .nil, _, _, _ | .absent, _, _, _ => .nil
  | .cons head _, role, h, .head => (done o head role h .head).left.below
  | .cons head tail, role, h, .code b =>
    done_cons h (.code b) (done o head role h (.code b))
      (done o tail role.rest (Role.isWalked_rest h) (.code b))
  | .cons head tail, role, h, .parameters owner i =>
    done_cons h (.parameters owner i) (done o head role h (.code false))
      (done o tail role.rest (Role.isWalked_rest h) (.parameters owner (i + 1)))
  | .cons head tail, role, h, .declarators d kind i =>
    done_cons h (.declarators d kind i) (done o head role h (.code false))
      (done o tail role.rest (Role.isWalked_rest h) (.declarators d kind (i + 1)))
  | .present part, role, h, place => (done o part role h place).below
  | .program _ body, role, h, place =>
    done_around h place (done o body role h (.code false))
  | .blockStatement b, role, h, place => (done o b role h place).below
  | .breakStatement _ _, _, _, _ | .continueStatement _ _, _, _, _ => .nil
  | .classDeclaration declared, role, h, place => (done o declared role h place).below
  | .debuggerStatement _, _, _, _ | .directiveStatement _ _ _, _, _, _ => .nil
  | .emptyStatement _, _, _, _ | .exportAllDeclaration _ _ _, _, _, _ => .nil
  | .doWhileStatement _ body test, role, h, place =>
    ((done o body role h place).append (done o test role h place)).below
  | .exportDefaultDeclaration _ d, role, h, place => (done o d role h place).below
  | .exportNamedDeclaration _ _ _ (some _), _, _, _ => .nil
  | .exportNamedDeclaration _ (.present declared) _ none, role, h, place =>
    (done o declared role h place).below.left.below
  | .exportNamedDeclaration _ .absent specifiers none, role, h, place =>
    (done o specifiers role h place).right.below
  | .expressionStatement _ e _, role, h, place => (done o e role h place).below
  | .iterationStatement _ _ (.targetDeclaration (.declaration _ _ .nil)) right body _, role, h,
      place =>
    done_declaringLoop h place .nil (fun _ => .nil) (done o right role h place)
      (done o body role h place)
  | .iterationStatement _ _ (.targetDeclaration (.declaration dm kind
      (.cons (.declarator im target init) others))) right body _, role, h, place =>
    done_declaringLoop h place
      (done o target _ (Role.isWalked_target h _ _) (.code false)).left.below.left.below
      (fun hkind => done o (.cons (.declarator im target init) others) _
        (Role.isWalked_inner h (by rw [hkind]; rfl)) (.declarators ⟨.declaration, dm⟩ kind 0))
      (done o right role h place) (done o body role h place)
  | .iterationStatement _ _ (.targetPattern p) right body _, role, h, place =>
    done_assigningLoop h place (done o p _ (Role.isWalked_inner h rfl) place)
      (done o right role h place) (done o body role h place)
  | .forStatement _ init test update body, role, h, place =>
    done_forStatement h place (done o init role h place) (done o test role h place)
      (done o update role h place) (done o body role h place)
  | .functionDeclaration declared, role, h, place => (done o declared role h place).below
  | .ifStatement _ test consequent alternate, role, h, place =>
    (((done o test role h place).append (done o consequent role h place)).append
      (done o alternate role h place)).below
  | .importDeclaration m specifiers source, _, h, place => done_deeds h place _ _
  | .labeledStatement _ _ body, role, h, place => (done o body role h place).below
  | .returnStatement _ argument, role, h, place => (done o argument role h place).below
  | .switchStatement _ discriminant cases, role, h, place =>
    done_between h place (done o discriminant role h place) (done o cases role h place)
  | .throwStatement _ argument, role, h, place => (done o argument role h place).below
  | .tryStatement _ b handler finalizer, role, h, place =>
    (((done o b role h place).append (done o handler role h place)).append
      (done o finalizer role h place)).below
  | .variableDeclaration d, role, h, place => (done o d role h place).below
  | .whileStatement _ test body, role, h, place =>
    ((done o test role h place).append (done o body role h place)).below
  | .withStatement _ object body, role, h, place =>
    done_between h place (done o object role h place) (done o body role h place)
  | .block _ body, _, h, place =>
    done_around h place (done o body _ (Role.isWalked_inner h rfl) place)
  | .declaration m kind declarators, role, h, place =>
    done_around h place (done o declarators role h (.declarators ⟨.declaration, m⟩ kind 0))
  | .declarator _ target _, _, h, .head =>
    (done o target _ (Role.isWalked_inner h rfl) (.code false)).left.below
  | .declarator _ target init, _, h, .code b =>
    ((done o target _ (Role.isWalked_inner h rfl) (.code b)).append
      (done o init _ (Role.isWalked_initial h) (.code b))).below
  | .declarator _ target init, _, h, .parameters owner i =>
    ((done o target _ (Role.isWalked_inner h rfl) (.parameters owner i)).append
      (done o init _ (Role.isWalked_initial h) (.parameters owner i))).below
  | .declarator _ target init, _, h, .declarators d kind i =>
    ((done o target _ (Role.isWalked_inner h rfl) (.declarators d kind i)).append
      (done o init _ (Role.isWalked_initial h) (.declarators d kind i))).below
  | .switchCase _ test consequent, role, h, place =>
    ((done o test role h place).append (done o consequent role h place)).below
  | .catchClause _ param body, role, h, place =>
    done_catchClause h place (done o param _ (Role.isWalked_inner h rfl) place)
      (done o body role h place)
  | .initDeclaration d, role, h, place => (done o d role h place).below
  | .initExpression e, role, h, place => (done o e role h place).below
  | .targetDeclaration _, _, _, _ | .targetPattern _, _, _, _ => .nil
  | .importDefaultSpecifier _ _, _, _, _ | .importNamespaceSpecifier _ _, _, _, _
  | .importNamedSpecifier _ _ _, _, _, _ => .nil
  | .exportSpecifier _ binding _, role, h, place => (done o binding role h place).left.below
  | .defaultFunction declared, role, h, place => (done o declared role h place).below
  | .defaultClass declared, role, h, place => (done o declared role h place).below
  | .defaultExpression e, role, h, place => (done o e role h place).below
  | .function form m _ params body _ _ _, role, h, place =>
    done_function h place
      (done o params _ (Role.isWalked_inner h rfl) (.parameters ⟨.function form, m⟩ 0))
      (done o body role h (.code false))
  | .blockBody (.block _ body), _, h, place =>
    (done o body _ (Role.isWalked_inner (Role.isWalked_inner h rfl) rfl) place).below.below
  | .expressionBody e, role, h, place => (done o e role h place).below
  | .classNode _ _ _ superclass body, role, h, place =>
    done_class h place (done o superclass role h place) (done o body role h place)
  | .classBody _ members, role, h, place => (done o members role h place).below
  | .method _ key value _ _ _, role, h, place =>
    ((Done.ite fun hcomputed => done o key _ (Role.isWalked_ite h hcomputed) place).append
      (done o value role h (.code true))).below
  | .arrayExpression _ elements, role, h, place => (done o elements role h place).below
  | .arrowFunction fn, role, h, place => (done o fn role h place).below
  | .assignmentExpression _ _ left right, role, h, place =>
    done_assignment h place (fun hwalked => done o left _ hwalked place) (done o right role h place)
  | .awaitExpression _ argument, role, h, place => (done o argument role h place).below
  | .binaryExpression _ _ _ left right, role, h, place =>
    ((done o left role h place).append (done o right role h place)).below
  | .callExpression m callee arguments isOptional, role, h, place =>
    .both (.both (done_deeds h place (.callExpression m callee arguments isOptional) _)
      (done o callee role h place).left.below) (done o arguments role h place).right.below
  | .chainExpression _ e, role, h, place => (done o e role h place).below
  | .classExpression value, role, h, place => (done o value role h place).below
  | .conditionalExpression _ test consequent alternate, role, h, place =>
    (((done o test role h place).append (done o consequent role h place)).append
      (done o alternate role h place)).below
  | .functionExpression fn, role, h, place => (done o fn role h place).below
  | .identifier i, _, h, place => done_deeds h place (.identifier i) []
  | .importExpression _ source, role, h, place => (done o source role h place).below
  | .literal _, _, _, _ | .metaProperty _ _ _, _, _, _ | .superExpression _, _, _, _ => .nil
  | .memberExpression a, role, h, place => (done o a role h place).below
  | .newExpression _ callee arguments _, role, h, place =>
    ((done o callee role h place).append (done o arguments role h place)).below
  | .objectExpression _ members, role, h, place => (done o members role h place).below
  | .sequenceExpression _ expressions, role, h, place => (done o expressions role h place).below
  | .spreadExpression s, role, h, place => (done o s role h place).below
  | .taggedTemplate _ tag quasi, role, h, place =>
    ((done o tag role h place).append (done o quasi role h place)).below
  | .templateExpression t, role, h, place => (done o t role h place).below
  | .thisExpression m, _, h, place => done_deeds h place (.thisExpression m) []
  | .unaryExpression _ _ _ argument, role, h, place => (done o argument role h place).below
  | .updateExpression _ _ _ argument, role, h, place =>
    done_update h place fun _ => done o argument role h place
  | .yieldExpression _ argument _, role, h, place => (done o argument role h place).below
  | .access _ object prop _ _, role, h, place =>
    ((done o object role h place).append
      (.ite fun hcomputed => done o prop _ (Role.isWalked_ite h hcomputed) place)).below
  | .spread _ argument, role, h, place => (done o argument role h place).below
  | .template _ _ expressions, role, h, place => (done o expressions role h place).below
  | .property _ key value _ isMethod _ _, role, h, place =>
    ((Done.ite fun hcomputed => done o key _ (Role.isWalked_ite h hcomputed) place).append
      (done o value role h (if isMethod then .code true else place))).below
  | .spreadMember s, role, h, place => (done o s role h place).below
  | .arrayPattern _ elements, role, h, place => (done o elements role h place).below
  | .assignmentPattern _ left right, _, h, place =>
    ((done o left _ (Role.isWalked_withDefault h) place).append
      (done o right _ (Role.isWalked_inner h rfl) place)).below
  | .identifierPattern _, _, _, _ => .nil
  | .memberPattern (.access _ object prop _ _), _, h, place =>
    .below (.below (.swap ((done o object _ (Role.isWalked_inner h rfl) place).append
      (.ite fun hcomputed =>
        done o prop _ (Role.isWalked_ite (Role.isWalked_inner h rfl) hcomputed) place))))
  | .objectPattern _ members, role, h, place => (done o members role h place).below
  | .restPattern r, role, h, place => (done o r role h place).below
  | .rest _ argument, role, h, place => (done o argument role h place).below
  | .patternProperty _ key value _ _, role, h, place =>
    ((Done.ite fun hcomputed =>
      done o key _ (Role.isWalked_ite (Role.isWalked_inner h rfl) hcomputed) place).append
      (done o value role h place)).below
  | .restMember r, role, h, place => (done o r role h place).below

end Tree

/-- The actions of a program are deeds of its pieces. -/
theorem Program.done (o : Options) (p : Program) :
    Done o (Program.pieces o p) (Program.actions o p) :=
  Tree.done o p .code rfl (.code false)

/-! ## What is assigned to -/

/-- A name that may have been declared before is written, and not read. -/
def Use.assigns : Use → Bool
  | .write _ _ isInit => !isInit
  | _ => false

theorem Use.assigns_iff (use : Use) :
    use.assigns = true ↔ (use.writes && !use.reads) = true ∧ use.isInit = false := by
  cases use <;> simp [assigns, writes, reads, isInit]

/-- The construct that assigns to a pattern without declaring anything, and the pattern. -/
def Tree.assigned? {c : Category} : Tree c → Option (Anchor × Pat)
  | .assignmentExpression m .assign left _ => some (⟨.assignment, m⟩, left)
  | .iterationStatement form m (.targetPattern p) _ _ _ => some (⟨.iteration form, m⟩, p)
  | _ => none

/-! ## What a deed can be -/

/-- Where the import stands that a construct is. -/
def Tree.import? {c : Category} : Tree c → Option Loc
  | .importDeclaration m _ _ => some m.loc
  | _ => none

/-- Scopes of these kinds may ask for strict mode. -/
def ScopeKind.mayAsk : ScopeKind → Bool
  | .global | .function | .module | .classBody => true
  | _ => false

/-- Whether the tree asks for strict mode where it opens a scope, at the given place. -/
inductive Tree.Asks (o : Options) (place : Place) :
    {c : Category} → Tree c → ScopeKind → Anchor → Bool → Prop
  | global (m : Mark) (body : Tree (.list .statement)) :
      Asks o place (.program m body) .global ⟨.program, m⟩
        (!o.nodejsScope && (hasUseStrict o.directive body.toList ||
          (!(o.isEs6 && o.isModule) && o.impliesStrict)))
  | wrapper (m : Mark) (body : Tree (.list .statement)) (hwrapper : o.nodejsScope = true) :
      Asks o place (.program m body) .function ⟨.program, m⟩
        (hasUseStrict o.directive body.toList || (!(o.isEs6 && o.isModule) && o.impliesStrict))
  | module (m : Mark) (body : Tree (.list .statement)) (hmodule : (o.isEs6 && o.isModule) = true) :
      Asks o place (.program m body) .module ⟨.program, m⟩ true
  | function (form : FunctionForm) (m : Mark) (name : Option Identifier)
      (params : Tree (.list .pattern)) (body : Tree .functionBody)
      (generator async expression : Bool) :
      Asks o place (.function form m name params body generator async expression) .function
        ⟨.function form, m⟩
        (form = .arrow || place.isMethod || FunctionBody.hasUseStrict o.directive body)
  | classNode (form : ClassForm) (m : Mark) (name : Option Identifier)
      (superclass : Tree (.optional .expression)) (body : Tree .classBody) :
      Asks o place (.classNode form m name superclass body) .classBody ⟨.classNode form, m⟩ true
  /-- Other scopes do not make code strict. -/
  | other {c : Category} {t : Tree c} {kind : ScopeKind} {block : Anchor}
      (hkind : kind.mayAsk = false) : Asks o place t kind block false

/-- The action opens no scope and refuses no import. It defines no implicit global variable, and
where it uses a name it neither assigns to the name nor may create a variable. -/
def Action.Routine : Action → Prop
  | .openScope _ _ _ | .refuseImport _ => False
  | .declare d => d.kind ≠ .implicitGlobal
  | .refer _ use creator => use.assigns = false ∧ creator = none
  | _ => True

/-- What a construct can do itself at a place. -/
inductive Tree.Deed (o : Options) (place : Place) {c : Category} (t : Tree c) : Action → Prop
  | routine {a : Action} (ha : a.Routine) : Deed o place t a
  | opens {kind : ScopeKind} {block : Anchor} {strict : Bool}
      (hasks : t.Asks o place kind block strict) : Deed o place t (.openScope kind block strict)
  | assigns {creator value : Anchor} {p : Pat} {target : Target} {isPartial : Bool}
      (hassigned : t.assigned? = some (creator, p)) (htarget : target ∈ Pat.targets p) :
      Deed o place t (.refer target.identifier (.write value isPartial false) (some creator))
  | refuses {loc : Loc} (hmodule : (o.isEs6 && o.isModule) = false)
      (himport : t.import? = some loc) : Deed o place t (.refuseImport loc)

namespace Action

private theorem routine_declareHere {ds : List Definition}
    (hds : ∀ d ∈ ds, d.kind ≠ .implicitGlobal) : All Routine (declareHere ds) :=
  .append (.append (.single trivial) (.map hds)) (.single trivial)

private theorem routine_bindTargets {kind : Target → DefinitionKind}
    (hkind : ∀ t, kind t ≠ .implicitGlobal) (node : Anchor) (p : Pat) :
    All Routine (bindTargets kind node p) :=
  .flatMap fun t _ => .cons (hkind t) (.map fun _ _ => ⟨rfl, rfl⟩)

private theorem routine_bindDeclarator {kind : DefinitionKind} (hkind : kind ≠ .implicitGlobal)
    (reserved : Bool) (d : Tree .declarator) : All Routine (bindDeclarator kind reserved d) := by
  intro a ha
  rcases declare_or_refer_of_mem_bindDeclarator ha with ⟨_, _, rfl⟩ | ⟨_, _, _, rfl⟩
  · exact hkind
  · exact ⟨rfl, rfl⟩

private theorem routine_bindFirst {kind : DefinitionKind} (hkind : kind ≠ .implicitGlobal)
    (reserved : Bool) : (ds : Tree (.list .declarator)) → All Routine (bindFirst kind reserved ds)
  | .nil => .nil
  | .cons first _ =>
    .append (.append (.single trivial) (routine_bindDeclarator hkind reserved first))
      (.single trivial)

private theorem routine_bindItems (value : Anchor) : (ds : Tree (.list .declarator)) →
    All Routine (bindItems value ds)
  | .nil => .nil
  | .cons (.declarator _ _ _) _ => .map fun _ _ => ⟨rfl, rfl⟩

private theorem routine_refer? (i? : Option Identifier) {use : Use} (huse : use.assigns = false) :
    All Routine (match i? with | some i => [.refer i use none] | none => []) := by
  cases i? with
  | none => exact .nil
  | some i => exact .single ⟨huse, rfl⟩

private theorem routine_className (block : Anchor) (name : Option Identifier) :
    All Routine (Tree.className block name) := by
  cases name with
  | none => exact .nil
  | some i => exact routine_declareHere (by simp)

private theorem routine_declarations {c : Category} (place : Place) (t : Tree c) :
    All Routine (place.declarations t) := by
  cases place with
  | code | head => exact .nil
  | parameters owner index =>
    cases c with
    | pattern => exact routine_bindTargets (by simp) owner t
    | _ => exact .nil
  | declarators declaration kind index =>
    cases c with
    | declarator => exact routine_bindDeclarator (by simp) false t
    | _ => exact .nil

end Action

namespace Tree

variable {c : Category} {o : Options} {place : Place}

private theorem Deed.all {t : Tree c} {A : List Action} (hA : All Routine A) :
    All (t.Deed o place) A :=
  hA.mono fun _ => .routine

/-- A construct that assigns to a pattern writes into its targets. -/
theorem Deed.assignTargets {t : Tree c} {creator : Anchor} {p : Pat}
    (hassigned : t.assigned? = some (creator, p)) (value : Anchor) (isPartial : Target → Bool) :
    All (t.Deed o place) (assignTargets creator value isPartial p) :=
  .cons (.routine trivial) (.flatMap fun _ ht =>
    .append (.map fun _ _ => .assigns hassigned ht) (.single (.assigns hassigned ht)))

private theorem Deed.functionName {t : Tree c} (form : FunctionForm) (block : Anchor)
    (name : Option Identifier) : All (t.Deed o place) (functionName form block name) := by
  cases name with
  | none => cases form <;> exact .nil
  | some i =>
    cases form with
    | arrow => exact .nil
    | declaration => exact .all (routine_declareHere (by simp))
    | expression => exact .cons (.opens (.other rfl)) (.all (routine_declareHere (by simp)))

/-- A construct does nothing else. -/
theorem all_deeds (t : Tree c) : All (t.Deed o place) (t.deeds o place) := by
  have hclose {t : Tree c} (n : Nat) : All (t.Deed o place) [.closeScopes n] :=
    .single (.routine trivial)
  have hopen {t : Tree c} {kind : ScopeKind} (block : Anchor) (hkind : kind.mayAsk = false) :
      All (t.Deed o place) [.openScope kind block false] := .single (.opens (.other hkind))
  cases t with
  | cons head tail => exact .all (routine_declarations place head)
  | program m body =>
    exact .append (.append (.append (.single (.opens (.global m body)))
      (.ite (fun hwrapper => .single (.opens (.wrapper m body hwrapper))) fun _ => .nil))
      (.ite (fun hmodule => .single (.opens (.module m body hmodule))) fun _ => .nil)) (hclose m.id)
  | iterationStatement form m left right body await =>
    cases left with
    | targetPattern p => exact .assignTargets rfl _ _
    | targetDeclaration d =>
      cases d with
      | declaration dm kind ds =>
        refine .append (.ite (fun _ => ?_) fun _ => ?_) (.all (routine_bindItems _ ds))
        · exact .append (.append (.append (.append (hopen _ rfl)
            (.all (routine_bindFirst (by simp) true ds)))
            (.cons (.routine trivial) (hopen _ rfl)))
            (.all (routine_bindFirst (by simp) false ds))) (hclose _)
        · exact .append (.single (.routine trivial)) (.single (.routine trivial))
  | importDeclaration m specifiers source =>
    refine .ite (fun _ => .all (routine_declareHere fun d hd => ?_)) fun hmodule => ?_
    · obtain ⟨s, -, rfl⟩ := List.mem_map.mp hd
      exact nofun
    · exact .single (.refuses (by simpa using hmodule) rfl)
  | catchClause m param body =>
    refine .append (.append (hopen _ rfl) ?_) (hclose m.id)
    cases param with
    | absent => exact .nil
    | present p =>
      exact .append (.append (.single (.routine trivial))
        (.all (routine_bindTargets (by simp) _ p))) (.single (.routine trivial))
  | function form m name params body generator async expression =>
    exact .append (.append (.append (.functionName form _ name)
      (.cons (.opens (.function form m name params body generator async expression))
        (.single (.routine trivial)))) (.single (.routine trivial))) (hclose m.id)
  | classNode form m name superclass body =>
    exact .append (.append (.ite (fun _ => .all (routine_className _ name)) fun _ => .nil)
      (.ite (fun _ => .cons (.opens (.classNode form m name superclass body))
        (.all (routine_className _ name))) fun _ => .nil)) (hclose m.id)
  | assignmentExpression m operator left right =>
    refine .ite (fun hassign => ?_) fun _ => .all (routine_refer? (Pat.identifier? left) rfl)
    subst hassign
    exact .assignTargets rfl _ _
  | updateExpression m operator leading argument =>
    exact .all (routine_refer? (Expr.identifier? argument) rfl)
  | forStatement m | switchStatement m | block m =>
    exact .append (.ite (fun _ => hopen _ rfl) fun _ => .nil) (hclose m.id)
  | withStatement m => exact .append (hopen _ rfl) (hclose m.id)
  | declaration => exact .append (.single (.routine trivial)) (.single (.routine trivial))
  | callExpression => exact .ite (fun _ => .single (.routine trivial)) fun _ => .nil
  | identifier => exact .single (.routine ⟨rfl, rfl⟩)
  | thisExpression => exact .single (.routine trivial)
  | _ => exact .nil

end Tree

/-! ## Assignments -/

/-- The action does not define an implicit global variable, and where it uses a name it may create
one if and only if the name is a target of the pattern that is `assigned`. -/
def Action.Heeds (assigned : Option (Anchor × Pat)) : Action → Prop
  | .refer i use creator => match creator with
    | none => use.assigns = false
    | some anchor => use.assigns = true ∧ ∃ p, assigned = some (anchor, p) ∧
      ∃ t ∈ Pat.targets p, t.identifier = i
  | .declare d => d.kind ≠ .implicitGlobal
  | _ => True

/-- Every deed of a construct heeds what the construct assigns to. -/
theorem Tree.Deed.heeds {c : Category} {o : Options} {place : Place} {t : Tree c} {a : Action}
    (h : t.Deed o place a) : a.Heeds t.assigned? := by
  cases h with
  | routine ha =>
    cases a with
    | refer i use creator =>
      obtain ⟨huse, rfl⟩ := ha
      exact huse
    | declare d => exact ha
    | _ => trivial
  | opens | refuses => trivial
  | assigns hassigned htarget => exact ⟨rfl, _, hassigned, _, htarget, rfl⟩

/-- Every action of a program heeds what one of its pieces assigns to. -/
theorem Program.heeds {o : Options} {p : Program} {a : Action} (ha : a ∈ Program.actions o p) :
    ∃ u ∈ Program.pieces o p, u.role ≠ .skipped ∧ a.Heeds u.tree.assigned? := by
  obtain ⟨u, hu, hrole, place, hdeed⟩ := Program.done o p a ha
  exact ⟨u, hu, hrole, (u.tree.all_deeds a hdeed).heeds⟩

end EcmaScope
