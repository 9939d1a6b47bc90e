import EcmaScope.Action

/-!
# The nesting of actions

The actions of a program open and close scopes, and begin and end declarations, like brackets. But a
scope is closed by naming its node, and a node may have several scopes: a function expression with a
name has two, and the value that a loop goes through may be a function or a class, which then shares
its node with the scope around it. So the brackets are those of nodes, not of single scopes: the
actions of a node may open scopes of the node one after the other, with whole parts in between, and
then close them all.

`Action.Nested` is the grammar of such lists of actions, and `Tree.actions_nested` says that the
actions of every tree follow it, whatever the numbers of the nodes are.

## Main definitions

* `Action.Nested`: lists of actions with nested scopes and declarations.
* `Action.Enclosed`, `Action.Rooted`: the same for the actions of a part and of a node of a tree.

## Main results

* `Tree.actions_nested`, `Program.actions_eq`: the actions of trees and programs are nested.
-/

namespace EcmaScope

namespace Action

/-- The action neither opens nor closes anything, and declares nothing. -/
def isPlain : Action → Bool
  | .refer .. | .needScope | .useThis | .callEval | .refuseImport _ => true
  | _ => false

/-- Lists of actions in which scopes and declarations are nested. If there is an `owner`, scopes of
that node may be left open; `sited` says that names may be declared without beginning a
declaration; `nodes` are the nodes whose scopes are opened and closed. -/
inductive Nested : Option Nat → Bool → List Nat → List Action → Prop
  | nil {owner sited} : Nested owner sited [] []
  | append {owner sited I J A B} (hA : Nested owner sited I A) (hB : Nested owner sited J B) :
      Nested owner sited (I ++ J) (A ++ B)
  | plain {owner sited} (a : Action) (ha : a.isPlain = true) : Nested owner sited [] [a]
  | declare {owner} (d : Definition) : Nested owner true [] [.declare d]
  | site {owner sited I A} (reach : Reach) (hA : Nested none true I A) :
      Nested owner sited I ([.beginSite reach] ++ A ++ [.endSite])
  | openScope {sited} (kind : ScopeKind) (block : Anchor) (strict : Bool) :
      Nested (some block.id) sited [] [.openScope kind block strict]
  | scopes {owner sited n I A} (k : Nat) (hA : Nested (some n) sited I A) :
      Nested owner sited (n :: I) (A ++ List.replicate (k + 1) (.closeScopes n))

namespace Nested

variable {owner : Option Nat} {sited : Bool} {I J : List Nat} {A B : List Action}

/-- What is nested without an owner is nested inside every node. -/
private theorem own (h : Nested none sited I A) : Nested owner sited I A := by
  generalize hw : none = w at h
  induction h with
  | nil => exact .nil
  | append _ _ ihA ihB => exact .append (ihA hw) (ihB hw)
  | plain a ha => exact .plain a ha
  | declare d => exact .declare d
  | site reach hA => exact .site reach hA
  | openScope => cases hw
  | scopes k hA => exact .scopes k hA

/-- What declares nothing by itself may stand inside a declaration. -/
private theorem sit (h : Nested owner false I A) : Nested owner sited I A := by
  generalize hd : false = d at h
  induction h with
  | nil => exact .nil
  | append _ _ ihA ihB => exact .append (ihA hd) (ihB hd)
  | plain a ha => exact .plain a ha
  | declare d => cases hd
  | site reach hA => exact .site reach hA
  | openScope kind block strict => exact .openScope kind block strict
  | scopes k _ ih => exact .scopes k (ih hd)

/-- A list of plain actions is nested. -/
private theorem of_plain (h : ∀ a ∈ A, a.isPlain = true) : Nested owner sited [] A := by
  induction A with
  | nil => exact .nil
  | cons a A ih =>
    exact .append (.plain a (h a List.mem_cons_self))
      (ih fun b hb => h b (List.mem_cons_of_mem a hb))

/-- A list of plain actions and declarations is nested inside a declaration. -/
private theorem of_declare (h : ∀ a ∈ A, a.isPlain = true ∨ ∃ d, a = .declare d) :
    Nested owner true [] A := by
  induction A with
  | nil => exact .nil
  | cons a A ih =>
    have htail := ih fun b hb => h b (List.mem_cons_of_mem a hb)
    rcases h a List.mem_cons_self with ha | ⟨d, rfl⟩
    · exact .append (.plain a ha) htail
    · exact .append (.declare d) htail

end Nested

/-! ## Actions of the parts of a tree -/

/-- The actions are nested, and the nodes whose scopes they open are among `marks`, each at most as
often as there. -/
def Enclosed (owner : Option Nat) (sited : Bool) (marks : List Mark) (A : List Action) : Prop :=
  ∃ I : List Nat, (∀ n, I.count n ≤ (marks.map (·.id)).count n) ∧ Nested owner sited I A

theorem count_cons_le {I : List Nat} {M : List Mark} (m : Mark)
    (hI : ∀ n, I.count n ≤ (M.map (·.id)).count n) (n : Nat) :
    (m.id :: I).count n ≤ ((m :: M).map (·.id)).count n := by
  rw [List.map_cons, List.count_cons, List.count_cons]
  exact Nat.add_le_add_right (hI n) _

theorem count_append_le {I J : List Nat} {M N : List Mark}
    (hI : ∀ n, I.count n ≤ (M.map (·.id)).count n) (hJ : ∀ n, J.count n ≤ (N.map (·.id)).count n)
    (n : Nat) : (I ++ J).count n ≤ ((M ++ N).map (·.id)).count n := by
  rw [List.map_append, List.count_append, List.count_append]
  exact Nat.add_le_add (hI n) (hJ n)

namespace Enclosed

variable {owner : Option Nat} {sited : Bool} {M N : List Mark} {A B : List Action}

theorem of_nested (h : Nested owner sited [] A) : Enclosed owner sited M A :=
  ⟨[], fun n => by simp, h⟩

theorem nil : Enclosed owner sited M [] :=
  of_nested .nil

theorem of_plain (h : ∀ a ∈ A, a.isPlain = true) : Enclosed owner sited M A :=
  of_nested (.of_plain h)

theorem plain {a : Action} (ha : a.isPlain = true) : Enclosed owner sited M [a] :=
  of_nested (.plain a ha)

theorem of_declare (h : ∀ a ∈ A, a.isPlain = true ∨ ∃ d, a = .declare d) :
    Enclosed owner true M A :=
  of_nested (.of_declare h)

theorem openScope (m : Mark) {kind : ScopeKind} {construct : AnchorKind} {strict : Bool} :
    Enclosed (some m.id) sited M [.openScope kind ⟨construct, m⟩ strict] :=
  of_nested (.openScope kind ⟨construct, m⟩ strict)

theorem own (h : Enclosed none sited M A) : Enclosed owner sited M A := by
  obtain ⟨I, hI, h⟩ := h
  exact ⟨I, hI, h.own⟩

theorem sit (h : Enclosed owner false M A) : Enclosed owner sited M A := by
  obtain ⟨I, hI, h⟩ := h
  exact ⟨I, hI, h.sit⟩

theorem append (hA : Enclosed owner sited M A) (hB : Enclosed owner sited N B) :
    Enclosed owner sited (M ++ N) (A ++ B) := by
  obtain ⟨I, hI, hA⟩ := hA
  obtain ⟨J, hJ, hB⟩ := hB
  exact ⟨I ++ J, count_append_le hI hJ, hA.append hB⟩

theorem mono (h : Enclosed owner sited M A)
    (hMN : ∀ n, (M.map (·.id)).count n ≤ (N.map (·.id)).count n) : Enclosed owner sited N A := by
  obtain ⟨I, hI, h⟩ := h
  exact ⟨I, fun n => Nat.le_trans (hI n) (hMN n), h⟩

theorem sublist (h : Enclosed owner sited M A) (hMN : M.Sublist N) : Enclosed owner sited N A :=
  h.mono fun n => (hMN.map _).count_le n

theorem cons {m : Mark} (h : Enclosed owner sited M A) : Enclosed owner sited (m :: M) A :=
  h.sublist (List.sublist_cons_self m M)

theorem left (h : Enclosed owner sited M A) : Enclosed owner sited (M ++ N) A :=
  h.sublist (List.sublist_append_left M N)

theorem right (h : Enclosed owner sited N A) : Enclosed owner sited (M ++ N) A :=
  h.sublist (List.sublist_append_right M N)

/-- Actions that open no scopes of their own may stand before others. -/
theorem after (hA : Enclosed owner sited [] A) (hB : Enclosed owner sited M B) :
    Enclosed owner sited M (A ++ B) :=
  hA.append hB

/-- Actions that open no scopes of their own may stand after others. -/
theorem before (hA : Enclosed owner sited M A) (hB : Enclosed owner sited [] B) :
    Enclosed owner sited M (A ++ B) := by
  simpa only [List.append_nil] using hA.append hB

theorem ite {p : Prop} [Decidable p] (h : Enclosed owner sited M A) :
    Enclosed owner sited M (if p then A else []) := by
  split
  · exact h
  · exact nil

theorem site {reach : Reach} (h : Enclosed none true M A) :
    Enclosed owner sited M ([Action.beginSite reach] ++ A ++ [Action.endSite]) := by
  obtain ⟨I, hI, h⟩ := h
  exact ⟨I, hI, .site reach h⟩

theorem scopes {m : Mark} (k : Nat) (h : Enclosed (some m.id) sited M A) :
    Enclosed owner sited (m :: M) (A ++ List.replicate (k + 1) (Action.closeScopes m.id)) := by
  obtain ⟨I, hI, h⟩ := h
  exact ⟨m.id :: I, count_cons_le m hI, .scopes k h⟩

end Enclosed

/-- The actions of a node, whose own mark is the first one: either they open no scopes of the node,
or they end by closing them. -/
inductive Rooted (sited : Bool) : List Mark → List Action → Prop
  | node {m M A} (h : Enclosed none sited M A) : Rooted sited (m :: M) A
  | scopes {m M A} (k : Nat) (h : Enclosed (some m.id) sited M A) :
      Rooted sited (m :: M) (A ++ List.replicate (k + 1) (.closeScopes m.id))

namespace Rooted

variable {sited : Bool} {m : Mark} {M : List Mark} {A B : List Action}

private theorem enclosed (h : Rooted sited M A) : Enclosed none sited M A := by
  cases h with
  | node h => exact h.cons
  | scopes k h => exact h.scopes k

/-- A scope of the node that is opened before its actions is closed after them. -/
private theorem around (h : Rooted sited (m :: M) A) (hB : Enclosed (some m.id) sited [] B) :
    Enclosed none sited (m :: M) (B ++ A ++ [Action.closeScopes m.id]) := by
  cases h with
  | node h => exact (hB.after h.own).scopes 0
  | @scopes _ _ A k h =>
    have hclose : Enclosed none sited (m :: M)
        (B ++ A ++ List.replicate (k + 1 + 1) (Action.closeScopes m.id)) :=
      (hB.after h).scopes (k + 1)
    rwa [List.replicate_succ', ← List.append_assoc, List.append_assoc B] at hclose

end Rooted

/-- The actions of a tree of a category. -/
def Fits : Category → Bool → List Mark → List Action → Prop
  | .list _, sited, M, A => Enclosed none sited M A
  | .optional _, sited, M, A => Enclosed none sited M A
  | .forTarget, sited, M, A => Enclosed none sited M A
  | _, sited, M, A => Rooted sited M A

private theorem Fits.enclosed {c : Category} {sited : Bool} {M : List Mark} {A : List Action}
    (h : Fits c sited M A) : Enclosed none sited M A := by
  cases c with
  | list _ | optional _ | forTarget => exact h
  | _ => exact Rooted.enclosed h

/-! ## Declarations and writes -/

section

variable {owner : Option Nat} {sited : Bool} {M : List Mark}

private theorem enclosed_declareHere (ds : List Definition) :
    Enclosed owner sited M (declareHere ds) :=
  .site (.of_declare fun a ha => by
    obtain ⟨d, -, rfl⟩ := List.mem_map.mp ha
    exact Or.inr ⟨d, rfl⟩)

private theorem isPlain_of_mem_writeDefaults {t : Target} {isInit : Bool} {creator : Option Anchor}
    {a : Action} (ha : a ∈ writeDefaults t isInit creator) : a.isPlain = true := by
  obtain ⟨d, -, rfl⟩ := List.mem_map.mp ha
  rfl

private theorem enclosed_bindTargets (kind : Target → DefinitionKind) (node : Anchor) (p : Pat) :
    Enclosed owner true M (bindTargets kind node p) :=
  .of_declare fun a ha => by
    obtain ⟨t, -, ha⟩ := List.mem_flatMap.mp ha
    rcases List.mem_cons.mp ha with rfl | ha
    · exact Or.inr ⟨_, rfl⟩
    · exact Or.inl (isPlain_of_mem_writeDefaults ha)

private theorem enclosed_assignTargets (creator value : Anchor) (isPartial : Target → Bool)
    (p : Pat) : Enclosed owner sited M (assignTargets creator value isPartial p) :=
  .of_plain fun a ha => by
    rcases List.mem_cons.mp ha with rfl | ha
    · rfl
    obtain ⟨t, -, ha⟩ := List.mem_flatMap.mp ha
    rcases List.mem_append.mp ha with ha | ha
    · exact isPlain_of_mem_writeDefaults ha
    · rw [List.mem_singleton.mp ha]
      rfl

/-- The targets of a declarator are declared, and they receive values. -/
theorem declare_or_refer_of_mem_bindDeclarator {kind : DefinitionKind} {reserved : Bool} :
    {d : Tree .declarator} → {a : Action} → a ∈ bindDeclarator kind reserved d →
      (∃ i node, a = .declare ⟨kind, i, node⟩) ∨
        ∃ i value isPartial, a = .refer i (.write value isPartial true) none
  | .declarator _ target init, a, ha => by
    obtain ⟨t, -, ha⟩ := List.mem_flatMap.mp ha
    rcases List.mem_cons.mp ha with rfl | ha
    · exact .inl ⟨_, _, rfl⟩
    right
    rcases List.mem_append.mp ha with ha | ha
    · split at ha
      · cases ha
      · obtain ⟨d, -, rfl⟩ := List.mem_map.mp ha
        exact ⟨_, _, _, rfl⟩
    · cases init with
      | absent => cases ha
      | present value => exact ⟨_, _, _, List.mem_singleton.mp ha⟩

theorem isPlain_or_declare_of_mem_bindDeclarator {kind : DefinitionKind} {reserved : Bool}
    {d : Tree .declarator} {a : Action} (ha : a ∈ bindDeclarator kind reserved d) :
    a.isPlain = true ∨ ∃ d, a = .declare d := by
  rcases declare_or_refer_of_mem_bindDeclarator ha with ⟨_, _, rfl⟩ | ⟨_, _, _, rfl⟩
  · exact .inr ⟨_, rfl⟩
  · exact .inl rfl

private theorem enclosed_bindDeclarator (kind : DefinitionKind) (reserved : Bool)
    (d : Tree .declarator) : Enclosed owner true M (bindDeclarator kind reserved d) :=
  .of_declare fun _ => isPlain_or_declare_of_mem_bindDeclarator

theorem enclosed_bindItems (value : Anchor) :
    (ds : Tree (.list .declarator)) → Enclosed owner sited M (bindItems value ds)
  | .nil => .nil
  | .cons (.declarator _ _ _) _ =>
    .of_plain fun a ha => by
      obtain ⟨t, -, rfl⟩ := List.mem_map.mp ha
      rfl

theorem enclosed_bindFirst (kind : DefinitionKind) (reserved : Bool) :
    (ds : Tree (.list .declarator)) → Enclosed owner sited M (bindFirst kind reserved ds)
  | .nil => .nil
  | .cons first _ => .site (enclosed_bindDeclarator kind reserved first)

theorem enclosed_className (block : Anchor) (name : Option Identifier) :
    Enclosed owner sited M (Tree.className block name) := by
  cases name with
  | none => exact .nil
  | some i => exact enclosed_declareHere _

theorem enclosed_functionName (form : FunctionForm) (block : Anchor) (name : Option Identifier) :
    Enclosed (some block.id) sited M (Tree.functionName form block name) := by
  cases name with
  | none => cases form <;> exact .nil
  | some i =>
    cases form with
    | declaration => exact enclosed_declareHere _
    | expression => exact (Enclosed.openScope block.mark).after (enclosed_declareHere _)
    | arrow => exact .nil

end

end Action

/-- The first node of an expression is the expression itself. -/
theorem Expr.marks_eq_cons (e : Expr) : ∃ M, Tree.marks e = Expr.mark e :: M := by
  cases e with
  | arrowFunction f | functionExpression f => cases f; exact ⟨_, rfl⟩
  | classExpression c => cases c; exact ⟨_, rfl⟩
  | memberExpression a => cases a; exact ⟨_, rfl⟩
  | spreadExpression s => cases s; exact ⟨_, rfl⟩
  | templateExpression t => cases t; exact ⟨_, rfl⟩
  | _ => exact ⟨_, rfl⟩

/-- The items of the place are inside a declaration. -/
def Place.isSited : Place → Bool
  | .parameters .. | .declarators .. => true
  | _ => false

namespace Tree

open EcmaScope.Action

private theorem enclosed_declarations {c : Category} (place : Place) (t : Tree c) :
    Enclosed none place.isSited [] (place.declarations t) := by
  cases place with
  | code | head => exact .nil
  | parameters owner index =>
    cases c with
    | pattern => exact enclosed_bindTargets _ _ _
    | _ => exact .nil
  | declarators declaration kind index =>
    cases c with
    | declarator => exact enclosed_bindDeclarator _ _ _
    | _ => exact .nil

/-- The actions of a loop over a value whose items are assigned to a pattern. -/
private theorem rooted_assigning_loop {o : Options} {place : Place} {form : IterationForm}
    {m : Mark} {p : Pat} {right : Expr} {body : Stmt} {await : Bool}
    (hp : ∀ a, p ≠ .memberPattern a) (h : Enclosed none place.isSited p.marks (p.actions o place))
    (hright : Enclosed none place.isSited right.marks (right.actions o place))
    (hbody : Enclosed none place.isSited body.marks (body.actions o place)) :
    Rooted place.isSited (iterationStatement form m (.targetPattern p) right body await).marks
      ((iterationStatement form m (.targetPattern p) right body await).actions o place) := by
  have hall := (((enclosed_assignTargets (M := []) ⟨.iteration form, m⟩ (Expr.anchor right)
    (fun _ => true) p).after h).append hright).append hbody
  cases p with
  | memberPattern a => exact absurd rfl (hp a)
  | _ => exact .node hall

/-- The actions of an assignment to a pattern. -/
private theorem rooted_assignment {o : Options} {place : Place} {m : Mark}
    {operator : AssignmentOperator} {left : Pat} {right : Expr} (hp : ∀ a, left ≠ .memberPattern a)
    (hleft : Enclosed none place.isSited left.marks (left.actions o place))
    (hright : Enclosed none place.isSited right.marks (right.actions o place)) :
    Rooted place.isSited (assignmentExpression m operator left right).marks
      ((assignmentExpression m operator left right).actions o place) := by
  have hall : Enclosed none place.isSited left.marks
      (if operator = .assign then
        assignTargets ⟨.assignment, m⟩ (Expr.anchor right) (fun t => !t.isWhole) left ++
          left.actions o place
      else
        (Pat.identifier? left).elim []
          fun i => [.refer i (.update (some (Expr.anchor right))) none]) := by
    split
    · exact (enclosed_assignTargets _ _ _ _).after hleft
    · cases Pat.identifier? left with
      | none => exact .nil
      | some i => exact .plain rfl
  cases left with
  | memberPattern a => exact absurd rfl (hp a)
  | _ => exact .node (hall.append hright)

/-- The actions of a loop over a value whose head declares variables. -/
private theorem rooted_declaring_loop {o : Options} {place : Place} {form : IterationForm}
    {m dm : Mark} {kind : VariableKind} {declarators : Tree (.list .declarator)} {right : Expr}
    {body : Stmt} {await : Bool}
    (hhead : Enclosed none false declarators.marks (declarators.actions o .head))
    (hall : Enclosed none true declarators.marks
      (declarators.actions o (.declarators ⟨.declaration, dm⟩ kind 0)))
    (hright : Rooted place.isSited right.marks (right.actions o place))
    (hbody : Enclosed none place.isSited body.marks (body.actions o place)) :
    Rooted place.isSited
      (iterationStatement form m (.targetDeclaration (.declaration dm kind declarators)) right body
        await).marks
      ((iterationStatement form m (.targetDeclaration (.declaration dm kind declarators)) right body
        await).actions o place) := by
  change Rooted _ (m :: (dm :: declarators.marks ++ right.marks ++ body.marks))
    (if (kind.isLexical && o.isEs6) = true then _ else _)
  split
  · obtain ⟨M, hM⟩ := Expr.marks_eq_cons right
    rw [hM] at hright ⊢
    -- the scope around the value is closed with the value, or by it
    have hvalue : Enclosed none place.isSited (Expr.mark right :: M)
        ([Action.openScope .tdz (Expr.anchor right) false] ++
          bindFirst (.tdz ⟨.declaration, dm⟩ 0 kind) true declarators ++
          right.actions o place ++ [Action.closeScopes (Expr.anchor right).id]) :=
      hright.around ((Enclosed.openScope _).after (enclosed_bindFirst _ _ _))
    have hloop : Enclosed (some m.id) place.isSited (declarators.marks ++ body.marks)
        ([Action.openScope .loop ⟨.iteration form, m⟩ false] ++
          bindFirst (.declared ⟨.declaration, dm⟩ 0 kind) false declarators ++
          declarators.actions o .head ++ bindItems (Expr.anchor right) declarators ++
          body.actions o place) :=
      ((((Enclosed.openScope m).after (enclosed_bindFirst _ _ _)).after hhead.own.sit).before
        (enclosed_bindItems _ _)).append hbody.own
    have hall := Rooted.scopes 0 ((hvalue.own.append hloop).mono
      (N := dm :: declarators.marks ++ (Expr.mark right :: M) ++ body.marks) fun n => by
        simp only [List.map_append, List.map_cons, List.count_append, List.cons_append,
          List.count_cons]
        omega)
    simpa only [List.append_assoc, List.cons_append, List.nil_append, List.replicate_one,
      Nat.zero_add] using hall
  · exact .node ((((Enclosed.site hall).cons.before (enclosed_bindItems _ _)).append
      hright.enclosed).append hbody)

/-- The actions of a loop with a counter. -/
private theorem rooted_forStatement {o : Options} {place : Place} {m : Mark}
    {init : Tree (.optional .forInit)} {test update : Tree (.optional .expression)} {body : Stmt}
    (hinit : Enclosed none place.isSited init.marks (init.actions o place))
    (htest : Enclosed none place.isSited test.marks (test.actions o place))
    (hupdate : Enclosed none place.isSited update.marks (update.actions o place))
    (hbody : Enclosed none place.isSited body.marks (body.actions o place)) :
    Rooted place.isSited (forStatement m init test update body).marks
      ((forStatement m init test update body).actions o place) := by
  refine .scopes 0 ((((Enclosed.after ?_ hinit.own).append htest.own).append hupdate.own).append
    hbody.own)
  cases init with
  | absent => exact .nil
  | present i =>
    cases i with
    | initDeclaration d =>
      cases d
      exact (Enclosed.openScope m).ite
    | initExpression e => exact .nil

/-- The actions of a function. -/
private theorem rooted_function {o : Options} {place : Place} {form : FunctionForm} {m : Mark}
    {name : Option Identifier} {params : Tree (.list .pattern)} {body : Tree .functionBody}
    {generator async expression : Bool}
    (hparams : Enclosed none true params.marks
      (params.actions o (.parameters ⟨.function form, m⟩ 0)))
    (hbody : Enclosed none false body.marks (body.actions o (.code false))) :
    Rooted place.isSited (function form m name params body generator async expression).marks
      ((function form m name params body generator async expression).actions o place) := by
  have hname : Enclosed (some m.id) place.isSited (name.map (·.mark)).toList
      (functionName form ⟨.function form, m⟩ name) := enclosed_functionName _ ⟨_, m⟩ _
  have hopen : Enclosed (some m.id) place.isSited [] [.openScope .function ⟨.function form, m⟩
      (form = .arrow || place.isMethod || FunctionBody.hasUseStrict o.directive body)] :=
    .openScope m
  have hsite : Enclosed (some m.id) place.isSited params.marks ([Action.beginSite .innermost] ++
      params.actions o (.parameters ⟨.function form, m⟩ 0) ++ [Action.endSite]) := .site hparams
  have hall := Rooted.scopes 0 (((hname.before hopen).append hsite).append hbody.own.sit)
  change Rooted _ (m :: (_ ++ _ ++ _)) (functionName form ⟨.function form, m⟩ name ++
    [Action.openScope .function ⟨.function form, m⟩
      (form = .arrow || place.isMethod || FunctionBody.hasUseStrict o.directive body),
      Action.beginSite .innermost] ++
    params.actions o (.parameters ⟨.function form, m⟩ 0) ++ [Action.endSite] ++
    body.actions o (.code false) ++ [Action.closeScopes m.id])
  simpa only [List.append_assoc, List.cons_append, List.nil_append, List.replicate_one,
    Nat.zero_add] using hall

/-- The actions of a class. -/
private theorem rooted_class {o : Options} {place : Place} {form : ClassForm} {m : Mark}
    {name : Option Identifier} {superclass : Tree (.optional .expression)} {body : Tree .classBody}
    (hsuper : Enclosed none place.isSited superclass.marks (superclass.actions o place))
    (hbody : Enclosed none place.isSited body.marks (body.actions o place)) :
    Rooted place.isSited (classNode form m name superclass body).marks
      ((classNode form m name superclass body).actions o place) :=
  .scopes 0 ((((Enclosed.ite (enclosed_className _ _)).append hsuper.own).before
    (Enclosed.ite ((Enclosed.openScope m).after (enclosed_className _ _)))).append hbody.own)

theorem actions_updateExpression (o : Options) (place : Place) (m : Mark)
    (operator : UpdateOperator) (leading : Bool) (argument : Expr) :
    (updateExpression m operator leading argument).actions o place =
      (Expr.identifier? argument).elim (argument.actions o place)
        fun i => [.refer i (.update none) none] := by
  conv => lhs; whnf
  cases Expr.identifier? argument <;> rfl

/-- The actions of a tree are nested, those of a node with the scopes of the node closed at their
end. -/
theorem actions_fits {c : Category} (o : Options) : (place : Place) → (t : Tree c) →
    Fits c place.isSited t.marks (t.actions o place)
  | _, .nil => Enclosed.nil
  | .head, .cons head _ => (actions_fits o .head head).enclosed.left
  | .code b, .cons head tail =>
    ((enclosed_declarations (.code b) head).after (actions_fits o (.code b) head).enclosed).append
      (actions_fits o (.code b) tail).enclosed
  | .parameters owner i, .cons head tail =>
    ((enclosed_declarations (.parameters owner i) head).after
      (actions_fits o (.code false) head).enclosed.sit).append
        (actions_fits o (.parameters owner (i + 1)) tail).enclosed
  | .declarators d kind i, .cons head tail =>
    ((enclosed_declarations (.declarators d kind i) head).after
      (actions_fits o (.code false) head).enclosed.sit).append
        (actions_fits o (.declarators d kind (i + 1)) tail).enclosed
  | _, .absent => Enclosed.nil
  | place, .present part => (actions_fits o place part).enclosed
  | _, .program m body =>
    .scopes 0 ((((Enclosed.openScope m).after (Enclosed.openScope m).ite).after
      (Enclosed.openScope m).ite).after (actions_fits o (.code false) body).enclosed.own.sit)
  | place, .blockStatement b => actions_fits o place b
  | _, .breakStatement _ _ => .node .nil
  | place, .classDeclaration declared => actions_fits o place declared
  | _, .continueStatement _ _ => .node .nil
  | _, .debuggerStatement _ => .node .nil
  | _, .directiveStatement _ _ _ => .node .nil
  | place, .doWhileStatement _ body test =>
    .node ((actions_fits o place body).enclosed.append (actions_fits o place test).enclosed)
  | _, .emptyStatement _ => .node .nil
  | _, .exportAllDeclaration _ _ _ => .node .nil
  | place, .exportDefaultDeclaration _ d => .node (actions_fits o place d).enclosed
  | _, .exportNamedDeclaration _ _ _ (some _) => .node .nil
  | place, .exportNamedDeclaration _ (.present declared) _ none =>
    .node (actions_fits o place declared).enclosed.left.left
  | place, .exportNamedDeclaration _ .absent specifiers none =>
    .node (actions_fits o place specifiers).enclosed.right.left
  | place, .expressionStatement _ e _ => .node (actions_fits o place e).enclosed
  | place, .iterationStatement _ _ (.targetDeclaration (.declaration dm kind declarators)) right
      body _ =>
    rooted_declaring_loop (actions_fits o .head declarators)
      (actions_fits o (.declarators ⟨.declaration, dm⟩ kind 0) declarators)
      (actions_fits o place right) (actions_fits o place body).enclosed
  | place, .iterationStatement _ _ (.targetPattern (.memberPattern a)) right body _ =>
    .node (((actions_fits o place a).enclosed.append (actions_fits o place right).enclosed).append
      (actions_fits o place body).enclosed)
  | place, .iterationStatement _ _ (.targetPattern (.arrayPattern _ _)) right body _
  | place, .iterationStatement _ _ (.targetPattern (.assignmentPattern _ _ _)) right body _
  | place, .iterationStatement _ _ (.targetPattern (.identifierPattern _)) right body _
  | place, .iterationStatement _ _ (.targetPattern (.objectPattern _ _)) right body _
  | place, .iterationStatement _ _ (.targetPattern (.restPattern _)) right body _ =>
    rooted_assigning_loop nofun (actions_fits o place _).enclosed
      (actions_fits o place right).enclosed (actions_fits o place body).enclosed
  | place, .forStatement _ init test update body =>
    rooted_forStatement (actions_fits o place init) (actions_fits o place test)
      (actions_fits o place update) (actions_fits o place body).enclosed
  | place, .functionDeclaration declared => actions_fits o place declared
  | place, .ifStatement _ test consequent alternate =>
    .node (((actions_fits o place test).enclosed.append
      (actions_fits o place consequent).enclosed).append (actions_fits o place alternate).enclosed)
  | _, .importDeclaration m specifiers _ => .node (by
      change Enclosed _ _ _ (if o.isEs6 && o.isModule then _ else _)
      split
      · exact enclosed_declareHere _
      · exact .plain rfl)
  | place, .labeledStatement _ _ body => .node (actions_fits o place body).enclosed.right
  | place, .returnStatement _ argument => .node (actions_fits o place argument).enclosed
  | place, .switchStatement m discriminant cases =>
    .scopes 0 (((actions_fits o place discriminant).enclosed.own.before
      (Enclosed.openScope m).ite).append (actions_fits o place cases).enclosed.own)
  | place, .throwStatement _ argument => .node (actions_fits o place argument).enclosed
  | place, .tryStatement _ b handler finalizer =>
    .node (((actions_fits o place b).enclosed.append (actions_fits o place handler).enclosed).append
      (actions_fits o place finalizer).enclosed)
  | place, .variableDeclaration d => actions_fits o place d
  | place, .whileStatement _ test body =>
    .node ((actions_fits o place test).enclosed.append (actions_fits o place body).enclosed)
  | place, .withStatement m object body =>
    .scopes 0 (((actions_fits o place object).enclosed.own.before
      (Enclosed.openScope m)).append (actions_fits o place body).enclosed.own)
  | place, .block m body =>
    .scopes 0 ((Enclosed.openScope m).ite.after (actions_fits o place body).enclosed.own)
  | _, .declaration m kind declarators =>
    .node (.site (actions_fits o (.declarators ⟨.declaration, m⟩ kind 0) declarators).enclosed)
  | .head, .declarator _ target _ => .node (actions_fits o (.code false) target).enclosed.left
  | .code b, .declarator _ target init =>
    .node ((actions_fits o (.code b) target).enclosed.append
      (actions_fits o (.code b) init).enclosed)
  | .parameters owner i, .declarator _ target init =>
    .node ((actions_fits o (.parameters owner i) target).enclosed.append
      (actions_fits o (.parameters owner i) init).enclosed)
  | .declarators d kind i, .declarator _ target init =>
    .node ((actions_fits o (.declarators d kind i) target).enclosed.append
      (actions_fits o (.declarators d kind i) init).enclosed)
  | place, .switchCase _ test consequent =>
    .node ((actions_fits o place test).enclosed.append (actions_fits o place consequent).enclosed)
  | place, .catchClause m .absent body =>
    .scopes 0 ((Enclosed.openScope m).after (actions_fits o place body).enclosed.own)
  | place, .catchClause m (.present p) body =>
    .scopes 0 ((((Enclosed.openScope m).before
      (.site (enclosed_bindTargets (fun _ => .catchClause) ⟨.catchClause, m⟩ p))).after
        (actions_fits o place p).enclosed.own).append (actions_fits o place body).enclosed.own)
  | place, .initDeclaration d => actions_fits o place d
  | place, .initExpression e => actions_fits o place e
  | _, .targetDeclaration _ => Enclosed.nil
  | _, .targetPattern _ => Enclosed.nil
  | _, .importDefaultSpecifier _ _ => .node .nil
  | _, .importNamespaceSpecifier _ _ => .node .nil
  | _, .importNamedSpecifier _ _ _ => .node .nil
  | place, .exportSpecifier _ binding _ => .node (actions_fits o place binding).enclosed.left
  | place, .defaultFunction declared => actions_fits o place declared
  | place, .defaultClass declared => actions_fits o place declared
  | place, .defaultExpression e => actions_fits o place e
  | _, .function form m _ params body _ _ _ =>
    rooted_function (actions_fits o (.parameters ⟨.function form, m⟩ 0) params)
      (actions_fits o (.code false) body).enclosed
  | place, .blockBody (.block _ body) => .node (actions_fits o place body)
  | place, .expressionBody e => actions_fits o place e
  | place, .classNode _ _ _ superclass body =>
    rooted_class (actions_fits o place superclass) (actions_fits o place body).enclosed
  | place, .classBody _ members => .node (actions_fits o place members)
  | place, .method _ key value _ _ _ =>
    .node ((actions_fits o place key).enclosed.ite.append
      (actions_fits o (.code true) value).enclosed.sit)
  | place, .arrayExpression _ elements => .node (actions_fits o place elements)
  | place, .arrowFunction fn => actions_fits o place fn
  | place, .assignmentExpression _ _ (.memberPattern a) right =>
    .node ((actions_fits o place a).enclosed.append (actions_fits o place right).enclosed)
  | place, .assignmentExpression _ _ (.arrayPattern _ _) right
  | place, .assignmentExpression _ _ (.assignmentPattern _ _ _) right
  | place, .assignmentExpression _ _ (.identifierPattern _) right
  | place, .assignmentExpression _ _ (.objectPattern _ _) right
  | place, .assignmentExpression _ _ (.restPattern _) right =>
    rooted_assignment nofun (actions_fits o place _).enclosed (actions_fits o place right).enclosed
  | place, .awaitExpression _ argument => .node (actions_fits o place argument).enclosed
  | place, .binaryExpression _ _ _ left right =>
    .node ((actions_fits o place left).enclosed.append (actions_fits o place right).enclosed)
  | place, .callExpression _ callee arguments _ =>
    .node (((Enclosed.plain rfl).ite.after
      (actions_fits o place callee).enclosed).append (actions_fits o place arguments).enclosed)
  | place, .chainExpression _ e => .node (actions_fits o place e).enclosed
  | place, .classExpression value => actions_fits o place value
  | place, .conditionalExpression _ test consequent alternate =>
    .node (((actions_fits o place test).enclosed.append
      (actions_fits o place consequent).enclosed).append (actions_fits o place alternate).enclosed)
  | place, .functionExpression fn => actions_fits o place fn
  | _, .identifier _ => .node (.plain rfl)
  | place, .importExpression _ source => .node (actions_fits o place source).enclosed
  | _, .literal _ => .node .nil
  | place, .memberExpression a => actions_fits o place a
  | _, .metaProperty _ _ _ => .node .nil
  | place, .newExpression _ callee arguments _ =>
    .node ((actions_fits o place callee).enclosed.append (actions_fits o place arguments).enclosed)
  | place, .objectExpression _ members => .node (actions_fits o place members)
  | place, .sequenceExpression _ expressions => .node (actions_fits o place expressions)
  | place, .spreadExpression s => actions_fits o place s
  | _, .superExpression _ => .node .nil
  | place, .taggedTemplate _ tag quasi =>
    .node ((actions_fits o place tag).enclosed.append (actions_fits o place quasi).enclosed)
  | place, .templateExpression t => actions_fits o place t
  | _, .thisExpression _ => .node (.plain rfl)
  | place, .unaryExpression _ _ _ argument => .node (actions_fits o place argument).enclosed
  | place, .updateExpression _ _ _ argument => .node (by
      have h := (actions_fits o place argument).enclosed
      rw [actions_updateExpression]
      cases Expr.identifier? argument with
      | none => exact h
      | some i => exact .plain rfl)
  | place, .yieldExpression _ argument _ => .node (actions_fits o place argument)
  | place, .access _ object prop _ _ =>
    .node ((actions_fits o place object).enclosed.append
      (actions_fits o place prop).enclosed.ite)
  | place, .spread _ argument => .node (actions_fits o place argument).enclosed
  | place, .template _ _ expressions => .node (Enclosed.right (actions_fits o place expressions))
  | place, .property _ key value _ true _ _ =>
    .node ((actions_fits o place key).enclosed.ite.append
      (actions_fits o (.code true) value).enclosed.sit)
  | place, .property _ key value _ false _ _ =>
    .node ((actions_fits o place key).enclosed.ite.append (actions_fits o place value).enclosed)
  | place, .spreadMember s => actions_fits o place s
  | place, .arrayPattern _ elements => .node (actions_fits o place elements)
  | place, .assignmentPattern _ left right =>
    .node ((actions_fits o place left).enclosed.append (actions_fits o place right).enclosed)
  | _, .identifierPattern _ => .node .nil
  | place, .memberPattern (.access _ object prop _ _) =>
    .node (((actions_fits o place prop).enclosed.ite.append
      (actions_fits o place object).enclosed).mono (by simp [Nat.add_comm]))
  | place, .objectPattern _ members => .node (actions_fits o place members)
  | place, .restPattern r => actions_fits o place r
  | place, .rest _ argument => .node (actions_fits o place argument).enclosed
  | place, .patternProperty _ key value _ _ =>
    .node ((actions_fits o place key).enclosed.ite.append (actions_fits o place value).enclosed)
  | place, .restMember r => actions_fits o place r

/-- The actions of a tree are nested, and the nodes whose scopes they open are among its nodes. -/
theorem actions_nested {c : Category} (o : Options) (place : Place) (t : Tree c) :
    Enclosed none place.isSited t.marks (t.actions o place) :=
  (actions_fits o place t).enclosed

end Tree

/-- The actions of a program open its global scope, follow with actions that may open further scopes
of the program, and close them all. -/
theorem Program.actions_eq (o : Options) : (p : Program) → ∃ strict M A,
    Program.actions o p = [Action.openScope .global ⟨.program, Program.mark p⟩ strict] ++ A ++
      [Action.closeScopes (Program.mark p).id] ∧
    p.marks = Program.mark p :: M ∧ Action.Enclosed (some (Program.mark p).id) false M A
  | .program m body => by
    let strict := hasUseStrict o.directive body.toList ||
      (!(o.isEs6 && o.isModule) && o.impliesStrict)
    refine ⟨!o.nodejsScope && strict, body.marks,
      (if o.nodejsScope then [Action.openScope .function ⟨.program, m⟩ strict] else []) ++
        (if o.isEs6 && o.isModule then [Action.openScope .module ⟨.program, m⟩ true] else []) ++
        body.actions o (.code false), ?_, rfl, ?_⟩
    · rw [← List.append_assoc, ← List.append_assoc]
      rfl
    · exact ((Action.Enclosed.openScope m).ite.after (Action.Enclosed.openScope m).ite).after
        (Tree.actions_nested o (.code false) body).own

end EcmaScope
