import EcmaScope.Proofs.Initializers
import EcmaScope.Proofs.Regions

/-!
# The walk initializes what it has declared

The actions of every part of a program write initial values after the declarations that the values
belong to. Most constructs take no part in this. What remains are loops over values, whose items are
written after the head of the loop has been walked, and classes, which may declare their name twice.

## Main definitions

* `Surveyed`: what is known of the actions of a tree, and of the expressions in it.

## Main results

* `Primes.lexicalLoop`, `Primes.declaringLoop`: loops over values that declare variables.
* `Tree.surveyed`: the actions of trees write initial values after declarations.
* `Program.primes`: the same for programs.
-/

namespace EcmaScope

open EcmaScope.Action

/-! ## Loops over values -/

namespace Action

variable {reach : Reach} {M : List Mark} {A B E : List Action}

/-- After a declaration, its names are given the items of a value. -/
theorem Founds.items (hA : Founds (some reach) A)
    (hB : ∀ a ∈ B, ∃ i, Gives i a ∧ Declares reach i A) : Founds none (site reach A ++ B) := by
  intro P i use creator C hsplit hinit
  rcases append_eq_append_cons hsplit with ⟨D, hD⟩ | ⟨D, rfl, rfl⟩
  · exact hA.closed hD hinit
  · obtain ⟨j, ⟨_, _, heq, -⟩, hdeclares⟩ := hB _ (List.mem_append_right D List.mem_cons_self)
    cases heq
    refine .inl (.after [] hdeclares fun a ha => ?_)
    obtain ⟨_, hgives, -⟩ := hB a (List.mem_append_left _ ha)
    exact hgives.isPlain

/-- The names of a scope are given the items of a value after code that leaves the scope open. -/
theorem Founds.round {kind : ScopeKind} {block : Anchor} {strict : Bool}
    (hA : Founds (some .innermost) A) (hA' : ∀ a ∈ A, a.isPlain = true ∨ ∃ d, a = .declare d)
    (hE : Founds none E) (hE' : Enclosed none false M E) (hclose : .closeScopes block.id ∉ E)
    (hB : ∀ a ∈ B, ∃ i, Gives i a ∧ Declares .innermost i A) :
    Founds none (scope kind block strict A ++ E ++ B) := by
  have hopen : Founds none [Action.openScope kind block strict] := .single rfl
  intro P i use creator C hsplit hinit
  rcases append_eq_append_cons hsplit with ⟨D, hD⟩ | ⟨D, rfl, rfl⟩
  · exact (hopen.append_none hA.closed).append_none hE hD hinit
  · obtain ⟨j, ⟨_, _, heq, -⟩, hdeclares⟩ := hB _ (List.mem_append_right D List.mem_cons_self)
    cases heq
    have hplain : ∀ a ∈ D, a.isPlain = true := fun a ha => by
      obtain ⟨_, hgives, -⟩ := hB a (List.mem_append_left _ ha)
      exact hgives.isPlain
    rw [List.append_assoc]
    refine .inl (.within [] hdeclares hA' (hE'.append (.of_plain (M := []) hplain)) fun hmem => ?_)
    rcases List.mem_append.mp hmem with hmem | hmem
    · exact hclose hmem
    · cases hplain _ hmem

end Action

namespace Primes

variable {o : Options} {m : Mark} {method : Bool} {M N : List Mark} {A B : List Action}

/-- The names of a declaration are given the items of a value after the declaration. -/
theorem items {reach : Reach} (hA : Primes (some reach) M A)
    (hB : ∀ a ∈ B, ∃ i, Gives i a ∧ Declares reach i A) :
    Primes none M (Action.site reach A ++ B) where
  distinguishes hM := (hA.distinguishes hM).of_subset fun e he => by
    have hB' : B.filterMap capacity? = [] := List.filterMap_eq_nil_iff.mpr fun a ha => by
      obtain ⟨_, hgives, -⟩ := hB a ha
      exact hgives.capacity?
    rwa [List.filterMap_append, filterMap_site, hB', List.append_nil] at he
  founds hM := (hA.founds hM).items hB
  enclosed := nofun

/-- Actions that declare and assign no more than others. -/
theorem of_subset (hA : Primes none M A) (hB : (M.map (·.id)).Nodup → Founds none B)
    (hBA : B.filterMap capacity? ⊆ A.filterMap capacity?) : Primes none M B where
  distinguishes hM := (hA.distinguishes hM).of_subset hBA
  founds := hB
  enclosed := nofun

/-- The head of a loop whose rounds have their own variables: the names are reserved, the value is
computed, and then the names are bound and receive the items. -/
theorem lexicalHead (value block declaration : Anchor) {kind : VariableKind}
    (hkind : kind.isLexical = true) (hB : Primes none N B) (fm : Mark) {target : Pat}
    (init : Tree (.optional .expression)) (rest : Tree (.list .declarator))
    (he : ∀ e ∈ target.evaluated, Primed o e) :
    Primes none (block.mark :: (target.marks ++ N))
      (scope .tdz value false
            (Action.bindDeclarator (.tdz declaration 0 kind) true
              (.declarator fm target init)) ++
          B ++ [Action.closeScopes value.id] ++
        (scope .loop block false
            (Action.bindDeclarator (.declared declaration 0 kind) false
              (.declarator fm target init)) ++
          target.actions o (.code false) ++
          bindItems value (.cons (.declarator fm target init) rest))) := by
  have hT := (bindDeclarator (.tdz declaration 0 kind) rfl true fm target init).ofTargets
  have hL := bindDeclarator (.declared declaration 0 kind) rfl false fm target init
  have hreach : (DefinitionKind.declared declaration 0 kind).reach = .innermost := by
    rw [DefinitionKind.reach_declared, if_pos hkind]
  rw [hreach] at hL
  have hE := pattern (o := o) (nil (M := (Pat.targets target).map (·.identifier.mark))) he false
  refine of_subset ((pattern hL.closed he false).append hB).cons (fun hnodup => ?_) fun e hmem => ?_
  · obtain ⟨hblock, hnodup⟩ := List.nodup_cons.mp hnodup
    rw [List.map_append] at hblock hnodup
    obtain ⟨htarget, hN, -⟩ := List.nodup_append'.mp hnodup
    have hopen : Founds none [Action.openScope .tdz value false] := .single rfl
    have hclose : Founds none [Action.closeScopes value.id] := .single rfl
    refine (((hopen.append_none (hT.founds htarget).closed).append_none (hB.founds hN)).append_none
      hclose).append_none ?_
    refine (hL.ofTargets.founds htarget).round
      (fun _ => isPlain_or_declare_of_mem_bindDeclarator) (hE.founds htarget)
      (target.actions_nested o (.code false)) (fun hmem => ?_) fun a ha => ?_
    · exact hblock (List.mem_append_left _
        ((target.actions_nested o (.code false)).mem_of_closeScopes hmem))
    · obtain ⟨t, ht, hgives⟩ := gives_bindItems ha
      exact ⟨_, hgives, hreach ▸ declares_bindDeclarator _ rfl false fm init ht⟩
  · have hsame : (Action.bindDeclarator (.tdz declaration 0 kind) true
        (.declarator fm target init)).filterMap capacity? =
        (Action.bindDeclarator (.declared declaration 0 kind) false
          (.declarator fm target init)).filterMap capacity? := by
      rw [filterMap_bindDeclarator, filterMap_bindDeclarator]
      simp [DefinitionKind.isVar, hkind]
    have hitems : (bindItems value (.cons (.declarator fm target init) rest)).filterMap
        capacity? = [] := List.filterMap_eq_nil_iff.mpr fun a ha => by
      obtain ⟨_, -, hgives⟩ := gives_bindItems ha
      exact hgives.capacity?
    simp only [List.filterMap_append, List.filterMap_cons, List.filterMap_nil, capacity?, hsame,
      hitems, List.append_nil, List.nil_append, List.mem_append] at hmem ⊢
    tauto

/-- A loop over a value whose rounds have their own variables. -/
theorem lexicalLoop {form : IterationForm} {dm : Mark} {kind : VariableKind}
    {ds : Tree (.list .declarator)} {right : Expr} {body : Stmt} {await : Bool}
    (hkind : (kind.isLexical && o.isEs6) = true) (hds : ∀ e ∈ ds.computed, Primed o e)
    (hright : Primed o right) (hbody : Primed o body) :
    Primes none (Tree.iterationStatement form m (.targetDeclaration (.declaration dm kind ds)) right
        body await).marks
      ((Tree.iterationStatement form m (.targetDeclaration (.declaration dm kind ds)) right body
        await).actions o (.code method)) := by
  change Primes none (m :: (dm :: ds.marks ++ right.marks ++ body.marks))
    (if (kind.isLexical && o.isEs6) = true then _ else _)
  rw [if_pos hkind]
  refine before ?_ (by simp [isIdle])
  rw [← List.cons_append]
  refine append ?_ (hbody method)
  cases ds with
  | nil =>
    have hhead : Tree.actions o .head (.nil : Tree (.list .declarator)) = [] := rfl
    simp only [bindFirst, bindItems, hhead, List.append_nil]
    exact ((((hright method).after (A := [Action.openScope .tdz (Expr.anchor right) false])
      (by simp [isIdle])).before (by simp [isIdle])).right (M := dm :: [])).cons
  | cons first rest =>
    cases first with
    | declarator fm target init =>
      have hhead := lexicalHead (Expr.anchor right) ⟨.iteration form, m⟩ ⟨.declaration, dm⟩
        (Bool.and_eq_true_iff.mp hkind).1 (hright method) fm init rest
        fun e he => hds e (mem_computed_first he)
      have hmarks := hhead.mono (N := m :: (dm :: ((fm :: (target.marks ++ init.marks)) ++
          rest.marks) ++ right.marks)) fun n => by
        simp only [List.map_append, List.map_cons, List.count_append, List.count_cons,
          List.cons_append]
        omega
      change Primes none (m :: (dm :: ((fm :: (target.marks ++ init.marks)) ++ rest.marks) ++
        right.marks)) ([Action.openScope .tdz (Expr.anchor right) false] ++
        Action.site .innermost (Action.bindDeclarator _ true (.declarator fm target init)) ++
        right.actions o (.code method) ++
        [Action.closeScopes _, Action.openScope .loop _ false] ++
        Action.site .innermost (Action.bindDeclarator _ false (.declarator fm target init)) ++
        target.actions o (.code false) ++ _)
      simp only [List.append_assoc, List.cons_append, List.nil_append] at hmarks ⊢
      exact hmarks

/-- A loop over a value that declares variables around the loop. -/
theorem declaringLoop {form : IterationForm} {dm : Mark} {kind : VariableKind}
    {ds : Tree (.list .declarator)} {right : Expr} {body : Stmt} {await : Bool}
    (hkind : (kind.isLexical && o.isEs6) = false) (hds : ∀ e ∈ ds.computed, Primed o e)
    (hright : Primed o right) (hbody : Primed o body) :
    Primes none (Tree.iterationStatement form m (.targetDeclaration (.declaration dm kind ds)) right
        body await).marks
      ((Tree.iterationStatement form m (.targetDeclaration (.declaration dm kind ds)) right body
        await).actions o (.code method)) := by
  have hleft : Primes none (dm :: ds.marks)
      (Action.site (if kind.isLexical then .innermost else .variableScope)
        (ds.actions o (.declarators ⟨.declaration, dm⟩ kind 0)) ++
        bindItems (Expr.anchor right) ds) := by
    refine (items (declarators ⟨.declaration, dm⟩ kind ds 0 hds) fun a ha => ?_).cons
    cases ds with
    | nil => cases ha
    | cons first rest =>
      cases first with
      | declarator fm target init =>
        obtain ⟨t, ht, hgives⟩ := gives_bindItems ha
        refine ⟨_, hgives, ?_⟩
        have hdeclares := declares_bindDeclarator (.declared ⟨.declaration, dm⟩ 0 kind) rfl false fm
          init ht
        rw [DefinitionKind.reach_declared] at hdeclares
        exact (hdeclares.append_right
          ((Tree.declarator fm target init).actions_enclosed o false)).append_right
          (rest.actions_nested o (.declarators ⟨.declaration, dm⟩ kind 1))
  change Primes none (m :: (dm :: ds.marks ++ right.marks ++ body.marks))
    (if (kind.isLexical && o.isEs6) = true then _ else _)
  rw [hkind, if_neg Bool.false_ne_true]
  exact ((hleft.append (hright method)).append (hbody method)).cons

/-- A member that is assigned to by itself is walked like one that is read. -/
theorem access {a : Tree .access} (h : ∀ e ∈ (Tree.memberPattern a).evaluated, Primed o e) :
    Primes none a.marks (a.actions o (.code method)) := by
  cases a with
  | access am object prop computed isOptional =>
    have hobject := h object (List.mem_append_right _ (List.mem_singleton_self _))
    refine ((hobject method).append (N := prop.marks) ?_).cons
    cases computed with
    | false => exact nil
    | true => exact h prop List.mem_cons_self method

/-- A loop over a value whose items are assigned to a pattern. -/
private theorem assigningLoop {form : IterationForm} {p : Pat} {right : Expr} {body : Stmt}
    {await : Bool} (hpattern : ∀ e ∈ p.evaluated, Primed o e) (hright : Primed o right)
    (hbody : Primed o body) :
    Primes none (Tree.iterationStatement form m (.targetPattern p) right body await).marks
      ((Tree.iterationStatement form m (.targetPattern p) right body await).actions o
        (.code method)) := by
  have htarget := pattern (assignTargets ⟨.iteration form, m⟩ (Expr.anchor right) (fun _ => true) p)
    hpattern method
  have hall := ((htarget.append (hright method)).append (hbody method)).cons (m := m)
  cases p with
  | memberPattern a =>
    exact (((access hpattern).append (hright method)).append (hbody method)).cons
  | _ => exact hall

/-! ## Other constructs -/

/-- A construct that closes the scopes that it has opened. -/
theorem close (h : Primes none M A) : Primes none (m :: M) (A ++ [Action.closeScopes m.id]) :=
  (h.before (by simp [isIdle])).cons

private theorem opened (kind : ScopeKind) (block : Anchor) (strict : Bool) :
    Primes none [] [.openScope kind block strict] :=
  single rfl

/-- A scope is opened under a condition. -/
theorem openIf (p : Prop) [Decidable p] (kind : ScopeKind) (block : Anchor) (strict : Bool) :
    Primes none [] (if p then [.openScope kind block strict] else []) :=
  (opened kind block strict).ite

/-- A scope is opened after a first part. -/
private theorem thenOpen (hA : Primes none M A) (hB : Primes none [] B) :
    Primes none M (A ++ B) := by
  have h := hA.append hB
  rwa [List.append_nil] at h

/-- A loop with a counter. -/
private theorem forStatement {init : Tree (.optional .forInit)}
    {test update : Tree (.optional .expression)} {body : Stmt} (hinit : Primed o init)
    (htest : Primed o test) (hupdate : Primed o update) (hbody : Primed o body) :
    Primes none (Tree.forStatement m init test update body).marks
      ((Tree.forStatement m init test update body).actions o (.code method)) := by
  refine close ((((append (M := []) ?_ (hinit method)).append (htest method)).append
    (hupdate method)).append (hbody method))
  cases init with
  | absent => exact nil
  | present i =>
    cases i with
    | initExpression e => exact nil
    | initDeclaration d =>
      cases d with
      | declaration dm kind declarators => exact openIf _ .loop ⟨.forStatement, m⟩ false

/-- A clause that catches what is thrown. -/
private theorem catchClause {param : Tree (.optional .pattern)} {body : Tree .block}
    (hparam : ∀ e ∈ param.evaluated, Primed o e) (hbody : Primed o body) :
    Primes none (Tree.catchClause m param body).marks
      ((Tree.catchClause m param body).actions o (.code method)) := by
  refine close (append ?_ (hbody method))
  have hopen := opened .catchClause ⟨.catchClause, m⟩ false
  cases param with
  | absent => exact (hopen.append (nil (M := []))).append (nil (M := []))
  | present p =>
    have hbind := bindTargets (fun _ => .catchClause) (fun _ => ⟨rfl, rfl⟩) ⟨.catchClause, m⟩ p
    exact pattern (hopen.append hbind.closed) hparam method

/-- A function. -/
private theorem function {form : FunctionForm} {name : Option Identifier}
    {params : Tree (.list .pattern)} {body : Tree .functionBody} {generator async expression : Bool}
    (hparams : ∀ e ∈ params.evaluated, Primed o e) (hbody : Primed o body) :
    Primes none (Tree.function form m name params body generator async expression).marks
      ((Tree.function form m name params body generator async expression).actions o
        (.code method)) := by
  let strict := form = .arrow || method || FunctionBody.hasUseStrict o.directive body
  have hsite := (parameters ⟨.function form, m⟩ params 0 hparams).closed
  have hscope := hsite.after (A := [.openScope .function ⟨.function form, m⟩ strict])
    (by simp [isIdle])
  have hall := close (m := m) (((functionName form ⟨.function form, m⟩ name).append hscope).append
    (hbody false))
  change Primes none (m :: ((name.map (·.mark)).toList ++ params.marks ++ body.marks))
    (_ ++ [Action.openScope .function ⟨.function form, m⟩ strict, Action.beginSite .innermost] ++
      _ ++ _ ++ _ ++ _)
  simp only [List.append_assoc, List.cons_append, List.nil_append] at hall ⊢
  exact hall

/-- A class, which may declare its name around it and within it. -/
private theorem classNode {form : ClassForm} {name : Option Identifier}
    {superclass : Tree (.optional .expression)} {body : Tree .classBody}
    (hsuper : Primed o superclass) (hbody : Primed o body) :
    Primes none (Tree.classNode form m name superclass body).marks
      ((Tree.classNode form m name superclass body).actions o (.code method)) := by
  have hname := className ⟨.classNode form, m⟩ name
  have houter := hname.ite (p := form = .declaration)
  have hinner := (hname.after (A := [.openScope .classBody ⟨.classNode form, m⟩ true])
    (by simp [isIdle])).ite (p := o.isEs6 = true)
  refine close (((hname.append (hsuper method)).append (hbody method)).of_subset
    (fun hnodup => ?_) fun e hmem => ?_)
  · obtain ⟨hrest, hbodys, -⟩ := List.nodup_append'.mp (List.map_append ▸ hnodup)
    obtain ⟨hnames, hsupers, -⟩ := List.nodup_append'.mp (List.map_append ▸ hrest)
    exact (((houter.founds hnames).append_none ((hsuper method).founds hsupers)).append_none
      (hinner.founds hnames)).append_none ((hbody method).founds hbodys)
  · simp only [List.filterMap_append, List.mem_append] at hmem ⊢
    rcases hmem with ((h | h) | h) | h
    · split at h
      · exact .inl (.inl h)
      · cases h
    · exact .inl (.inr h)
    · split at h
      · exact .inl (.inl h)
      · cases h
    · exact .inr h

private theorem importDeclaration {specifiers : Tree (.list .importSpecifier)} {source : Literal} :
    Primes none (Tree.importDeclaration m specifiers source).marks
      ((Tree.importDeclaration m specifiers source).actions o (.code method)) := by
  have hdeclare := (declareHere (Tree.importDefinitions ⟨.importDeclaration, m⟩ specifiers)).sublist
    (sublist_importDefinitions _ specifiers)
  change Primes none (m :: (specifiers.marks ++ [source.mark])) (if _ then _ else _)
  split
  · exact hdeclare.left.cons
  · exact single rfl

private theorem callExpression {callee : Expr} {arguments : Tree (.list .expression)}
    {isOptional : Bool} (hcallee : Primed o callee) (harguments : Primed o arguments) :
    Primes none (Tree.callExpression m callee arguments isOptional).marks
      ((Tree.callExpression m callee arguments isOptional).actions o (.code method)) :=
  (((ite (single (M := []) rfl)).append (hcallee method)).append
    (harguments method)).cons

private theorem updateExpression {operator : UpdateOperator} {leading : Bool} {argument : Expr}
    (hargument : Primed o argument) :
    Primes none (Tree.updateExpression m operator leading argument).marks
      ((Tree.updateExpression m operator leading argument).actions o (.code method)) := by
  refine cons (M := argument.marks) ?_
  rw [Tree.actions_updateExpression]
  cases hi : Expr.identifier? argument with
  | some i =>
    cases Expr.eq_identifier hi
    exact assigned fun a ha => ⟨_, _, List.mem_singleton.mp ha, rfl, rfl⟩
  | none => exact hargument method

private theorem assignmentExpression {operator : AssignmentOperator} {left : Pat} {right : Expr}
    (hleft : ∀ e ∈ left.evaluated, Primed o e) (hright : Primed o right) :
    Primes none (Tree.assignmentExpression m operator left right).marks
      ((Tree.assignmentExpression m operator left right).actions o (.code method)) := by
  have htarget : Primes none left.marks
      (if operator = .assign then
        Action.assignTargets ⟨.assignment, m⟩ (Expr.anchor right) (fun t => !t.isWhole) left ++
          left.actions o (.code method)
      else
        (Pat.identifier? left).elim []
          fun i => [.refer i (.update (some (Expr.anchor right))) none]) := by
    split
    · exact pattern (assignTargets _ _ _ left) hleft method
    · cases left with
      | identifierPattern i =>
        exact assigned fun a ha => ⟨_, _, List.mem_singleton.mp ha, rfl, rfl⟩
      | _ => exact nil
  have hall := (htarget.append (hright method)).cons (m := m)
  cases left with
  | memberPattern a => exact ((access hleft).append (hright method)).cons
  | _ => exact hall

end Primes

/-! ## All trees -/

/-- What is known of the actions of a tree, and of the expressions that it evaluates if it is a
pattern or a declaration. -/
structure Surveyed (o : Options) {c : Category} (t : Tree c) : Prop where
  primed : c.isWalked = true → Primed o t
  evaluated : ∀ e ∈ t.evaluated, Primed o e
  computed : ∀ e ∈ t.computed, Primed o e

namespace Surveyed

variable {o : Options} {c : Category} {t : Tree c}

private theorem of (h : Primed o t) (he : t.evaluated = [] := by rfl)
    (hc : t.computed = [] := by rfl) :
    Surveyed o t where
  primed _ := h
  evaluated := by
    rw [he]
    exact fun e h => absurd h List.not_mem_nil
  computed := by
    rw [hc]
    exact fun e h => absurd h List.not_mem_nil

private theorem primes (h : Surveyed o t) (method : Bool) (hc : c.isWalked = true := by rfl) :
    Primes none t.marks (t.actions o (.code method)) :=
  h.primed hc method

end Surveyed

namespace Tree

/-- The actions of a tree write initial values after the declarations that they belong to, and so do
those of the expressions that it evaluates. -/
theorem surveyed {c : Category} (o : Options) : (t : Tree c) → Surveyed o t
  | .nil => .of fun _ => .nil
  | .cons head tail =>
    { primed := fun hc b => ((surveyed o head).primes b hc).append ((surveyed o tail).primes b hc)
      evaluated := fun e he => (List.mem_append.mp he).elim ((surveyed o head).evaluated e)
        ((surveyed o tail).evaluated e)
      computed := fun e he => (List.mem_append.mp he).elim ((surveyed o head).computed e)
        ((surveyed o tail).computed e) }
  | .absent => .of fun _ => .nil
  | .present part =>
    { primed := fun hc b => (surveyed o part).primes b hc
      evaluated := (surveyed o part).evaluated
      computed := nofun }
  | .program _ _ => { primed := nofun, evaluated := nofun, computed := nofun }
  | .blockStatement b => .of ((surveyed o b).primed rfl)
  | .breakStatement _ _ | .continueStatement _ _ => .of fun _ => .nil
  | .classDeclaration declared => .of ((surveyed o declared).primed rfl)
  | .debuggerStatement _ | .directiveStatement _ _ _ | .emptyStatement _ => .of fun _ => .nil
  | .doWhileStatement _ body test =>
    .of fun b => (((surveyed o body).primes b).append ((surveyed o test).primes b)).cons
  | .exportAllDeclaration _ _ _ => .of fun _ => .nil
  | .exportDefaultDeclaration _ d => .of fun b => ((surveyed o d).primes b).cons
  | .exportNamedDeclaration _ _ _ (some _) => .of fun _ => .nil
  | .exportNamedDeclaration _ (.present declared) _ none =>
    .of fun b => (((surveyed o declared).primes b).left.left).cons
  | .exportNamedDeclaration _ .absent specifiers none =>
    .of fun b => (((surveyed o specifiers).primes b).left).cons
  | .expressionStatement _ e _ => .of fun b => ((surveyed o e).primes b).cons
  | .iterationStatement _ _ (.targetDeclaration (.declaration _ kind declarators)) right body _ =>
    .of fun _ => by
      cases hkind : kind.isLexical && o.isEs6 with
      | true =>
        exact .lexicalLoop hkind (surveyed o declarators).computed ((surveyed o right).primed rfl)
          ((surveyed o body).primed rfl)
      | false =>
        exact .declaringLoop hkind (surveyed o declarators).computed
          ((surveyed o right).primed rfl) ((surveyed o body).primed rfl)
  | .iterationStatement _ _ (.targetPattern p) right body _ =>
    .of fun _ => .assigningLoop (surveyed o p).evaluated ((surveyed o right).primed rfl)
      ((surveyed o body).primed rfl)
  | .forStatement _ init test update body =>
    .of fun _ => .forStatement ((surveyed o init).primed rfl) ((surveyed o test).primed rfl)
      ((surveyed o update).primed rfl) ((surveyed o body).primed rfl)
  | .functionDeclaration declared => .of ((surveyed o declared).primed rfl)
  | .ifStatement _ test consequent alternate =>
    .of fun b => ((((surveyed o test).primes b).append ((surveyed o consequent).primes b)).append
      ((surveyed o alternate).primes b)).cons
  | .importDeclaration _ _ _ => .of fun _ => .importDeclaration
  | .labeledStatement _ _ body => .of fun b => ((surveyed o body).primes b).cons.cons
  | .returnStatement _ argument => .of fun b => ((surveyed o argument).primes b).cons
  | .switchStatement m discriminant cases =>
    .of fun b => .close ((((surveyed o discriminant).primes b).thenOpen
      (Primes.openIf _ .switchStatement ⟨.switchStatement, m⟩ false)).append
        ((surveyed o cases).primes b))
  | .throwStatement _ argument => .of fun b => ((surveyed o argument).primes b).cons
  | .tryStatement _ tried handler finalizer =>
    .of fun b => ((((surveyed o tried).primes b).append ((surveyed o handler).primes b)).append
      ((surveyed o finalizer).primes b)).cons
  | .variableDeclaration d => .of ((surveyed o d).primed rfl)
  | .whileStatement _ test body =>
    .of fun b => (((surveyed o test).primes b).append ((surveyed o body).primes b)).cons
  | .withStatement m object body =>
    .of fun b => .close ((((surveyed o object).primes b).thenOpen
      (.opened .withStatement ⟨.withStatement, m⟩ false)).append ((surveyed o body).primes b))
  | .block m body =>
    .of fun b => .close ((Primes.openIf _ .block ⟨.block, m⟩ false).append
      ((surveyed o body).primes b))
  | .declaration m kind declarators =>
    { primed := fun _ _ => ((Primes.declarators ⟨.declaration, m⟩ kind declarators 0
        (surveyed o declarators).computed).closed).cons
      evaluated := nofun
      computed := (surveyed o declarators).computed }
  | .declarator _ target .absent =>
    { primed := nofun
      evaluated := nofun
      computed := (surveyed o target).evaluated }
  | .declarator _ target (.present init) =>
    { primed := nofun
      evaluated := nofun
      computed := fun e he => (List.mem_append.mp he).elim ((surveyed o target).evaluated e)
        fun he => List.mem_singleton.mp he ▸ (surveyed o init).primed rfl }
  | .switchCase _ test consequent =>
    .of fun b => (((surveyed o test).primes b).append ((surveyed o consequent).primes b)).cons
  | .catchClause _ param body =>
    .of fun _ => .catchClause (surveyed o param).evaluated ((surveyed o body).primed rfl)
  | .initDeclaration d => .of ((surveyed o d).primed rfl)
  | .initExpression e => .of ((surveyed o e).primed rfl)
  | .targetDeclaration d =>
    { primed := nofun
      evaluated := nofun
      computed := (surveyed o d).computed }
  | .targetPattern _ => { primed := nofun, evaluated := nofun, computed := nofun }
  | .importDefaultSpecifier _ _ | .importNamespaceSpecifier _ _ => .of fun _ => .nil
  | .importNamedSpecifier _ _ _ => .of fun _ => .nil
  | .exportSpecifier _ binding _ => .of fun b => ((surveyed o binding).primes b).left.cons
  | .defaultFunction declared => .of ((surveyed o declared).primed rfl)
  | .defaultClass declared => .of ((surveyed o declared).primed rfl)
  | .defaultExpression e => .of ((surveyed o e).primed rfl)
  | .function _ _ _ params body _ _ _ =>
    .of fun _ => .function (surveyed o params).evaluated ((surveyed o body).primed rfl)
  | .blockBody (.block _ body) => .of fun b => ((surveyed o body).primes b).cons
  | .expressionBody e => .of ((surveyed o e).primed rfl)
  | .classNode _ _ _ superclass body =>
    .of fun _ => .classNode ((surveyed o superclass).primed rfl) ((surveyed o body).primed rfl)
  | .classBody _ members => .of fun b => ((surveyed o members).primes b).cons
  | .method _ key value _ _ _ =>
    .of fun b => (((surveyed o key).primes b).ite.append ((surveyed o value).primes true)).cons
  | .arrayExpression _ elements => .of fun b => ((surveyed o elements).primes b).cons
  | .arrowFunction fn => .of ((surveyed o fn).primed rfl)
  | .assignmentExpression _ _ left right =>
    .of fun _ => .assignmentExpression (surveyed o left).evaluated ((surveyed o right).primed rfl)
  | .awaitExpression _ argument => .of fun b => ((surveyed o argument).primes b).cons
  | .binaryExpression _ _ _ left right =>
    .of fun b => (((surveyed o left).primes b).append ((surveyed o right).primes b)).cons
  | .callExpression _ callee arguments _ =>
    .of fun _ => .callExpression ((surveyed o callee).primed rfl)
      ((surveyed o arguments).primed rfl)
  | .chainExpression _ e => .of fun b => ((surveyed o e).primes b).cons
  | .classExpression value => .of ((surveyed o value).primed rfl)
  | .conditionalExpression _ test consequent alternate =>
    .of fun b => ((((surveyed o test).primes b).append ((surveyed o consequent).primes b)).append
      ((surveyed o alternate).primes b)).cons
  | .functionExpression fn => .of ((surveyed o fn).primed rfl)
  | .identifier _ => .of fun _ => .single rfl
  | .importExpression _ source => .of fun b => ((surveyed o source).primes b).cons
  | .literal _ => .of fun _ => .nil
  | .memberExpression a => .of ((surveyed o a).primed rfl)
  | .metaProperty _ _ _ => .of fun _ => .nil
  | .newExpression _ callee arguments _ =>
    .of fun b => (((surveyed o callee).primes b).append ((surveyed o arguments).primes b)).cons
  | .objectExpression _ members => .of fun b => ((surveyed o members).primes b).cons
  | .sequenceExpression _ expressions => .of fun b => ((surveyed o expressions).primes b).cons
  | .spreadExpression s => .of ((surveyed o s).primed rfl)
  | .superExpression _ => .of fun _ => .nil
  | .taggedTemplate _ tag quasi =>
    .of fun b => (((surveyed o tag).primes b).append ((surveyed o quasi).primes b)).cons
  | .templateExpression t => .of ((surveyed o t).primed rfl)
  | .thisExpression _ => .of fun _ => .single rfl
  | .unaryExpression _ _ _ argument => .of fun b => ((surveyed o argument).primes b).cons
  | .updateExpression _ _ _ argument =>
    .of fun _ => .updateExpression ((surveyed o argument).primed rfl)
  | .yieldExpression _ argument _ => .of fun b => ((surveyed o argument).primes b).cons
  | .access _ object prop _ _ =>
    .of fun b => (((surveyed o object).primes b).append ((surveyed o prop).primes b).ite).cons
  | .spread _ argument => .of fun b => ((surveyed o argument).primes b).cons
  | .template _ _ expressions => .of fun b => ((surveyed o expressions).primes b).right.cons
  | .property _ key value _ true _ _ =>
    .of fun b => (((surveyed o key).primes b).ite.append ((surveyed o value).primes true)).cons
  | .property _ key value _ false _ _ =>
    .of fun b => (((surveyed o key).primes b).ite.append ((surveyed o value).primes b)).cons
  | .spreadMember s => .of ((surveyed o s).primed rfl)
  | .arrayPattern _ elements =>
    { primed := nofun
      evaluated := (surveyed o elements).evaluated
      computed := nofun }
  | .assignmentPattern _ left right =>
    { primed := nofun
      evaluated := fun e he => (List.mem_append.mp he).elim ((surveyed o left).evaluated e)
        fun he => List.mem_singleton.mp he ▸ (surveyed o right).primed rfl
      computed := nofun }
  | .identifierPattern _ => { primed := nofun, evaluated := nofun, computed := nofun }
  | .memberPattern (.access _ object prop computed _) =>
    { primed := nofun
      evaluated := fun e he => by
        rcases List.mem_append.mp he with he | he
        · cases computed with
          | false => cases he
          | true => exact List.mem_singleton.mp he ▸ (surveyed o prop).primed rfl
        · exact List.mem_singleton.mp he ▸ (surveyed o object).primed rfl
      computed := nofun }
  | .objectPattern _ members =>
    { primed := nofun
      evaluated := (surveyed o members).evaluated
      computed := nofun }
  | .restPattern r =>
    { primed := nofun
      evaluated := (surveyed o r).evaluated
      computed := nofun }
  | .rest _ argument =>
    { primed := nofun
      evaluated := (surveyed o argument).evaluated
      computed := nofun }
  | .patternProperty _ key value computed _ =>
    { primed := nofun
      evaluated := fun e he => by
        rcases List.mem_append.mp he with he | he
        · cases computed with
          | false => cases he
          | true => exact List.mem_singleton.mp he ▸ (surveyed o key).primed rfl
        · exact (surveyed o value).evaluated e he
      computed := nofun }
  | .restMember r =>
    { primed := nofun
      evaluated := (surveyed o r).evaluated
      computed := nofun }

end Tree

/-- A program writes initial values after the declarations that they belong to. -/
theorem Program.primes (o : Options) (p : Program) : Primes none p.marks (Program.actions o p) := by
  cases p with
  | program m body =>
    exact .close ((((Primes.opened .global ⟨.program, m⟩ _).append
      (Primes.openIf _ .function ⟨.program, m⟩ _)).append
        (Primes.openIf _ .module ⟨.program, m⟩ true)).append ((body.surveyed o).primes false))

end EcmaScope
