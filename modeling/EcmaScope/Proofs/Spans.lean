import EcmaScope.Proofs.Walks

/-!
# Where parts are walked

The pieces of every part stand together among the pieces of the program. So do the actions of a
statement, a function, a class or an expression in the actions of the program, without anything of
the rest in between. What comes before and after is done by the rest of the program.

A function is walked at the place of a method only if it is the value of a method.

## Main definitions

* `Gathered`: the pieces of every piece stand together.
* `Category.isWhole`, `Piece.isWhole`: trees whose actions stand together.
* `Stands`: the roles and places in which trees of a category are walked.
* `Tree.functionId?`, `Tree.methodId?`: the function that an expression is, and the function that is
  the value of a method.
* `Spanned`, `Spans`: the actions of pieces stand together in a list of actions.

## Main results

* `Tree.gathered`: the pieces of the parts of a tree stand together in those of the tree.
* `Tree.spans`: the actions of the pieces of a tree stand together in those of the tree.
* `Program.spans`: the same for programs.
-/

namespace EcmaScope

open EcmaScope.Action

/-! ## Pieces that stand together -/

/-- The pieces of every piece stand together. -/
def Gathered (o : Options) (P : List Piece) : Prop :=
  ∀ u ∈ P, u.tree.pieces o u.role <:+: P

namespace Gathered

variable {o : Options} {P Q : List Piece}

private theorem nil : Gathered o [] :=
  fun _ hu => absurd hu List.not_mem_nil

private theorem append (hP : Gathered o P) (hQ : Gathered o Q) : Gathered o (P ++ Q) := by
  intro u hu
  rcases List.mem_append.mp hu with hu | hu
  · exact (hP u hu).trans (List.prefix_append P Q).isInfix
  · exact (hQ u hu).trans (List.suffix_append P Q).isInfix

private theorem self {c : Category} {role : Role} {t : Tree c} (h : Gathered o P)
    (hP : t.pieces o role = ⟨c, role, t⟩ :: P) : Gathered o (t.pieces o role) := by
  intro u hu
  rw [hP] at hu
  rcases List.mem_cons.mp hu with rfl | hu
  · exact List.infix_rfl
  · rw [hP]
    exact (h u hu).trans (List.suffix_cons _ P).isInfix

end Gathered

/-- The pieces of a piece of a tree stand together among those of the tree. -/
theorem Tree.gathered {c : Category} (o : Options) (t : Tree c) :
    ∀ role, Gathered o (t.pieces o role) := by
  induction t with
  | _ =>
    intro role
    refine .self ?_ rfl
    repeat' first
      | exact .nil
      | apply_assumption
      | apply Gathered.append

/-! ## Roles and places -/

/-- Trees of this category are walked as they are, and by actions that stand together. -/
def Category.isWhole : Category → Bool
  | .statement | .function _ | .classOf _ | .method | .objectMember => true
  | _ => false

/-- The piece is walked as it is, and by actions that stand together. An expression is unless it is
an identifier, which may also be updated. -/
def Piece.isWhole : Piece → Bool
  | ⟨.expression, _, e⟩ => (Expr.identifier? e).isNone
  | ⟨c, _, _⟩ => c.isWhole

theorem Piece.isWhole_of_category {u : Piece} (h : u.category.isWhole = true) :
    u.isWhole = true := by
  obtain ⟨c, role, t⟩ := u
  cases c with
  | expression => cases h
  | _ => exact h

private theorem Category.isWalked_eq_false_of_isPattern {c : Category} (h : c.isPattern = true) :
    c.isWalked = false := by
  induction c with
  | pattern | rest | patternMember => rfl
  | list c ih | optional c ih => exact ih h
  | _ => cases h

/-- Trees of the category are walked in the role and at the place. -/
inductive Stands : Category → Role → Place → Prop
  | code {c : Category} (hc : c.isWalked = true) {method : Bool} : Stands c .code (.code method)
  | target {c : Category} (hc : c.isPattern = true) {values : Nat} {method : Bool} :
      Stands c (.target values) (.code method)
  | parameters {values : Nat} {owner : Anchor} {index : Nat} :
      Stands (.list .pattern) (.target values) (.parameters owner index)
  | declarators {role : Role} (hrole : role = .code ∨ role = .head false) {declaration : Anchor}
      {kind : VariableKind} {index : Nat} :
      Stands (.list .declarator) role (.declarators declaration kind index)
  | declarator {role : Role} (hrole : role = .code ∨ role = .head false) :
      Stands .declarator role (.code false)
  | heads : Stands (.list .declarator) (.head true) .head
  | head : Stands .declarator (.head true) .head

namespace Stands

variable {c : Category} {role : Role} {place : Place}

private theorem eq_code (h : Stands c role place) (hc : c.isWalked = true) :
    role = .code ∧ ∃ method, place = .code method := by
  cases h with
  | code => exact ⟨rfl, _, rfl⟩
  | target hpattern =>
    rw [Category.isWalked_eq_false_of_isPattern hpattern] at hc
    cases hc
  | parameters | declarators | declarator | heads | head => cases hc

private theorem eq_target (h : Stands c role place) (hc : c.isPattern = true)
    (hlist : c ≠ .list .pattern) :
    ∃ values method, role = .target values ∧ place = .code method := by
  cases h with
  | code hwalked =>
    rw [Category.isWalked_eq_false_of_isPattern hc] at hwalked
    cases hwalked
  | target => exact ⟨_, _, rfl, rfl⟩
  | parameters => exact absurd rfl hlist
  | declarators | declarator | heads | head => cases hc

private theorem part (h : Stands (.optional c) role place) : Stands c role place := by
  cases h with
  | code hc => exact .code (c := c) hc
  | target hc => exact .target (c := c) hc

end Stands

namespace Tree

/-- The node of the function that a tree is. -/
def functionId? {c : Category} : Tree c → Option Nat
  | .function _ m _ _ _ _ _ _ => some m.id
  | .functionExpression fn => fn.functionId?
  | _ => none

/-- The node of the function that is the value of a method. -/
def methodId? {c : Category} : Tree c → Option Nat
  | .method _ _ value _ _ _ => value.functionId?
  | .property _ _ value _ true _ _ => value.functionId?
  | _ => none

private theorem exists_functionId? {form : FunctionForm} (fn : Tree (.function form)) :
    ∃ n, fn.functionId? = some n := by
  cases fn
  exact ⟨_, rfl⟩

/-- The value of a method is a function. -/
def hasMethod {c : Category} : Tree c → Bool
  | .property _ _ value _ true _ _ => value.functionId?.isSome
  | _ => true

end Tree

/-! ## Actions that stand together -/

/-- The actions of the construct `u` stand together in `A`. If all methods among the pieces `P` have
functions for values, then the construct is walked as the value of a method only if it is one, or if
it is what `root` names and `method` says so. -/
structure Spanned (o : Options) (method : Bool) (root : Option Nat) (P : List Piece)
    (A : List Action) (u : Piece) : Prop where
  role : u.role = .code
  actions : ∃ m, u.tree.actions o (.code m) <:+: A ∧
    (m = true → (∀ v ∈ P, v.tree.hasMethod = true) →
      (∃ v ∈ P, ∃ n, v.tree.methodId? = some n ∧ u.tree.functionId? = some n) ∨
        method = true ∧ ∀ n, root = some n → u.tree.functionId? = some n)

/-- The actions of every construct among the pieces `P` stand together in `A`. -/
def Spans (o : Options) (method : Bool) (root : Option Nat) (P : List Piece) (A : List Action) :
    Prop :=
  ∀ u ∈ P, u.role ≠ .skipped → u.isWhole = true → Spanned o method root P A u

section

variable {o : Options} {method : Bool} {root root' : Option Nat} {P Q : List Piece}
  {A B : List Action} {u : Piece}

theorem Spanned.widen (h : Spanned o method root P A u) (hP : P <:+: Q) (hA : A <:+: B) :
    Spanned o method root Q B u where
  role := h.role
  actions := by
    obtain ⟨m, hactions, hmethod⟩ := h.actions
    refine ⟨m, hactions.trans hA, fun hm hQ => ?_⟩
    refine (hmethod hm fun v hv => hQ v (hP.subset hv)).imp_left fun ⟨v, hv, hvalue⟩ => ?_
    exact ⟨v, hP.subset hv, hvalue⟩

/-- It may be known otherwise whether the construct is the value of a method. -/
theorem Spanned.explain (h : Spanned o method root P A u) {method' : Bool}
    (hmethod : (∀ v ∈ P, v.tree.hasMethod = true) → method = true →
      (∀ n, root = some n → u.tree.functionId? = some n) →
      (∃ v ∈ P, ∃ n, v.tree.methodId? = some n ∧ u.tree.functionId? = some n) ∨
        method' = true ∧ ∀ n, root' = some n → u.tree.functionId? = some n) :
    Spanned o method' root' P A u where
  role := h.role
  actions := by
    obtain ⟨m, hactions, hknown⟩ := h.actions
    refine ⟨m, hactions, fun hm hP => (hknown hm hP).elim .inl fun hroot => ?_⟩
    exact hmethod hP hroot.1 hroot.2

namespace Spans

private theorem nil : Spans o method root [] A :=
  fun _ hu => absurd hu List.not_mem_nil

private theorem skipped (h : ∀ u ∈ P, u.role = .skipped) : Spans o method root P A :=
  fun u hu hrole => absurd (h u hu) hrole

private theorem before (h : Spans o method root P A) (B : List Action) :
    Spans o method root P (B ++ A) :=
  fun u hu hrole hwhole =>
    (h u hu hrole hwhole).widen List.infix_rfl (List.suffix_append B A).isInfix

private theorem after (h : Spans o method root P A) (B : List Action) :
    Spans o method root P (A ++ B) :=
  fun u hu hrole hwhole =>
    (h u hu hrole hwhole).widen List.infix_rfl (List.prefix_append A B).isInfix

private theorem anonymous (h : Spans o method root P A) : Spans o method none P A :=
  fun u hu hrole hwhole =>
    (h u hu hrole hwhole).explain fun _ hm _ => .inr ⟨hm, fun _ hn => by cases hn⟩

/-- Inside a function nothing is the value of the method that it may be. -/
private theorem plain (h : Spans o false root P A) : Spans o method root' P A :=
  fun u hu hrole hwhole => (h u hu hrole hwhole).explain fun _ hm _ => by cases hm

private theorem both (hP : Spans o method root P A) (hQ : Spans o method root Q A) :
    Spans o method root (P ++ Q) A := by
  intro u hu hrole hwhole
  rcases List.mem_append.mp hu with hu | hu
  · exact (hP u hu hrole hwhole).widen (List.prefix_append P Q).isInfix List.infix_rfl
  · exact (hQ u hu hrole hwhole).widen (List.suffix_append P Q).isInfix List.infix_rfl

private theorem append (hP : Spans o method root P A) (hQ : Spans o method root' Q B) :
    Spans o method none (P ++ Q) (A ++ B) :=
  (hP.anonymous.after B).both (hQ.anonymous.before A)

private theorem swap (hP : Spans o method root P A) (hQ : Spans o method root' Q B) :
    Spans o method none (P ++ Q) (B ++ A) :=
  (hP.anonymous.before B).both (hQ.anonymous.after A)

/-- A piece that is not walked as it is. -/
private theorem below (h : Spans o method root P A) (hu : u.isWhole = false := by rfl) :
    Spans o method root (u :: P) A := by
  intro v hv hrole hwhole
  rcases List.mem_cons.mp hv with rfl | hv
  · rw [hu] at hwhole
    cases hwhole
  · exact (h v hv hrole hwhole).widen (List.suffix_cons u P).isInfix List.infix_rfl

section

variable {c : Category} {t : Tree c} {role : Role} {place : Place}

/-- A tree spans itself, whatever is known of its parts. -/
private theorem ofParts (hstands : Stands c role place)
    (h : ∀ u ∈ P, u.role ≠ .skipped → u.isWhole = true →
      Spanned o place.isMethod t.functionId? (t.pieces o role) (t.actions o place) u)
    (hP : t.pieces o role = ⟨c, role, t⟩ :: P := by rfl) :
    Spans o place.isMethod t.functionId? (t.pieces o role) (t.actions o place) := by
  intro u hu hrole hwhole
  rw [hP] at hu
  rcases List.mem_cons.mp hu with rfl | hu
  · have hwalked : c.isWalked = true := by
      cases c with
      | statement | function | classOf | method | objectMember | expression => rfl
      | _ => cases hwhole
    obtain ⟨rfl, method, rfl⟩ := hstands.eq_code hwalked
    exact ⟨rfl, method, List.infix_rfl, fun hm _ => .inr ⟨hm, fun n hn => hn⟩⟩
  · exact h u hu hrole hwhole

/-- A tree spans itself and what its parts span. -/
private theorem self (hstands : Stands c role place)
    (h : Spans o place.isMethod t.functionId? P (t.actions o place))
    (hP : t.pieces o role = ⟨c, role, t⟩ :: P := by rfl) :
    Spans o place.isMethod t.functionId? (t.pieces o role) (t.actions o place) := by
  refine ofParts hstands (fun u hu hrole hwhole => (h u hu hrole hwhole).widen ?_ List.infix_rfl) hP
  rw [hP]
  exact (List.suffix_cons _ P).isInfix

/-- A method spans its value, which is walked as such. -/
private theorem ofMethod {d : Category} {value : Tree d} (hstands : Stands c role place)
    (hkey : Spans o place.isMethod none P A) (hvalue : Spans o true value.functionId? Q B)
    (hid : t.hasMethod = true → ∃ n, t.methodId? = some n ∧ value.functionId? = some n)
    (ht : t.functionId? = none := by rfl)
    (hP : t.pieces o role = ⟨c, role, t⟩ :: (P ++ Q) := by rfl)
    (hA : t.actions o place = A ++ B := by rfl) :
    Spans o place.isMethod t.functionId? (t.pieces o role) (t.actions o place) := by
  have hself : (⟨c, role, t⟩ : Piece) ∈ t.pieces o role := by
    rw [hP]
    exact List.mem_cons_self
  refine ofParts hstands (fun u hu hrole hwhole => ?_) hP
  rw [ht]
  rcases List.mem_append.mp hu with hu | hu
  · refine (hkey u hu hrole hwhole).widen ?_ ?_
    · rw [hP]
      exact (List.infix_append [_] P Q)
    · rw [hA]
      exact (List.prefix_append A B).isInfix
  · have hspanned : Spanned o true value.functionId? (t.pieces o role) (t.actions o place) u := by
      refine (hvalue u hu hrole hwhole).widen ?_ ?_
      · rw [hP]
        exact (List.suffix_append (_ :: P) Q).isInfix
      · rw [hA]
        exact (List.suffix_append A B).isInfix
    refine hspanned.explain fun hmethods _ hroot => .inl ⟨_, hself, ?_⟩
    obtain ⟨n, hn, hn'⟩ := hid (hmethods _ hself)
    exact ⟨n, hn, hroot n hn'⟩

end

end Spans

end

/-! ## The recursion -/

private theorem AssignmentOperator.inner_role_member (operator : AssignmentOperator)
    (a : Tree .access) : (operator.role (.memberPattern a)).inner .code = .code := by
  unfold AssignmentOperator.role
  split <;> rfl

namespace Tree

variable {o : Options} {role : Role} {place : Place} {method : Bool}

/-- What is looked at only under a condition. -/
private theorem spans_ite {c : Category} {t : Tree c} {computed : Bool}
    (h : Spans o method t.functionId? (t.pieces o .code) (t.actions o (.code method))) :
    Spans o method none (t.pieces o (if computed then .code else .skipped))
      (if computed then t.actions o (.code method) else []) := by
  cases computed with
  | true => exact h.anonymous
  | false => exact .skipped ((t.accounts o .skipped).skipped rfl)

/-- A list. -/
private theorem spans_cons {c : Category} {head : Tree c} {tail : Tree (.list c)}
    (hhead : ∀ {role : Role} {place : Place}, Stands c role place →
      Spans o place.isMethod head.functionId? (head.pieces o role) (head.actions o place))
    (htail : ∀ {role : Role} {place : Place}, Stands (.list c) role place →
      Spans o place.isMethod tail.functionId? (tail.pieces o role) (tail.actions o place))
    (h : Stands (.list c) role place) :
    Spans o place.isMethod none ((cons head tail).pieces o role)
      ((cons head tail).actions o place) := by
  cases h with
  | code hc => exact .below (((hhead (.code (c := c) hc)).before _).append (htail (.code hc))) rfl
  | target hc =>
    exact .below (((hhead (.target (c := c) hc)).before _).append (htail (.target hc))) rfl
  | parameters =>
    have hitem {n : Nat} : Stands .pattern (.target n) (.code false) := .target rfl
    exact .below (((hhead hitem).before _).append (htail .parameters)) rfl
  | declarators hrole =>
    have hrest {d : Anchor} {kind : VariableKind} {i : Nat} :
        Stands (.list .declarator) role.rest (.declarators d kind i) := by
      rcases hrole with rfl | rfl <;> exact .declarators (.inl rfl)
    exact .below (((hhead (.declarator hrole)).before _).append (htail hrest)) rfl
  | heads =>
    exact .below ((hhead .head).anonymous.both
      (.skipped ((tail.accounts o .skipped).skipped rfl))) rfl

/-- A declarator. -/
private theorem spans_declarator {m : Mark} {target : Pat} {init : Tree (.optional .expression)}
    (htarget : ∀ {role : Role} {place : Place}, Stands .pattern role place →
      Spans o place.isMethod target.functionId? (target.pieces o role) (target.actions o place))
    (hinit : ∀ {role : Role} {place : Place}, Stands (.optional .expression) role place →
      Spans o place.isMethod init.functionId? (init.pieces o role) (init.actions o place))
    (h : Stands .declarator role place) :
    Spans o place.isMethod none ((declarator m target init).pieces o role)
      ((declarator m target init).actions o place) := by
  cases h with
  | code hc => cases hc
  | target hc => cases hc
  | declarator hrole =>
    rcases hrole with rfl | rfl
    · exact .below ((htarget (.target rfl)).append (hinit (.code rfl))) rfl
    · exact .below ((htarget (.target rfl)).append (hinit (.code rfl))) rfl
  | head =>
    have hcode {n : Nat} : Stands .pattern (.target n) (.code false) := .target rfl
    exact .below ((htarget hcode).anonymous.both
      (.skipped ((init.accounts o .skipped).skipped rfl))) rfl

/-- A loop over a value whose head declares variables. -/
private theorem spans_declaringLoop {form : IterationForm} {m dm : Mark} {kind : VariableKind}
    {ds : Tree (.list .declarator)} {right : Expr} {body : Stmt} {await : Bool}
    (hds : ∀ {role : Role} {place : Place}, Stands (.list .declarator) role place →
      Spans o place.isMethod ds.functionId? (ds.pieces o role) (ds.actions o place))
    (hright : Spans o method right.functionId? (right.pieces o .code)
      (right.actions o (.code method)))
    (hbody : Spans o method body.functionId? (body.pieces o .code)
      (body.actions o (.code method))) :
    Spans o method none
      ((targetDeclaration (.declaration dm kind ds)).pieces o .code ++ right.pieces o .code ++
        body.pieces o .code)
      ((iterationStatement form m (.targetDeclaration (.declaration dm kind ds)) right body
        await).actions o (.code method)) := by
  change Spans o method none ((_ :: _ :: ds.pieces o (.head (kind.isLexical && o.isEs6))) ++ _ ++ _)
    (if _ then _ else _)
  split
  · next hlexical =>
    rw [hlexical]
    have hleft : Spans o method none _ _ := (hds .heads).plain
    exact (((((hleft.below (by rfl)).below (by rfl)).swap
      (((hright.before _).after _).after _)).after _).append hbody).after _
  · next hlexical =>
    rw [Bool.not_eq_true] at hlexical
    rw [hlexical]
    have hleft : Spans o method none (ds.pieces o (.head false))
        (ds.actions o (.declarators ⟨.declaration, dm⟩ kind 0)) :=
      (hds (.declarators (.inr rfl))).plain
    exact ((((((hleft.below (by rfl)).below (by rfl)).before _).after _).after _).append
      hright).append hbody

/-- A loop over a value whose items are assigned to a pattern other than a member. -/
private theorem spans_assigningLoop {p : Pat} {right : Expr} {body : Stmt} {B : List Action}
    (hp : Spans o method p.functionId? (p.pieces o (.target 1)) (p.actions o (.code method)))
    (hright : Spans o method right.functionId? (right.pieces o .code)
      (right.actions o (.code method)))
    (hbody : Spans o method body.functionId? (body.pieces o .code)
      (body.actions o (.code method))) :
    Spans o method none
      ((targetPattern p).pieces o .code ++ right.pieces o .code ++ body.pieces o .code)
      (B ++ p.actions o (.code method) ++ right.actions o (.code method) ++
        body.actions o (.code method)) :=
  (((hp.below (u := ⟨_, .code, .targetPattern p⟩) rfl).before B).append hright).append hbody

/-- An assignment to a pattern other than a member. -/
private theorem spans_assignment {operator : AssignmentOperator} {left : Pat} {right : Expr}
    {r : Role} {B C : List Action}
    (hrole : operator.role left = if operator = .assign then .target 1 else r)
    (hother : Spans o method none (left.pieces o r) C)
    (hleft : Spans o method left.functionId? (left.pieces o (.target 1))
      (left.actions o (.code method)))
    (hright : Spans o method right.functionId? (right.pieces o .code)
      (right.actions o (.code method))) :
    Spans o method none (left.pieces o (operator.role left) ++ right.pieces o .code)
      ((if operator = .assign then B ++ left.actions o (.code method) else C) ++
        right.actions o (.code method)) := by
  rw [hrole]
  split
  · exact (hleft.before B).append hright
  · exact hother.append hright

/-- The specifiers of an import are not walked. -/
private theorem spans_importSpecifiers {A : List Action} :
    (specifiers : Tree (.list .importSpecifier)) →
    Spans o method none (specifiers.pieces o .code) A
  | .nil => .below .nil rfl
  | .cons (.importDefaultSpecifier _ _) tail | .cons (.importNamespaceSpecifier _ _) tail =>
    .below (.below (spans_importSpecifiers tail) rfl) rfl
  | .cons (.importNamedSpecifier _ imported _) tail =>
    .below (.below ((Spans.skipped ((imported.accounts o .skipped).skipped rfl)).both
      (spans_importSpecifiers tail)) rfl) rfl

/-- A step of a variable. -/
private theorem spans_update {m : Mark} {operator : UpdateOperator} {leading : Bool}
    {argument : Expr} (h : Spans o method argument.functionId? (argument.pieces o .code)
      (argument.actions o (.code method))) :
    Spans o method none
      (argument.pieces o (if (Expr.identifier? argument).isSome then .updated else .code))
      ((updateExpression m operator leading argument).actions o (.code method)) := by
  cases argument with
  | identifier i => exact .below .nil rfl
  | _ => exact h.anonymous

/-- The actions of the pieces of a tree stand together in those of the tree. -/
theorem spans {c : Category} (o : Options) : (t : Tree c) → {role : Role} → {place : Place} →
    Stands c role place →
    Spans o place.isMethod t.functionId? (t.pieces o role) (t.actions o place)
  | .nil, _, _, h | .absent, _, _, h => .below .nil
  | .cons head tail, _, _, h =>
    spans_cons (fun h => spans o head h) (fun h => spans o tail h) h
  | .present part, _, _, h => (spans o part h.part).anonymous.below
  | .program _ body, _, _, h => by cases h <;> contradiction
  | .breakStatement _ _, _, _, h | .continueStatement _ _, _, _, h
  | .debuggerStatement _, _, _, h | .directiveStatement _ _ _, _, _, h
  | .emptyStatement _, _, _, h | .importDefaultSpecifier _ _, _, _, h
  | .importNamespaceSpecifier _ _, _, _, h | .identifier _, _, _, h | .literal _, _, _, h
  | .metaProperty _ _ _, _, _, h | .superExpression _, _, _, h | .thisExpression _, _, _, h
  | .identifierPattern _, _, _, h => .self h .nil
  | .exportAllDeclaration _ _ exported, _, _, h | .importNamedSpecifier _ exported _, _, _, h =>
    .self h (.skipped ((exported.accounts o .skipped).skipped rfl))
  | .blockStatement part, _, _, h | .classDeclaration part, _, _, h
  | .exportDefaultDeclaration _ part, _, _, h | .expressionStatement _ part _, _, _, h
  | .functionDeclaration part, _, _, h | .labeledStatement _ _ part, _, _, h
  | .returnStatement _ part, _, _, h | .throwStatement _ part, _, _, h
  | .variableDeclaration part, _, _, h | .initDeclaration part, _, _, h
  | .initExpression part, _, _, h | .defaultFunction part, _, _, h | .defaultClass part, _, _, h
  | .defaultExpression part, _, _, h | .expressionBody part, _, _, h | .classBody _ part, _, _, h
  | .arrayExpression _ part, _, _, h | .arrowFunction part, _, _, h
  | .awaitExpression _ part, _, _, h | .chainExpression _ part, _, _, h
  | .classExpression part, _, _, h | .importExpression _ part, _, _, h
  | .memberExpression part, _, _, h | .objectExpression _ part, _, _, h
  | .sequenceExpression _ part, _, _, h | .spreadExpression part, _, _, h
  | .templateExpression part, _, _, h | .unaryExpression _ _ _ part, _, _, h
  | .yieldExpression _ part _, _, _, h | .spread _ part, _, _, h | .template _ _ part, _, _, h
  | .spreadMember part, _, _, h => by
    obtain ⟨rfl, method, rfl⟩ := h.eq_code rfl
    exact .self h (spans o part (.code rfl)).anonymous
  | .functionExpression fn, _, _, h => by
    obtain ⟨rfl, method, rfl⟩ := h.eq_code rfl
    exact .self h (spans o fn (.code rfl))
  | .doWhileStatement _ first second, _, _, h | .whileStatement _ first second, _, _, h
  | .switchCase _ first second, _, _, h | .binaryExpression _ _ _ first second, _, _, h
  | .newExpression _ first second _, _, _, h | .taggedTemplate _ first second, _, _, h => by
    obtain ⟨rfl, method, rfl⟩ := h.eq_code rfl
    exact .self h ((spans o first (.code rfl)).append (spans o second (.code rfl)))
  | .ifStatement _ first second third, _, _, h | .tryStatement _ first second third, _, _, h
  | .conditionalExpression _ first second third, _, _, h => by
    obtain ⟨rfl, method, rfl⟩ := h.eq_code rfl
    exact .self h (((spans o first (.code rfl)).append (spans o second (.code rfl))).append
      (spans o third (.code rfl)))
  | .callExpression _ callee arguments _, _, _, h => by
    obtain ⟨rfl, method, rfl⟩ := h.eq_code rfl
    exact .self h (((spans o callee (.code rfl)).before _).append (spans o arguments (.code rfl)))
  | .exportSpecifier _ binding exported, _, _, h => by
    obtain ⟨rfl, method, rfl⟩ := h.eq_code rfl
    exact .self h ((spans o binding (.code rfl)).anonymous.both
      (.skipped ((exported.accounts o .skipped).skipped rfl)))
  | .access _ object prop _ _, _, _, h => by
    obtain ⟨rfl, method, rfl⟩ := h.eq_code rfl
    exact .self h ((spans o object (.code rfl)).append (spans_ite (spans o prop (.code rfl))))
  | .exportNamedDeclaration _ d specifiers (some _), _, _, h => by
    obtain ⟨rfl, method, rfl⟩ := h.eq_code rfl
    exact .self h (.both (.skipped ((d.accounts o .skipped).skipped rfl))
      (.skipped ((specifiers.accounts o .skipped).skipped rfl)))
  | .exportNamedDeclaration _ (.present declared) specifiers none, _, _, h => by
    obtain ⟨rfl, method, rfl⟩ := h.eq_code rfl
    exact .self h (.both (spans o (.present declared) (.code rfl)).anonymous
      (.skipped ((specifiers.accounts o .skipped).skipped rfl)))
  | .exportNamedDeclaration _ .absent specifiers none, _, _, h => by
    obtain ⟨rfl, method, rfl⟩ := h.eq_code rfl
    have hd : Spans o method none ((absent : Tree (.optional .statement)).pieces o .code)
      (specifiers.actions o (.code method)) := .below .nil
    exact .self h (hd.both (spans o specifiers (.code rfl)).anonymous)
  | .importDeclaration _ specifiers _, _, _, h => by
    obtain ⟨rfl, method, rfl⟩ := h.eq_code rfl
    exact .self h (spans_importSpecifiers specifiers)
  | .iterationStatement _ _ (.targetDeclaration (.declaration _ _ ds)) right body _, _, _, h => by
    obtain ⟨rfl, method, rfl⟩ := h.eq_code rfl
    exact .self h (spans_declaringLoop (fun h => spans o ds h) (spans o right (.code rfl))
      (spans o body (.code rfl)))
  | .iterationStatement _ _ (.targetPattern (.memberPattern a)) right body _, _, _, h => by
    obtain ⟨rfl, method, rfl⟩ := h.eq_code rfl
    have hleft : Spans o method none ((targetPattern (.memberPattern a)).pieces o .code)
      (a.actions o (.code method)) := (spans o a (.code rfl)).anonymous.below.below
    exact .self h ((hleft.append (spans o right (.code rfl))).append (spans o body (.code rfl)))
  | .iterationStatement _ _ (.targetPattern (.arrayPattern _ _)) right body _, _, _, h
  | .iterationStatement _ _ (.targetPattern (.assignmentPattern _ _ _)) right body _, _, _, h
  | .iterationStatement _ _ (.targetPattern (.identifierPattern _)) right body _, _, _, h
  | .iterationStatement _ _ (.targetPattern (.objectPattern _ _)) right body _, _, _, h
  | .iterationStatement _ _ (.targetPattern (.restPattern _)) right body _, _, _, h => by
    obtain ⟨rfl, method, rfl⟩ := h.eq_code rfl
    exact .self h (spans_assigningLoop (spans o _ (.target rfl)) (spans o right (.code rfl))
      (spans o body (.code rfl)))
  | .targetDeclaration _, _, _, h | .targetPattern _, _, _, h => by cases h <;> contradiction
  | .forStatement _ init test update body, _, _, h => by
    obtain ⟨rfl, method, rfl⟩ := h.eq_code rfl
    exact .self h ((((((spans o init (.code rfl)).before _).append
      (spans o test (.code rfl))).append (spans o update (.code rfl))).append
      (spans o body (.code rfl))).after _)
  | .switchStatement _ first second, _, _, h | .withStatement _ first second, _, _, h => by
    obtain ⟨rfl, method, rfl⟩ := h.eq_code rfl
    exact .self h ((((spans o first (.code rfl)).after _).append
      (spans o second (.code rfl))).after _)
  | .block _ body, _, _, h => by
    obtain ⟨rfl, method, rfl⟩ := h.eq_code rfl
    exact .self h (((spans o body (.code rfl)).anonymous.before _).after _)
  | .catchClause _ param body, _, _, h => by
    obtain ⟨rfl, method, rfl⟩ := h.eq_code rfl
    exact .self h ((((spans o param (.target rfl)).before _).append
      (spans o body (.code rfl))).after _)
  | .function form m _ params body _ _ _, _, _, h => by
    obtain ⟨rfl, method, rfl⟩ := h.eq_code rfl
    have hparams : Spans o false none (params.pieces o (.target 0))
        (params.actions o (.parameters ⟨.function form, m⟩ 0)) :=
      (spans o params .parameters).anonymous
    have hbody : Spans o false none (body.pieces o .code) (body.actions o (.code false)) :=
      (spans o body (.code rfl)).anonymous
    exact .self h ((((hparams.before _).after _).append hbody).after _).plain
  | .blockBody (.block _ body), _, _, h => by
    obtain ⟨rfl, method, rfl⟩ := h.eq_code rfl
    exact (spans o body (.code rfl)).anonymous.below.below
  | .classNode _ _ _ superclass body, _, _, h => by
    obtain ⟨rfl, method, rfl⟩ := h.eq_code rfl
    exact .self h (((((spans o superclass (.code rfl)).before _).after _).append
      (spans o body (.code rfl))).after _)
  | .declaration m kind declarators, _, _, h => by
    obtain ⟨rfl, method, rfl⟩ := h.eq_code rfl
    exact .self h (((spans o declarators (.declarators (.inl rfl))).plain.before _).after _)
  | .declarator _ target init, _, _, h =>
    spans_declarator (fun h => spans o target h) (fun h => spans o init h) h
  | .method _ key value _ _ _, _, _, h => by
    obtain ⟨rfl, method, rfl⟩ := h.eq_code rfl
    obtain ⟨n, hn⟩ := value.exists_functionId?
    exact .ofMethod h (spans_ite (spans o key (.code rfl))) (spans o value (.code rfl))
      fun _ => ⟨n, hn, hn⟩
  | .property _ key value _ false _ _, _, _, h => by
    obtain ⟨rfl, method, rfl⟩ := h.eq_code rfl
    exact .self h ((spans_ite (spans o key (.code rfl))).append (spans o value (.code rfl)))
  | .property _ key value _ true _ _, _, _, h => by
    obtain ⟨rfl, method, rfl⟩ := h.eq_code rfl
    refine .ofMethod h (spans_ite (spans o key (.code rfl))) (spans o value (.code rfl)) ?_
    intro hvalue
    obtain ⟨n, hn⟩ := Option.isSome_iff_exists.mp hvalue
    exact ⟨n, hn, hn⟩
  | .assignmentExpression _ operator (.memberPattern a) right, _, _, h => by
    obtain ⟨rfl, method, rfl⟩ := h.eq_code rfl
    have hleft : Spans o method none ((memberPattern a).pieces o (operator.role (.memberPattern a)))
        (a.actions o (.code method)) := by
      change Spans o method none (_ :: a.pieces o (Role.inner _ .code)) _
      rw [operator.inner_role_member]
      exact (spans o a (.code rfl)).anonymous.below
    exact .self h (hleft.append (spans o right (.code rfl)))
  | .assignmentExpression _ _ (.identifierPattern _) right, _, _, h => by
    obtain ⟨rfl, method, rfl⟩ := h.eq_code rfl
    exact .self h (spans_assignment rfl (.below .nil) (spans o _ (.target rfl))
      (spans o right (.code rfl)))
  | .assignmentExpression _ _ (.arrayPattern _ _) right, _, _, h
  | .assignmentExpression _ _ (.assignmentPattern _ _ _) right, _, _, h
  | .assignmentExpression _ _ (.objectPattern _ _) right, _, _, h
  | .assignmentExpression _ _ (.restPattern _) right, _, _, h => by
    obtain ⟨rfl, method, rfl⟩ := h.eq_code rfl
    exact .self h (spans_assignment rfl (.skipped ((accounts o .skipped _).skipped rfl))
      (spans o _ (.target rfl)) (spans o right (.code rfl)))
  | .updateExpression _ _ _ argument, _, _, h => by
    obtain ⟨rfl, method, rfl⟩ := h.eq_code rfl
    exact .self h (spans_update (spans o argument (.code rfl)))
  | .arrayPattern _ part, _, _, h | .objectPattern _ part, _, _, h | .restPattern part, _, _, h
  | .rest _ part, _, _, h | .restMember part, _, _, h => by
    obtain ⟨values, method, rfl, rfl⟩ := h.eq_target rfl (by decide)
    exact .self h (spans o part (.target rfl)).anonymous
  | .assignmentPattern _ left right, _, _, h => by
    obtain ⟨values, method, rfl, rfl⟩ := h.eq_target rfl (by decide)
    exact .self h ((spans o left (.target rfl)).append (spans o right (.code rfl)))
  | .memberPattern (.access m object prop computed isOptional), _, _, h => by
    obtain ⟨values, method, rfl, rfl⟩ := h.eq_target rfl (by decide)
    exact .self h (.below (u := ⟨_, .code, .access m object prop computed isOptional⟩)
      ((spans o object (.code rfl)).swap (spans_ite (spans o prop (.code rfl)))))
  | .patternProperty _ key value _ _, _, _, h => by
    obtain ⟨values, method, rfl, rfl⟩ := h.eq_target rfl (by decide)
    exact .self h ((spans_ite (spans o key (.code rfl))).append (spans o value (.target rfl)))

end Tree

/-- The actions of every construct of a program that is not skipped stand together. If all methods
have functions for values, only these are walked as values of methods. -/
theorem Program.spans (o : Options) (p : Program) :
    Spans o false none (Program.pieces o p) (Program.actions o p) := by
  cases p with
  | program m body => exact (((body.spans o (.code rfl)).anonymous.before _).after _).below

end EcmaScope
