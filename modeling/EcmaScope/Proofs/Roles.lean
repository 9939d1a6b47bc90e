import EcmaScope.Proofs.Nesting

/-!
# The roles of the parts of a program

What a part of a program does to names depends on where it stands. The same identifier is read if it
stands where code is expected, written as the target of an assignment, and nothing at all as the
name of a property. This module says of every part of a program in which role it stands, and from
that, which uses of names, which scopes and which calls of `eval` a program consists of. It does so
without regard to the order in which anything is done.

## Main definitions

* `Role`: what a part of a program may stand for.
* `Tree.pieces`: all pieces of a tree, with their roles.
* `Piece.occurrences`, `Role.flags`: the identifiers of a piece, and what is done with them.
* `Piece.openings`: the scopes that a piece opens.
* `Piece.evalCallees`: the callees by which a piece calls `eval`.

## Main results

* `Tree.accounts`: every node of a tree is found among its pieces, once.
-/

namespace EcmaScope

/-! ## Roles -/

/-- What a part of a program stands for. -/
inductive Role where
  /-- What is executed or evaluated. -/
  | code
  /-- What is read and then written. -/
  | updated
  /-- What receives `values` values, one after the other. -/
  | target (values : Nat)
  /-- The declarators in the head of a loop over a value; `lexical` says that every round of the
  loop has its own variables. -/
  | head (lexical : Bool)
  /-- The block that is the body of a function. -/
  | body
  /-- What is not looked at. -/
  | skipped
  deriving DecidableEq, Repr

namespace Role

/-- The role `r` in a part of the role `role`: nothing is looked at in what is skipped. -/
def inner (role r : Role) : Role :=
  match role with
  | .skipped => .skipped
  | _ => r

/-- The role of what stands in front of a default value, which is one value more. -/
def withDefault : Role → Role
  | .target values => .target (values + 1)
  | role => role

/-- How many values the targets of a declarator receive if it gives `initial` ones to begin with. In
the head of a loop they also receive the items, and lexical ones are bound twice: for the value to
loop over, and for the rounds. -/
def values : Role → Nat → Nat
  | .head true, initial => 1 + (initial + initial)
  | .head false, initial => 1 + initial
  | _, initial => initial

/-- The role of the initial value of a declarator. -/
def initial : Role → Role
  | .head true => .skipped
  | role => role.inner .code

/-- The role of the declarators after the first. -/
def rest : Role → Role
  | .head true => .skipped
  | .head false => .code
  | role => role

/-- What is done with an identifier in the role, by the short forms of the uses. -/
def flags : Role → List String
  | .code => [Use.flag .read]
  | .updated => [Use.flag (.update none)]
  | .target values => List.replicate values (Use.flag (.write default false false))
  | .head _ | .body | .skipped => []

end Role

/-! ## Parts -/

/-- The declared variables live in the enclosing block. -/
def Declaration.isLexical : Tree .declaration → Bool
  | .declaration _ kind _ => kind.isLexical

/-- The head of a loop declares variables that live in the loop. -/
def ForInit.isLexical : Tree (.optional .forInit) → Bool
  | .present (.initDeclaration d) => Declaration.isLexical d
  | _ => false

/-- The head of a loop over a value declares variables that live in the loop. -/
def ForTarget.isLexical : Tree .forTarget → Bool
  | .targetDeclaration d => Declaration.isLexical d
  | .targetPattern _ => false

/-- A tree and its role in a program. -/
structure Piece where
  category : Category
  role : Role
  tree : Tree category

/-- The role of the left side of an assignment. An operator other than `=` works on identifiers
and members only. -/
def AssignmentOperator.role (operator : AssignmentOperator) (left : Pat) : Role :=
  if operator = .assign then .target 1
  else match left with
    | .identifierPattern _ => .updated
    | .memberPattern _ => .code
    | _ => .skipped

namespace Tree

/-- All pieces of a tree in a role, in the order of the source text. -/
def pieces {c : Category} (o : Options) (role : Role) (t : Tree c) : List Piece :=
  ⟨c, role, t⟩ :: match t with
  | .nil | .absent => []
  | .cons head tail => head.pieces o role ++ tail.pieces o role.rest
  | .present part => part.pieces o role
  | .program _ body => body.pieces o role
  | .blockStatement b => b.pieces o role
  | .classDeclaration declared => declared.pieces o role
  | .doWhileStatement _ body test => body.pieces o role ++ test.pieces o role
  | .exportAllDeclaration _ _ exported => exported.pieces o .skipped
  | .exportDefaultDeclaration _ d => d.pieces o role
  | .exportNamedDeclaration _ d specifiers source =>
    d.pieces o (if source.isSome then .skipped else role) ++
      specifiers.pieces o (if source.isSome || d.isPresent then .skipped else role)
  | .expressionStatement _ e _ => e.pieces o role
  | .iterationStatement _ _ left right body _ =>
    left.pieces o role ++ right.pieces o role ++ body.pieces o role
  | .forStatement _ init test update body =>
    init.pieces o role ++ test.pieces o role ++ update.pieces o role ++ body.pieces o role
  | .functionDeclaration declared => declared.pieces o role
  | .ifStatement _ test consequent alternate =>
    test.pieces o role ++ consequent.pieces o role ++ alternate.pieces o role
  | .importDeclaration _ specifiers _ => specifiers.pieces o role
  | .labeledStatement _ _ body => body.pieces o role
  | .returnStatement _ argument => argument.pieces o role
  | .switchStatement _ discriminant cases => discriminant.pieces o role ++ cases.pieces o role
  | .throwStatement _ argument => argument.pieces o role
  | .tryStatement _ b handler finalizer =>
    b.pieces o role ++ handler.pieces o role ++ finalizer.pieces o role
  | .variableDeclaration d => d.pieces o role
  | .whileStatement _ test body => test.pieces o role ++ body.pieces o role
  | .withStatement _ object body => object.pieces o role ++ body.pieces o role
  | .block _ body => body.pieces o (role.inner .code)
  | .declaration _ _ declarators => declarators.pieces o role
  | .declarator _ target init =>
    target.pieces o (role.inner (.target (role.values init.isPresent.toNat))) ++
      init.pieces o role.initial
  | .switchCase _ test consequent => test.pieces o role ++ consequent.pieces o role
  | .catchClause _ param body => param.pieces o (role.inner (.target 0)) ++ body.pieces o role
  | .initDeclaration d => d.pieces o role
  | .initExpression e => e.pieces o role
  | .targetDeclaration d => d.pieces o (role.inner (.head (Declaration.isLexical d && o.isEs6)))
  | .targetPattern p => p.pieces o (role.inner (.target 1))
  | .importNamedSpecifier _ imported _ => imported.pieces o .skipped
  | .exportSpecifier _ binding exported => binding.pieces o role ++ exported.pieces o .skipped
  | .defaultFunction declared => declared.pieces o role
  | .defaultClass declared => declared.pieces o role
  | .defaultExpression e => e.pieces o role
  | .function _ _ _ params body _ _ _ =>
    params.pieces o (role.inner (.target 0)) ++ body.pieces o role
  | .blockBody b => b.pieces o (role.inner .body)
  | .expressionBody e => e.pieces o role
  | .classNode _ _ _ superclass body => superclass.pieces o role ++ body.pieces o role
  | .classBody _ members => members.pieces o role
  | .method _ key value _ computed _ =>
    key.pieces o (if computed then role else .skipped) ++ value.pieces o role
  | .arrayExpression _ elements => elements.pieces o role
  | .arrowFunction fn => fn.pieces o role
  | .assignmentExpression _ operator left right =>
    left.pieces o (role.inner (operator.role left)) ++ right.pieces o role
  | .awaitExpression _ argument => argument.pieces o role
  | .binaryExpression _ _ _ left right => left.pieces o role ++ right.pieces o role
  | .callExpression _ callee arguments _ => callee.pieces o role ++ arguments.pieces o role
  | .chainExpression _ e => e.pieces o role
  | .classExpression value => value.pieces o role
  | .conditionalExpression _ test consequent alternate =>
    test.pieces o role ++ consequent.pieces o role ++ alternate.pieces o role
  | .functionExpression fn => fn.pieces o role
  | .importExpression _ source => source.pieces o role
  | .memberExpression a => a.pieces o role
  | .newExpression _ callee arguments _ => callee.pieces o role ++ arguments.pieces o role
  | .objectExpression _ members => members.pieces o role
  | .sequenceExpression _ expressions => expressions.pieces o role
  | .spreadExpression s => s.pieces o role
  | .taggedTemplate _ tag quasi => tag.pieces o role ++ quasi.pieces o role
  | .templateExpression t => t.pieces o role
  | .unaryExpression _ _ _ argument => argument.pieces o role
  | .updateExpression _ _ _ argument =>
    argument.pieces o (if (Expr.identifier? argument).isSome then role.inner .updated else role)
  | .yieldExpression _ argument _ => argument.pieces o role
  | .access _ object prop computed _ =>
    object.pieces o role ++ prop.pieces o (if computed then role else .skipped)
  | .spread _ argument => argument.pieces o role
  | .template _ _ expressions => expressions.pieces o role
  | .property _ key value _ _ _ computed =>
    key.pieces o (if computed then role else .skipped) ++ value.pieces o role
  | .spreadMember s => s.pieces o role
  | .arrayPattern _ elements => elements.pieces o role
  | .assignmentPattern _ left right =>
    left.pieces o role.withDefault ++ right.pieces o (role.inner .code)
  | .memberPattern a => a.pieces o (role.inner .code)
  | .objectPattern _ members => members.pieces o role
  | .restPattern r => r.pieces o role
  | .rest _ argument => argument.pieces o role
  | .patternProperty _ key value computed _ =>
    key.pieces o (if computed then role.inner .code else .skipped) ++ value.pieces o role
  | .restMember r => r.pieces o role
  | _ => []

/-- The identifiers of a tree that are no trees by themselves: labels, and the names of functions,
classes, imports and meta properties. -/
def names {c : Category} : Tree c → List Identifier
  | .breakStatement _ label | .continueStatement _ label => label.toList
  | .labeledStatement _ label _ => [label]
  | .importDefaultSpecifier _ binding | .importNamespaceSpecifier _ binding
  | .importNamedSpecifier _ _ binding => [binding]
  | .function _ _ name _ _ _ _ _ => name.toList
  | .classNode _ _ name _ _ => name.toList
  | .metaProperty _ object prop => [object, prop]
  | _ => []

/-- The marks of a tree that are not those of its parts. -/
def ownMarks {c : Category} : Tree c → List Mark
  | .nil | .cons _ _ | .absent | .present _ => []
  | .blockStatement _ | .classDeclaration _ | .functionDeclaration _ | .variableDeclaration _ => []
  | .initDeclaration _ | .initExpression _ | .targetDeclaration _ | .targetPattern _ => []
  | .defaultFunction _ | .defaultClass _ | .defaultExpression _ => []
  | .blockBody _ | .expressionBody _ => []
  | .arrowFunction _ | .classExpression _ | .functionExpression _ | .memberExpression _ => []
  | .spreadExpression _ | .templateExpression _ | .spreadMember _ => []
  | .memberPattern _ | .restPattern _ | .restMember _ => []
  | .exportAllDeclaration m source _ => [m, source.mark]
  | .exportNamedDeclaration m _ _ source => m :: (source.map (·.mark)).toList
  | .importDeclaration m _ source => [m, source.mark]
  | .template m quasis _ => m :: quasis.map (·.mark)
  | .identifier i | .identifierPattern i => [i.mark]
  | .literal l => [l.mark]
  | .program m _ | .debuggerStatement m | .directiveStatement m _ _ | .doWhileStatement m _ _
  | .emptyStatement m | .exportDefaultDeclaration m _ | .expressionStatement m _ _
  | .iterationStatement _ m _ _ _ _ | .forStatement m _ _ _ _ | .ifStatement m _ _ _
  | .returnStatement m _ | .switchStatement m _ _ | .throwStatement m _ | .tryStatement m _ _ _
  | .whileStatement m _ _ | .withStatement m _ _ | .block m _ | .declaration m _ _
  | .declarator m _ _ | .switchCase m _ _ | .catchClause m _ _ | .exportSpecifier m _ _
  | .classBody m _ | .method m _ _ _ _ _ | .arrayExpression m _ | .assignmentExpression m _ _ _
  | .awaitExpression m _ | .binaryExpression _ m _ _ _ | .callExpression m _ _ _
  | .chainExpression m _ | .conditionalExpression m _ _ _ | .importExpression m _
  | .newExpression m _ _ _ | .objectExpression m _ | .sequenceExpression m _ | .superExpression m
  | .taggedTemplate m _ _ | .thisExpression m | .unaryExpression m _ _ _
  | .updateExpression m _ _ _ | .yieldExpression m _ _ | .access m _ _ _ _ | .spread m _
  | .property m _ _ _ _ _ _ | .arrayPattern m _ | .assignmentPattern m _ _ | .objectPattern m _
  | .rest m _ | .patternProperty m _ _ _ _ => [m]
  | .breakStatement m label | .continueStatement m label => m :: (label.map (·.mark)).toList
  | .labeledStatement m label _ => [m, label.mark]
  | .importDefaultSpecifier m binding | .importNamespaceSpecifier m binding
  | .importNamedSpecifier m _ binding => [m, binding.mark]
  | .function _ m name _ _ _ _ _ => m :: (name.map (·.mark)).toList
  | .classNode _ m name _ _ => m :: (name.map (·.mark)).toList
  | .metaProperty m object prop => [m, object.mark, prop.mark]

/-- The identifiers of a tree that are not those of its parts, each with its role. A name is not
used where it is introduced. -/
def occurrences {c : Category} (role : Role) : Tree c → List (Identifier × Role)
  | .identifier i | .identifierPattern i => [(i, role)]
  | t => t.names.map (·, .skipped)

/-- The scopes that a tree opens in a role other than `skipped`, by their kinds and by the numbers
of their nodes. -/
def openings {c : Category} (o : Options) (role : Role) : Tree c → List (ScopeKind × Nat)
  | .program m _ =>
    [(.global, m.id)] ++ (if o.nodejsScope then [(.function, m.id)] else []) ++
      (if o.isEs6 && o.isModule then [(.module, m.id)] else [])
  | .function form m name _ _ _ _ _ =>
    (if form = .expression ∧ name.isSome then [(.functionName, m.id)] else []) ++
      [(.function, m.id)]
  | .catchClause m _ _ => [(.catchClause, m.id)]
  | .withStatement m _ _ => [(.withStatement, m.id)]
  | .block m _ => if role ≠ .body && o.isEs6 then [(.block, m.id)] else []
  | .switchStatement m _ _ => if o.isEs6 then [(.switchStatement, m.id)] else []
  | .classNode _ m _ _ _ => if o.isEs6 then [(.classBody, m.id)] else []
  | .forStatement m init _ _ _ =>
    if ForInit.isLexical init && o.isEs6 then [(.loop, m.id)] else []
  | .iterationStatement _ m left right _ _ =>
    if ForTarget.isLexical left && o.isEs6 then
      [(.tdz, (Expr.mark right).id), (.loop, m.id)] else []
  | _ => []

/-- The callee by which a tree calls `eval` directly, if that is of interest. -/
def evalCallees {c : Category} (o : Options) : Tree c → List Identifier
  | .callExpression _ (.identifier i) _ false =>
    if o.ignoreEval = false ∧ i.name = "eval" then [i] else []
  | _ => []

end Tree

/-- All pieces of a program. -/
def Program.pieces (o : Options) (p : Program) : List Piece :=
  Tree.pieces o .code p

namespace Piece

/-- The marks of a piece that are not those of the pieces below it. -/
def marks (u : Piece) : List Mark :=
  u.tree.ownMarks

/-- The identifiers of a piece, each with the role in which it stands. -/
def occurrences (u : Piece) : List (Identifier × Role) :=
  u.tree.occurrences u.role

/-- The scopes that a piece opens, by their kinds and by the numbers of their nodes. -/
def openings (o : Options) (u : Piece) : List (ScopeKind × Nat) :=
  match u.role with
  | .skipped => []
  | role => u.tree.openings o role

/-- The callees by which a piece calls `eval` directly. -/
def evalCallees (o : Options) (u : Piece) : List Identifier :=
  match u.role with
  | .skipped => []
  | _ => u.tree.evalCallees o

end Piece

/-- The identifiers of a program, each with the role in which it stands. -/
def Program.occurrences (o : Options) (p : Program) : List (Identifier × Role) :=
  (Program.pieces o p).flatMap Piece.occurrences

/-! ## Nodes and pieces -/

/-- The tree is a loop over a value. -/
def Tree.isIteration {c : Category} : Tree c → Bool
  | .iterationStatement .. => true
  | _ => false

namespace Piece

variable {o : Options}

/-- Only loops over values reserve names. -/
theorem tdz_notMem_openings (u : Piece) (hu : u.tree.isIteration = false) (n : Nat) :
    (.tdz, n) ∉ u.openings o := by
  obtain ⟨c, role, t⟩ := u
  have ht : (ScopeKind.tdz, n) ∉ t.openings o role := by
    cases t with
    | iterationStatement => cases hu
    | program | function | block | switchStatement | classNode | forStatement | catchClause
    | withStatement =>
      unfold Tree.openings
      grind
    | _ => exact List.not_mem_nil
  cases role <;> first | exact ht | exact List.not_mem_nil

/-- The scopes of a piece belong to its node, unless they reserve names. -/
theorem count_openings_le (u : Piece) {kind : ScopeKind} (hkind : kind ≠ .tdz) (n : Nat) :
    (u.openings o).count (kind, n) ≤ (u.marks.map (·.id)).count n := by
  obtain ⟨c, role, t⟩ := u
  have ht : (t.openings o role).count (kind, n) ≤ (t.ownMarks.map (·.id)).count n := by
    cases t with
    | iterationStatement | program | function | block | switchStatement | classNode | forStatement
    | catchClause | withStatement =>
      unfold Tree.openings Tree.ownMarks
      simp only [List.map_cons, List.count_cons]
      grind
    | _ => exact Nat.zero_le _
  cases role <;> first | exact ht | exact Nat.zero_le _

end Piece

/-- The pieces `P` of a tree in a role account for its marks. -/
structure Accounts (o : Options) (role : Role) (P : List Piece) (M : List Mark) : Prop where
  perm : (P.flatMap Piece.marks).Perm M
  /-- Everything in what is skipped is skipped. -/
  skipped : role = .skipped → ∀ u ∈ P, u.role = .skipped
  /-- A value that is looped over is not the first node of the tree. -/
  tdz_le : ∀ n, (P.flatMap (Piece.openings o)).count (.tdz, n) ≤ (M.tail.map (·.id)).count n

namespace Accounts

variable {o : Options} {role role' : Role} {c : Category} {t : Tree c} {m : Mark}
  {P Q : List Piece} {M N : List Mark}

theorem nil : Accounts o role [] [] :=
  ⟨.nil, fun _ _ h => absurd h List.not_mem_nil, fun _ => Nat.le_refl _⟩

theorem append (h : Accounts o role P M) (h' : Accounts o role Q N) :
    Accounts o role (P ++ Q) (M ++ N) where
  perm := by
    rw [List.flatMap_append]
    exact h.perm.append h'.perm
  skipped hrole v hv := by
    rcases List.mem_append.mp hv with hv | hv
    · exact h.skipped hrole v hv
    · exact h'.skipped hrole v hv
  tdz_le n := by
    have hM := h.tdz_le n
    have hN := h'.tdz_le n
    rw [List.flatMap_append, List.count_append]
    cases M with
    | nil =>
      simp only [List.tail_nil, List.map_nil, List.count_nil] at hM
      rw [List.nil_append]
      omega
    | cons m M =>
      have hle := (((List.tail_sublist N).map (·.id)).count_le n)
      simp only [List.tail_cons, List.cons_append, List.map_append, List.count_append] at hM ⊢
      omega

/-- What is skipped at least where `role` is. -/
theorem within (h : Accounts o role' P M) (hle : role = .skipped → role' = .skipped) :
    Accounts o role P M :=
  ⟨h.perm, fun hrole => h.skipped (hle hrole), h.tdz_le⟩

theorem inner (h : Accounts o (role.inner role') P M) : Accounts o role P M :=
  h.within fun hrole => by rw [hrole]; rfl

theorem skip (h : Accounts o .skipped P M) : Accounts o role P M :=
  h.within fun _ => rfl

/-- A part that is looked at only under a condition. -/
theorem skipUnless {p : Prop} [Decidable p] (h : Accounts o (if p then role else .skipped) P M) :
    Accounts o role P M :=
  h.within fun hrole => by rw [hrole, ite_self]

theorem count_tail_le (M : List Mark) (n : Nat) :
    (M.tail.map (·.id)).count n ≤ (M.map (·.id)).count n :=
  ((List.tail_sublist M).map _).count_le n

theorem tdz_cons_le (ht : t.isIteration = false) (h : Accounts o role P M) (n : Nat) :
    ((⟨c, role, t⟩ :: P).flatMap (Piece.openings o)).count (.tdz, n) ≤
      (M.tail.map (·.id)).count n := by
  rw [List.flatMap_cons, List.count_append,
    List.count_eq_zero.mpr (Piece.tdz_notMem_openings ⟨c, role, t⟩ ht n), Nat.zero_add]
  exact h.tdz_le n

/-- A piece whose own marks come first. -/
theorem enter (h : Accounts o role P M) (hmarks : t.ownMarks = N) (ht : t.isIteration = false) :
    Accounts o role (⟨c, role, t⟩ :: P) (N ++ M) where
  perm := by
    rw [List.flatMap_cons, Piece.marks, hmarks]
    exact h.perm.append_left N
  skipped hrole v hv := by
    rcases List.mem_cons.mp hv with rfl | hv
    · exact hrole
    · exact h.skipped hrole v hv
  tdz_le n := by
    have htail : M.tail.Sublist (N ++ M).tail := by
      cases N with
      | nil => exact .refl _
      | cons m N => exact (List.tail_sublist M).trans (List.sublist_append_right N M)
    exact Nat.le_trans (h.tdz_cons_le ht n) ((htail.map _).count_le n)

theorem named (N : List Mark) (h : Accounts o role P M) (hmarks : t.ownMarks = m :: N := by rfl)
    (ht : t.isIteration = false := by rfl) :
    Accounts o role (⟨c, role, t⟩ :: P) (m :: (N ++ M)) :=
  h.enter hmarks ht

theorem node (h : Accounts o role P M) (hmarks : t.ownMarks = [m] := by rfl)
    (ht : t.isIteration = false := by rfl) : Accounts o role (⟨c, role, t⟩ :: P) (m :: M) :=
  h.named [] hmarks ht

/-- A piece with nothing below it. -/
theorem leaf (hmarks : t.ownMarks = m :: N := by rfl) (ht : t.isIteration = false := by rfl) :
    Accounts o role [⟨c, role, t⟩] (m :: N) := by
  have h : Accounts o role [⟨c, role, t⟩] (m :: (N ++ [])) := nil.named N hmarks ht
  rwa [List.append_nil] at h

/-- A piece without marks of its own. -/
theorem wrap (h : Accounts o role P M) (hmarks : t.ownMarks = [] := by rfl)
    (ht : t.isIteration = false := by rfl) : Accounts o role (⟨c, role, t⟩ :: P) M :=
  h.enter hmarks ht

/-- The order of the marks after the first does not matter. -/
theorem permute (h : Accounts o role P (m :: M)) (hperm : M.Perm N) :
    Accounts o role P (m :: N) where
  perm := h.perm.trans (hperm.cons m)
  skipped := h.skipped
  tdz_le n := by
    rw [List.tail_cons, ← (hperm.map (·.id)).count_eq]
    exact h.tdz_le n

/-- A loop over a value reserves names for the node of the value. -/
theorem iteration {form : IterationForm} {left : Tree .forTarget} {right : Expr} {body : Stmt}
    {await : Bool} {R B : List Piece} (hleft : Accounts o role P left.marks)
    (hright : Accounts o role R right.marks) (hbody : Accounts o role B body.marks) :
    Accounts o role (⟨_, role, .iterationStatement form m left right body await⟩ :: (P ++ R ++ B))
      (m :: (left.marks ++ right.marks ++ body.marks)) where
  perm := (((hleft.append hright).append hbody).perm).cons m
  skipped hrole v hv := by
    rcases List.mem_cons.mp hv with rfl | hv
    · exact hrole
    · exact ((hleft.append hright).append hbody).skipped hrole v hv
  tdz_le n := by
    obtain ⟨M, hM⟩ := Expr.marks_eq_cons right
    have hself : (Piece.openings o
        ⟨_, role, .iterationStatement form m left right body await⟩).count (.tdz, n) ≤
        [(Expr.mark right).id].count n := by
      cases role <;> unfold Piece.openings Tree.openings <;> grind
    have hL := hleft.tdz_le n
    have hR := hright.tdz_le n
    have hB := hbody.tdz_le n
    have hL' := count_tail_le left.marks n
    have hB' := count_tail_le body.marks n
    rw [hM, List.tail_cons] at hR
    simp only [hM, List.flatMap_cons, List.flatMap_append, List.count_append, List.tail_cons,
      List.map_append, List.map_cons, List.count_cons, List.count_nil] at hself ⊢
    omega

end Accounts

namespace Tree

/-- The pieces of a tree account for its marks. -/
theorem accounts {c : Category} (o : Options) : (role : Role) → (t : Tree c) →
    Accounts o role (t.pieces o role) t.marks
  | _, .nil | _, .absent => .wrap .nil
  | role, .cons head tail =>
    .wrap ((accounts o role head).append
      ((accounts o role.rest tail).within fun h => by rw [h]; rfl))
  | role, .present part => .wrap (accounts o role part)
  | role, .program _ body => .node (accounts o role body)
  | role, .blockStatement b => .wrap (accounts o role b)
  | _, .breakStatement _ _ | _, .continueStatement _ _ => .leaf
  | role, .classDeclaration declared => .wrap (accounts o role declared)
  | _, .debuggerStatement _ | _, .directiveStatement _ _ _ | _, .emptyStatement _ => .leaf
  | role, .doWhileStatement _ body test =>
    .node ((accounts o role body).append (accounts o role test))
  | _, .exportAllDeclaration _ source exported =>
    .named [source.mark] (accounts o .skipped exported).skip
  | role, .exportDefaultDeclaration _ d => .node (accounts o role d)
  | role, .exportNamedDeclaration _ d specifiers source =>
    .permute (.named (source.map (·.mark)).toList
      (((accounts o _ d).within fun h => by rw [h, ite_self]).append
        ((accounts o _ specifiers).within fun h => by rw [h, ite_self]))) List.perm_append_comm
  | role, .expressionStatement _ e _ => .node (accounts o role e)
  | role, .iterationStatement _ _ left right body _ =>
    .iteration (accounts o role left) (accounts o role right) (accounts o role body)
  | role, .forStatement _ init test update body =>
    .node ((((accounts o role init).append (accounts o role test)).append
      (accounts o role update)).append (accounts o role body))
  | role, .functionDeclaration declared => .wrap (accounts o role declared)
  | role, .ifStatement _ test consequent alternate =>
    .node (((accounts o role test).append (accounts o role consequent)).append
      (accounts o role alternate))
  | role, .importDeclaration _ specifiers source =>
    .permute (.named [source.mark] (accounts o role specifiers)) List.perm_append_comm
  | role, .labeledStatement _ label body => .named [label.mark] (accounts o role body)
  | role, .returnStatement _ argument => .node (accounts o role argument)
  | role, .switchStatement _ discriminant cases =>
    .node ((accounts o role discriminant).append (accounts o role cases))
  | role, .throwStatement _ argument => .node (accounts o role argument)
  | role, .tryStatement _ b handler finalizer =>
    .node (((accounts o role b).append (accounts o role handler)).append
      (accounts o role finalizer))
  | role, .variableDeclaration d => .wrap (accounts o role d)
  | role, .whileStatement _ test body =>
    .node ((accounts o role test).append (accounts o role body))
  | role, .withStatement _ object body =>
    .node ((accounts o role object).append (accounts o role body))
  | role, .block _ body => .node (accounts o (role.inner .code) body).inner
  | role, .declaration _ _ declarators => .node (accounts o role declarators)
  | role, .declarator _ target init =>
    .node ((accounts o _ target).inner.append
      ((accounts o role.initial init).within fun h => by rw [h]; rfl))
  | role, .switchCase _ test consequent =>
    .node ((accounts o role test).append (accounts o role consequent))
  | role, .catchClause _ param body =>
    .node ((accounts o _ param).inner.append (accounts o role body))
  | role, .initDeclaration d => .wrap (accounts o role d)
  | role, .initExpression e => .wrap (accounts o role e)
  | _, .targetDeclaration d => .wrap (accounts o _ d).inner
  | _, .targetPattern p => .wrap (accounts o _ p).inner
  | _, .importDefaultSpecifier _ _ | _, .importNamespaceSpecifier _ _ => .leaf
  | _, .importNamedSpecifier _ imported binding =>
    .permute (.named [binding.mark] (accounts o .skipped imported).skip) List.perm_append_comm
  | role, .exportSpecifier _ binding exported =>
    .node ((accounts o role binding).append (accounts o .skipped exported).skip)
  | role, .defaultFunction declared => .wrap (accounts o role declared)
  | role, .defaultClass declared => .wrap (accounts o role declared)
  | role, .defaultExpression e => .wrap (accounts o role e)
  | role, .function _ _ name params body _ _ _ =>
    .permute (.named (name.map (·.mark)).toList
      ((accounts o _ params).inner.append (accounts o role body)))
      (.of_eq (List.append_assoc _ _ _).symm)
  | role, .blockBody b => .wrap (accounts o (role.inner .body) b).inner
  | role, .expressionBody e => .wrap (accounts o role e)
  | role, .classNode _ _ name superclass body =>
    .permute (.named (name.map (·.mark)).toList
      ((accounts o role superclass).append (accounts o role body)))
      (.of_eq (List.append_assoc _ _ _).symm)
  | role, .classBody _ members => .node (accounts o role members)
  | role, .method _ key value _ _ _ =>
    .node ((accounts o _ key).skipUnless.append (accounts o role value))
  | role, .arrayExpression _ elements => .node (accounts o role elements)
  | role, .arrowFunction fn => .wrap (accounts o role fn)
  | role, .assignmentExpression _ _ left right =>
    .node ((accounts o _ left).inner.append (accounts o role right))
  | role, .awaitExpression _ argument => .node (accounts o role argument)
  | role, .binaryExpression _ _ _ left right =>
    .node ((accounts o role left).append (accounts o role right))
  | role, .callExpression _ callee arguments _ =>
    .node ((accounts o role callee).append (accounts o role arguments))
  | role, .chainExpression _ e => .node (accounts o role e)
  | role, .classExpression value => .wrap (accounts o role value)
  | role, .conditionalExpression _ test consequent alternate =>
    .node (((accounts o role test).append (accounts o role consequent)).append
      (accounts o role alternate))
  | role, .functionExpression fn => .wrap (accounts o role fn)
  | _, .identifier _ | _, .literal _ => .leaf
  | role, .importExpression _ source => .node (accounts o role source)
  | role, .memberExpression a => .wrap (accounts o role a)
  | _, .metaProperty _ _ _ => .leaf
  | role, .newExpression _ callee arguments _ =>
    .node ((accounts o role callee).append (accounts o role arguments))
  | role, .objectExpression _ members => .node (accounts o role members)
  | role, .sequenceExpression _ expressions => .node (accounts o role expressions)
  | role, .spreadExpression s => .wrap (accounts o role s)
  | _, .superExpression _ | _, .thisExpression _ => .leaf
  | role, .taggedTemplate _ tag quasi =>
    .node ((accounts o role tag).append (accounts o role quasi))
  | role, .templateExpression t => .wrap (accounts o role t)
  | role, .unaryExpression _ _ _ argument => .node (accounts o role argument)
  | role, .updateExpression _ _ _ argument =>
    .node ((accounts o _ argument).within fun h => by rw [h]; exact ite_self _)
  | role, .yieldExpression _ argument _ => .node (accounts o role argument)
  | role, .access _ object prop _ _ =>
    .node ((accounts o role object).append (accounts o _ prop).skipUnless)
  | role, .spread _ argument => .node (accounts o role argument)
  | role, .template _ quasis expressions =>
    .named (quasis.map TemplateElement.mark) (accounts o role expressions)
  | role, .property _ key value _ _ _ _ =>
    .node ((accounts o _ key).skipUnless.append (accounts o role value))
  | role, .spreadMember s => .wrap (accounts o role s)
  | role, .arrayPattern _ elements => .node (accounts o role elements)
  | role, .assignmentPattern _ left right =>
    .node (((accounts o role.withDefault left).within fun h => by rw [h]; rfl).append
      (accounts o _ right).inner)
  | _, .identifierPattern _ => .leaf
  | _, .memberPattern a => .wrap (accounts o _ a).inner
  | role, .objectPattern _ members => .node (accounts o role members)
  | role, .restPattern r => .wrap (accounts o role r)
  | role, .rest _ argument => .node (accounts o role argument)
  | role, .patternProperty _ key value _ _ =>
    .node ((accounts o _ key).skipUnless.inner.append (accounts o role value))
  | role, .restMember r => .wrap (accounts o role r)

end Tree

end EcmaScope
