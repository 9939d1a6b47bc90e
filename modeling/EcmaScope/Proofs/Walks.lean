import EcmaScope.Proofs.Clauses

/-!
# The walk speaks in phrases

The actions of every part of a program are a phrase, and the ledger of the phrase is that of the
pieces of the part. So the walk makes exactly the uses of names and opens exactly the scopes that
the roles of the pieces ask for, and it declares names only in the ways that the grammar of phrases
allows.

## Main definitions

* `Category.isWalked`: trees that are walked as code.
* `Walked`: what is known of the actions of a tree, and of the expressions in it.

## Main results

* `Tree.walked`: the actions of trees are phrases.
* `Program.speaks`: the same for programs.
-/

namespace EcmaScope

open EcmaScope.Action

/-- Trees of this category are walked as code. The others are programs, and what takes values apart
or is dealt with by the construct around it. -/
def Category.isWalked : Category → Bool
  | .program | .pattern | .rest | .patternMember | .declarator | .forTarget => false
  | .list c | .optional c => c.isWalked
  | _ => true

/-- What is known of the actions of a tree, and of the expressions that it evaluates if it is a
pattern or a declaration. -/
structure Walked (o : Options) {c : Category} (t : Tree c) : Prop where
  told : c.isWalked = true → Told o t
  evaluated : ∀ e ∈ t.evaluated, Told o e
  computed : ∀ e ∈ t.computed, Told o e

namespace Walked

variable {o : Options} {c : Category} {t : Tree c}

theorem of (h : Told o t) (he : t.evaluated = [] := by rfl) (hc : t.computed = [] := by rfl) :
    Walked o t where
  told _ := h
  evaluated := by
    rw [he]
    exact fun e h => absurd h List.not_mem_nil
  computed := by
    rw [hc]
    exact fun e h => absurd h List.not_mem_nil

theorem speaks (h : Walked o t) (method : Bool) (hc : c.isWalked = true := by rfl) :
    Speaks o (.code none) t.marks (ledger o (t.pieces o .code)) (t.actions o (.code method)) :=
  (h.told hc method).speaks

end Walked

/-! ## Constructs that open scopes -/

section

variable {o : Options} {mode : Mode} {c : Category} {t : Tree c} {m : Mark} {method : Bool}
  {M N : List Mark} {P Q : List Piece} {K : Ledger} {A B : List Action}

/-- What is entered for a construct other than an identifier or a call is the scopes that it opens:
it uses none of the names that it introduces. -/
theorem Piece.ledger_eq_openings
    (hnames : t.occurrences .code = t.names.map (·, .skipped) := by rfl)
    (hcallees : t.evalCallees o = [] := by rfl) :
    Piece.ledger o ⟨c, .code, t⟩ = .openings (t.openings o .code) := by
  have huses {f : Identifier × Role → List (Identifier × String)} (hf : ∀ i, f (i, .skipped) = []) :
      (t.occurrences .code).flatMap f = [] := by
    rw [hnames, List.flatMap_map, List.flatMap_eq_nil_iff]
    exact fun i _ => hf i
  have hcalls : Piece.evalCallees o ⟨c, .code, t⟩ = [] := hcallees
  rw [Piece.ledger, Piece.occurrences, huses fun _ => rfl, hcalls]
  rfl

namespace Speaks

/-- Scopes are opened after a first part. -/
theorem thenOpen (hA : Speaks o mode M (ledger o P) A) (hB : Phrase o mode [] K B) :
    Speaks o mode M (K + ledger o P) (A ++ B) := by
  have h := hA.add (Speaks.of_phrase (M := []) hB)
  rwa [List.append_nil, add_comm] at h

/-- Scopes are opened first of all. -/
theorem start (h : Phrase o mode [] K A) : Speaks o mode [] (K + ledger o []) A := by
  rw [ledger_nil, add_zero]
  exact .of_phrase h

/-- A further part. -/
theorem more (hA : Speaks o mode M (K + ledger o P) A)
    (hB : Speaks o (.code none) N (ledger o Q) B) :
    Speaks o mode (M ++ N) (K + ledger o (P ++ Q)) (A ++ B) := by
  rw [ledger_append, ← add_assoc]
  exact hA.add hB.embed

end Speaks

/-- A phrase that opens a scope under a condition. -/
theorem Phrase.openIf (p : Prop) [Decidable p] {kind : ScopeKind}
    (hkind : kind ≠ .functionName ∧ kind ≠ .tdz) (construct : AnchorKind) (m : Mark)
    (strict : Bool) :
    Phrase o (.code (some m.id)) [] (.openings (if p then [(kind, m.id)] else []))
      (if p then [.openScope kind ⟨construct, m⟩ strict] else []) := by
  split
  · exact .openScope kind ⟨construct, m⟩ strict hkind
  · exact .nil

namespace Roots

/-- A construct that closes the scopes that it has opened. -/
theorem close (h : Speaks o (.code (some m.id)) M (.openings (t.openings o .code) + ledger o P) A)
    (hnames : t.occurrences .code = t.names.map (·, .skipped) := by rfl)
    (hcallees : t.evalCallees o = [] := by rfl) :
    Roots o (m :: M) (ledger o (⟨c, .code, t⟩ :: P)) (A ++ [Action.closeScopes m.id]) := by
  rw [ledger_cons, Piece.ledger_eq_openings hnames hcallees]
  exact .scopes 0 h

/-- A block. -/
private theorem block {body : Tree (.list .statement)} (hbody : Walked o body) :
    Roots o (Tree.block m body).marks (ledger o ((Tree.block m body).pieces o .code))
      ((Tree.block m body).actions o (.code method)) :=
  close ((Speaks.start (.openIf (o.isEs6 = true) (by decide) .block m false)).more
    (hbody.speaks _ rfl)) rfl rfl

/-- A loop with a counter. -/
private theorem forStatement {init : Tree (.optional .forInit)}
    {test update : Tree (.optional .expression)} {body : Stmt} (hinit : Walked o init)
    (htest : Walked o test) (hupdate : Walked o update) (hbody : Walked o body) :
    Roots o (Tree.forStatement m init test update body).marks
      (ledger o ((Tree.forStatement m init test update body).pieces o .code))
      ((Tree.forStatement m init test update body).actions o (.code method)) := by
  refine close (((((Speaks.start ?_).more (hinit.speaks _ rfl)).more (htest.speaks _ rfl)).more
    (hupdate.speaks _ rfl)).more (hbody.speaks _ rfl)) rfl rfl
  cases init with
  | absent => exact .nil
  | present i =>
    cases i with
    | initExpression e => exact .nil
    | initDeclaration d =>
      cases d with
      | declaration dm kind declarators => exact .openIf _ (by decide) _ m false

/-- A switch statement. -/
private theorem switchStatement {discriminant : Expr} {cases : Tree (.list .switchCase)}
    (hdiscriminant : Walked o discriminant) (hcases : Walked o cases) :
    Roots o (Tree.switchStatement m discriminant cases).marks
      (ledger o ((Tree.switchStatement m discriminant cases).pieces o .code))
      ((Tree.switchStatement m discriminant cases).actions o (.code method)) :=
  close (((hdiscriminant.speaks _ rfl).embed.thenOpen
    (.openIf (o.isEs6 = true) (by decide) .switchStatement m false)).more (hcases.speaks _ rfl))
    rfl rfl

/-- A statement that adds the properties of an object to the names. -/
private theorem withStatement {object : Expr} {body : Stmt} (hobject : Walked o object)
    (hbody : Walked o body) :
    Roots o (Tree.withStatement m object body).marks
      (ledger o ((Tree.withStatement m object body).pieces o .code))
      ((Tree.withStatement m object body).actions o (.code method)) :=
  close (((hobject.speaks _ rfl).embed.thenOpen
    (.openScope .withStatement ⟨.withStatement, m⟩ false (by decide))).more (hbody.speaks _ rfl))
    rfl rfl

/-- A clause that catches what is thrown. -/
private theorem catchClause {param : Tree (.optional .pattern)} {body : Tree .block}
    (hparam : ∀ e ∈ param.evaluated, Told o e) (hbody : Walked o body) :
    Roots o (Tree.catchClause m param body).marks
      (ledger o ((Tree.catchClause m param body).pieces o .code))
      ((Tree.catchClause m param body).actions o (.code method)) := by
  refine close (Speaks.more ?_ (hbody.speaks _ rfl)) rfl rfl
  cases param with
  | absent =>
    exact (Speaks.start (.openScope .catchClause ⟨.catchClause, m⟩ false (by decide))).more
      (Speaks.nil (M := []).enter rfl)
  | present p =>
    have hp := Speaks.patternWith (.catchClause m (.bindTargets (fun _ => ⟨rfl, rfl⟩) p))
      (fun n => Nat.le_refl _) hparam method
    change Speaks o _ _ (_ + ledger o (⟨.optional .pattern, .target 0, .present p⟩ ::
      p.pieces o (.target 0))) _
    rwa [ledger_cons_of_eq_zero rfl]

private theorem count_name_le (name : Option Identifier) (n : Nat) :
    (name.map (·.mark.id)).toList.count n ≤ ((name.map (·.mark)).toList.map (·.id)).count n := by
  cases name <;> exact Nat.le_refl _

/-- A function. -/
private theorem function {form : FunctionForm} {name : Option Identifier}
    {params : Tree (.list .pattern)} {body : Tree .functionBody} {generator async expression : Bool}
    (hparams : ∀ e ∈ params.evaluated, Told o e) (hbody : Walked o body) :
    Roots o (Tree.function form m name params body generator async expression).marks
      (ledger o ((Tree.function form m name params body generator async expression).pieces o .code))
      ((Tree.function form m name params body generator async expression).actions o
        (.code method)) := by
  obtain ⟨I, hI, hphrase⟩ := Speaks.parameters ⟨.function form, m⟩ params 0 hparams
  let strict := form = .arrow || method || FunctionBody.hasUseStrict o.directive body
  have hhead : Speaks o (.code (some m.id)) ((name.map (·.mark)).toList ++ params.marks) _ _ :=
    ⟨_, count_append_le (count_name_le name) hI, .function form m name strict hphrase⟩
  have hsame : Tree.functionName form ⟨.function form, m⟩ name ++
      [Action.openScope .function ⟨.function form, m⟩ strict, .beginSite .innermost] ++
      params.actions o (.parameters ⟨.function form, m⟩ 0) ++ [Action.endSite] ++
      body.actions o (.code false) ++ [Action.closeScopes m.id] =
      Tree.functionName form ⟨.function form, m⟩ name ++
        scope .function ⟨.function form, m⟩ strict
          (params.actions o (.parameters ⟨.function form, m⟩ 0)) ++
      body.actions o (.code false) ++ [Action.closeScopes m.id] := by
    simp only [List.append_assoc, List.cons_append, List.nil_append]
  change Roots o _ _
    (_ ++ [Action.openScope .function ⟨.function form, m⟩ strict, _] ++ _ ++ _ ++ _ ++ _)
  rw [hsame]
  exact close (hhead.more (hbody.speaks false rfl)) rfl rfl

/-- A class. -/
private theorem classNode {form : ClassForm} {name : Option Identifier}
    {superclass : Tree (.optional .expression)} {body : Tree .classBody}
    (hsuper : Walked o superclass) (hbody : Walked o body) :
    Roots o (Tree.classNode form m name superclass body).marks
      (ledger o ((Tree.classNode form m name superclass body).pieces o .code))
      ((Tree.classNode form m name superclass body).actions o (.code method)) := by
  obtain ⟨I, hI, hphrase⟩ := hsuper.speaks method
  refine close (Speaks.more ?_ (hbody.speaks _ rfl)) rfl rfl
  exact ⟨_, count_append_le (count_name_le name) hI, .classNode form m name hphrase⟩

end Roots

/-! ## Loops over values -/

namespace Roots

/-- A scope of the node that was opened before its actions is closed after them. -/
theorem exists_scopes {L : Ledger} (h : Roots o (m :: M) L A) : ∃ k B,
    A ++ [Action.closeScopes m.id] = B ++ List.replicate (k + 1) (Action.closeScopes m.id) ∧
      Speaks o (.code (some m.id)) M L B := by
  cases h with
  | node h => exact ⟨0, A, rfl, h.embed⟩
  | @scopes _ _ _ B k h =>
    refine ⟨k + 1, B, ?_, h⟩
    rw [List.append_assoc, ← List.replicate_succ']

variable {form : IterationForm} {dm : Mark} {kind : VariableKind} {right : Expr} {body : Stmt}
  {await : Bool}

/-- A member that is assigned to by itself is walked like one that is read. -/
theorem access {a : Tree .access} (h : ∀ e ∈ (Tree.memberPattern a).evaluated, Told o e) :
    Roots o a.marks (ledger o (a.pieces o .code)) (a.actions o (.code method)) := by
  cases a with
  | access am object prop computed isOptional =>
    have hobject := h object (List.mem_append_right _ (List.mem_singleton_self _))
    have hprop : Speaks o (.code none) prop.marks
        (ledger o (prop.pieces o (if computed then .code else .skipped)))
        (if computed then prop.actions o (.code method) else []) := by
      cases computed with
      | false => exact .skipped prop
      | true => exact (h prop List.mem_cons_self method).speaks
    exact .of ((hobject method).speaks.append hprop) rfl

/-- A loop over a value whose items are assigned to a pattern. -/
private theorem assigningLoop {p : Pat} (hpattern : ∀ e ∈ p.evaluated, Told o e)
    (hright : Walked o right) (hbody : Walked o body) :
    Roots o (Tree.iterationStatement form m (.targetPattern p) right body await).marks
      (ledger o ((Tree.iterationStatement form m (.targetPattern p) right body await).pieces o
        .code))
      ((Tree.iterationStatement form m (.targetPattern p) right body await).actions o
        (.code method)) := by
  have htarget : Speaks o (.code none) p.marks (ledger o (p.pieces o (.target 1)))
      (assignTargets ⟨.iteration form, m⟩ (Expr.anchor right) (fun _ => true) p ++
        p.actions o (.code method)) :=
    .pattern (.assignTargets _ _ _ p) (fun n => by simp) hpattern method
  have hall {B : List Action}
      (h : Speaks o (.code none) p.marks (ledger o (p.pieces o (.target 1))) B) :=
    ((h.enter (u := ⟨.forTarget, .code, .targetPattern p⟩) rfl).append
      (hright.speaks method rfl)).append (hbody.speaks method rfl)
  cases p with
  | memberPattern a => exact .of (hall ((access hpattern).speaks.enter rfl)) rfl
  | _ => exact .of (hall htarget) rfl

private theorem ledger_emptyHead :
    ledger o ((Tree.targetDeclaration (.declaration dm kind .nil)).pieces o .code) = 0 := by
  change ledger o [⟨.forTarget, .code, _⟩, ⟨.declaration, .head _, _⟩,
    ⟨.list .declarator, .head _, .nil⟩] = 0
  rw [ledger_cons_of_eq_zero rfl, ledger_cons_of_eq_zero rfl, ledger_cons_of_eq_zero rfl,
    ledger_nil]

private theorem ledger_targetDeclaration (ds : Tree (.list .declarator)) :
    ledger o ((Tree.targetDeclaration (.declaration dm kind ds)).pieces o .code) =
      ledger o (Tree.pieces o (.head (kind.isLexical && o.isEs6)) (.declaration dm kind ds)) := by
  have hpieces : (Tree.targetDeclaration (.declaration dm kind ds)).pieces o .code =
      ⟨.forTarget, .code, _⟩ :: Tree.pieces o (.head (kind.isLexical && o.isEs6))
        (.declaration dm kind ds) := rfl
  rw [hpieces, ledger_cons_of_eq_zero rfl]

/-- What is entered for the head of a loop whose rounds have their own variables. -/
theorem ledger_lexicalHead (hkind : (kind.isLexical && o.isEs6) = true) (m : Mark) (target : Pat)
    (init : Tree (.optional .expression)) (rest : Tree (.list .declarator)) :
    ledger o ((Tree.targetDeclaration
        (.declaration dm kind (.cons (.declarator m target init) rest))).pieces o .code) =
      .written (1 + (init.isPresent.toNat + init.isPresent.toNat)) (Pat.targets target) +
        Tree.codeLedger o target.evaluated := by
  rw [ledger_targetDeclaration, hkind]
  change ledger o (⟨.declaration, .head true, _⟩ :: ⟨.list .declarator, .head true, _⟩ ::
    ((⟨.declarator, .head true, .declarator m target init⟩ ::
      (target.pieces o (.target _) ++ init.pieces o .skipped)) ++ rest.pieces o .skipped)) = _
  rw [ledger_cons_of_eq_zero rfl, ledger_cons_of_eq_zero rfl, ledger_append,
    ledger_cons_of_eq_zero rfl, ledger_append, init.ledger_skipped, rest.ledger_skipped, add_zero,
    add_zero]
  exact Pat.ledger_pieces o target _

/-- What is entered for the head of another loop: the first declarator also receives the items. -/
theorem ledger_head (hkind : (kind.isLexical && o.isEs6) = false) (m : Mark) (target : Pat)
    (init : Tree (.optional .expression)) (rest : Tree (.list .declarator)) :
    ledger o ((Tree.targetDeclaration
        (.declaration dm kind (.cons (.declarator m target init) rest))).pieces o .code) =
      ledger o (Tree.pieces o .code (.cons (.declarator m target init) rest)) +
        .given 1 (Pat.targets target) := by
  rw [ledger_targetDeclaration, hkind]
  change ledger o (⟨.declaration, .head false, _⟩ :: ⟨.list .declarator, .head false, _⟩ ::
    ((⟨.declarator, .head false, .declarator m target init⟩ ::
      (target.pieces o (.target (1 + init.isPresent.toNat)) ++ init.pieces o .code)) ++
        rest.pieces o .code)) =
    ledger o (⟨.list .declarator, .code, _⟩ ::
    ((⟨.declarator, .code, .declarator m target init⟩ ::
      (target.pieces o (.target init.isPresent.toNat) ++ init.pieces o .code)) ++
        rest.pieces o .code)) + _
  rw [ledger_cons_of_eq_zero rfl, ledger_cons_of_eq_zero rfl, ledger_cons_of_eq_zero rfl,
    ledger_append, ledger_append, ledger_cons_of_eq_zero rfl, ledger_cons_of_eq_zero rfl,
    ledger_append, ledger_append, Pat.ledger_pieces, Pat.ledger_pieces, Nat.add_comm 1,
    Ledger.written_add]
  ac_rfl

end Roots

/-- The head of a loop whose rounds have their own variables: the names are reserved, the value is
computed, and then the names are bound and receive the items. -/
theorem Speaks.lexicalHead (value block declaration : Anchor) (k : Nat) {L : Ledger}
    {kind : VariableKind} (hkind : kind.isLexical = true)
    (hB : Speaks o (.code (some value.id)) N L B) (fm : Mark) {target : Pat}
    (init : Tree (.optional .expression)) (rest : Tree (.list .declarator))
    (he : ∀ e ∈ target.evaluated, Told o e) :
    Speaks o (.code (some block.id)) (target.marks ++ value.mark :: N)
      (.openings [(.tdz, value.id)] + .openings [(.loop, block.id)] +
        (.written (1 + (init.isPresent.toNat + init.isPresent.toNat)) (Pat.targets target) +
          Tree.codeLedger o target.evaluated + L))
      (scope .tdz value false
          (bindDeclarator (.tdz declaration 0 kind) true (.declarator fm target init)) ++ B ++
        List.replicate (k + 1) (closeScopes value.id) ++
        scope .loop block false
          (bindDeclarator (.declared declaration 0 kind) false (.declarator fm target init)) ++
        target.actions o (.code false) ++
        bindItems value (.cons (.declarator fm target init) rest)) := by
  obtain ⟨I, hI, hB⟩ := hB
  obtain ⟨J, hJ, hevaluated⟩ := Speaks.evaluated he false
  have hreserved (i : Identifier) (node : Anchor) :
      Definition.IsReserved ⟨.tdz declaration 0 kind, i, node⟩ := trivial
  have hbound (i : Identifier) (node : Anchor) :
      Definition.Floats .innermost ⟨.declared declaration 0 kind, i, node⟩ := (if_pos hkind).symm
  have hphrase := ((Phrase.loop value block k
    (.bindDeclarator hreserved true fm target init)
    (fun _ => isPlain_or_declare_of_mem_bindDeclarator) hB
    (.bindDeclarator hbound false fm target init)
    (fun _ => isPlain_or_declare_of_mem_bindDeclarator)).append (.embed hevaluated)).append
      (.embed (.bindItems value fm target init rest))
  rw [target.actions_eq_evaluated rfl]
  refine ⟨_, fun n => ?_, hphrase.cast ?_⟩
  · have hcount := target.count_targets_le (Pat.mark target).id [] none n
    have hIn := hI n
    have hJn := hJ n
    simp only [List.count_append, List.count_cons, List.count_nil, List.map_append, List.map_cons,
      Anchor.id, Pat.targets] at hcount ⊢
    omega
  · rw [if_pos rfl, if_neg Bool.false_ne_true, Nat.add_comm 1, Ledger.written_add,
      Ledger.written_add]
    ac_rfl

theorem mem_computed_first {fm : Mark} {target : Pat} {init : Tree (.optional .expression)}
    {rest : Tree (.list .declarator)} {e : Expr} (he : e ∈ target.evaluated) :
    e ∈ (Tree.cons (.declarator fm target init) rest).computed :=
  List.mem_append_left _ (mem_computed_target he)

theorem append_closing {α : Type} {X R B T : List α} {c l : α} (h : R ++ [c] = B ++ T) :
    X ++ R ++ [c, l] = X ++ B ++ T ++ [l] := by
  have hsplit : R ++ [c, l] = B ++ T ++ [l] := by
    rw [← h, List.append_assoc]
    rfl
  rw [List.append_assoc X, hsplit, List.append_assoc X B, List.append_assoc X]

namespace Roots

variable {form : IterationForm} {dm : Mark} {kind : VariableKind} {right : Expr} {body : Stmt}
  {await : Bool}

/-- A loop over a value whose rounds have their own variables. -/
private theorem lexicalLoop {ds : Tree (.list .declarator)}
    (hkind : (kind.isLexical && o.isEs6) = true) (hds : ∀ e ∈ ds.computed, Told o e)
    (hright : Told o right) (hbody : Walked o body) :
    Roots o (Tree.iterationStatement form m (.targetDeclaration (.declaration dm kind ds)) right
        body await).marks
      (ledger o ((Tree.iterationStatement form m (.targetDeclaration (.declaration dm kind ds))
        right body await).pieces o .code))
      ((Tree.iterationStatement form m (.targetDeclaration (.declaration dm kind ds)) right body
        await).actions o (.code method)) := by
  obtain ⟨N, hN⟩ := Expr.marks_eq_cons right
  have hvalue : Roots o right.marks (ledger o (right.pieces o .code))
    (right.actions o (.code method)) := hright method
  rw [hN] at hvalue
  obtain ⟨k, B, hclose, hB⟩ := hvalue.exists_scopes
  change _ ++ [Action.closeScopes (Expr.anchor right).id] =
    B ++ List.replicate (k + 1) (Action.closeScopes (Expr.anchor right).id) at hclose
  have hself : Piece.ledger o ⟨.statement, .code, .iterationStatement form m
      (.targetDeclaration (.declaration dm kind ds)) right body await⟩ =
      .openings [(.tdz, (Expr.mark right).id)] + .openings [(.loop, m.id)] := by
    refine (Piece.ledger_eq_openings rfl rfl).trans ?_
    change Ledger.openings (if (kind.isLexical && o.isEs6) = true then _ else _) = _
    rw [if_pos hkind]
    rfl
  change Roots o (m :: (dm :: ds.marks ++ right.marks ++ body.marks)) (ledger o
    (⟨.statement, .code, _⟩ :: ((Tree.targetDeclaration (.declaration dm kind ds)).pieces o .code ++
      right.pieces o .code ++ body.pieces o .code)))
    (if (kind.isLexical && o.isEs6) = true then _ else _)
  rw [if_pos hkind, ledger_cons, hself, hN, append_closing hclose]
  refine .scopes 0 (Speaks.more ?_ (hbody.speaks method rfl))
  rw [ledger_append]
  cases ds with
  | nil =>
    have hhead : Tree.actions o .head (.nil : Tree (.list .declarator)) = [] := rfl
    have hloop : Speaks o (.code (some m.id)) [] _ _ :=
      .of_phrase (.openScope .loop ⟨.iteration form, m⟩ false (by decide))
    have hall := (hB.value (Expr.anchor right) k).embed.add hloop
    rw [List.append_nil, add_right_comm] at hall
    rw [ledger_emptyHead, zero_add]
    simp only [bindFirst, bindItems, hhead, List.append_nil]
    exact hall.cons
  | cons first rest =>
    cases first with
    | declarator fm target init =>
      rw [ledger_lexicalHead hkind]
      have hhead := Speaks.lexicalHead (Expr.anchor right) ⟨.iteration form, m⟩ ⟨.declaration, dm⟩ k
        (Bool.and_eq_true_iff.mp hkind).1 hB fm init rest fun e he => hds e (mem_computed_first he)
      rw [List.append_assoc _ [openScope .loop ⟨.iteration form, m⟩ false]]
      refine hhead.mono fun n => ?_
      change ((target.marks ++ Expr.mark right :: N).map _).count n ≤
        ((dm :: ((fm :: (target.marks ++ init.marks)) ++ rest.marks) ++
          Expr.mark right :: N).map _).count n
      simp only [List.map_append, List.map_cons, List.count_append, List.count_cons,
        List.cons_append]
      omega

/-- A loop over a value that declares variables around the loop. -/
private theorem declaringLoop {ds : Tree (.list .declarator)}
    (hkind : (kind.isLexical && o.isEs6) = false) (hds : ∀ e ∈ ds.computed, Told o e)
    (hright : Walked o right) (hbody : Walked o body) :
    Roots o (Tree.iterationStatement form m (.targetDeclaration (.declaration dm kind ds)) right
        body await).marks
      (ledger o ((Tree.iterationStatement form m (.targetDeclaration (.declaration dm kind ds))
        right body await).pieces o .code))
      ((Tree.iterationStatement form m (.targetDeclaration (.declaration dm kind ds)) right body
        await).actions o (.code method)) := by
  have hself : Piece.ledger o ⟨.statement, .code, .iterationStatement form m
      (.targetDeclaration (.declaration dm kind ds)) right body await⟩ = 0 := by
    refine (Piece.ledger_eq_openings rfl rfl).trans ?_
    change Ledger.openings (if (kind.isLexical && o.isEs6) = true then _ else _) = _
    rw [hkind]
    rfl
  have hleft : Speaks o (.code none) (dm :: ds.marks)
      (ledger o ((Tree.targetDeclaration (.declaration dm kind ds)).pieces o .code))
      ([Action.beginSite (if kind.isLexical then .innermost else .variableScope)] ++
        ds.actions o (.declarators ⟨.declaration, dm⟩ kind 0) ++ [Action.endSite] ++
        bindItems (Expr.anchor right) ds) := by
    have hsite := (Speaks.declarators ⟨.declaration, dm⟩ kind ds 0 hds).site
    cases ds with
    | nil =>
      rw [ledger_emptyHead]
      exact .of_phrase (.site _ .nil)
    | cons first rest =>
      cases first with
      | declarator fm target init =>
        rw [ledger_head hkind]
        have hitems := Phrase.bindItems (o := o) (Expr.anchor right) fm target init rest
        have hall := hsite.add (.of_phrase (M := []) hitems)
        rw [List.append_nil] at hall
        exact hall.cons
  change Roots o (m :: (dm :: ds.marks ++ right.marks ++ body.marks)) (ledger o
    (⟨.statement, .code, _⟩ :: ((Tree.targetDeclaration (.declaration dm kind ds)).pieces o .code ++
      right.pieces o .code ++ body.pieces o .code)))
    (if (kind.isLexical && o.isEs6) = true then _ else _)
  rw [hkind, if_neg Bool.false_ne_true]
  exact .of ((hleft.append (hright.speaks method rfl)).append (hbody.speaks method rfl)) hself

end Roots

/-! ## Imports, calls and assignments -/

/-- An import specifier uses no names. -/
theorem Tree.ledger_importSpecifier (s : Tree .importSpecifier) :
    ledger o (s.pieces o .code) = 0 := by
  cases s with
  | importDefaultSpecifier m binding | importNamespaceSpecifier m binding =>
    exact ledger_cons_of_eq_zero rfl []
  | importNamedSpecifier m imported binding =>
    exact (ledger_cons_of_eq_zero rfl _).trans imported.ledger_skipped

private theorem Tree.ledger_importSpecifiers : (specifiers : Tree (.list .importSpecifier)) →
    ledger o (specifiers.pieces o .code) = 0
  | .nil => ledger_cons_of_eq_zero rfl []
  | .cons head tail => by
    refine (ledger_cons_of_eq_zero rfl _).trans ?_
    rw [ledger_append, head.ledger_importSpecifier, zero_add]
    exact ledger_importSpecifiers tail

/-- The definitions of an import declaration. -/
theorem Speaks.imports (declaration : Anchor) : (specifiers : Tree (.list .importSpecifier)) →
    Speaks o (.clause (Definition.Floats .innermost)) specifiers.marks 0
      ((Tree.importDefinitions declaration specifiers).map .declare)
  | .nil => nil
  | .cons s rest => by
    have hcount (n : Nat) : [(ImportSpecifier.binding s).mark.id].count n ≤
        (s.marks.map (·.id)).count n := by
      cases s with
      | importDefaultSpecifier m binding | importNamespaceSpecifier m binding =>
        exact List.count_le_count_cons
      | importNamedSpecifier m imported binding =>
        exact ((List.sublist_append_right imported.marks [binding.mark]).trans
          (List.sublist_cons_self m _)).map (·.id) |>.count_le n
    have hfloats : Definition.Floats .innermost ⟨.importBinding declaration,
        ImportSpecifier.binding s, ImportSpecifier.anchor s⟩ := rfl
    have hs : Speaks o (.clause (Definition.Floats .innermost)) s.marks 0
        [.declare ⟨.importBinding declaration, ImportSpecifier.binding s,
          ImportSpecifier.anchor s⟩] := ⟨_, hcount, .declare _ hfloats⟩
    have hall := hs.add (imports declaration rest)
    rwa [zero_add] at hall

theorem Expr.eq_identifier {e : Expr} {i : Identifier} (h : Expr.identifier? e = some i) :
    e = .identifier i := by
  cases e with
  | identifier j => exact congrArg _ (Option.some.inj h)
  | _ => cases h

namespace Roots

private theorem importDeclaration {specifiers : Tree (.list .importSpecifier)} {source : Literal} :
    Roots o (Tree.importDeclaration m specifiers source).marks
      (ledger o ((Tree.importDeclaration m specifiers source).pieces o .code))
      ((Tree.importDeclaration m specifiers source).actions o (.code method)) := by
  have hledger := Tree.ledger_importSpecifiers (o := o) specifiers
  have hsite := (Speaks.imports (o := o) ⟨.importDeclaration, m⟩ specifiers).site
  have hrefuse : Speaks o (.code none) specifiers.marks 0 [.refuseImport m.loc] :=
    .of_phrase (.quiet _ rfl)
  rw [← hledger] at hsite hrefuse
  change Roots o (m :: (specifiers.marks ++ [source.mark])) _ (if _ then _ else _)
  split
  · exact .of hsite.left rfl
  · exact .of hrefuse.left rfl

private theorem callExpression {callee : Expr} {arguments : Tree (.list .expression)}
    {isOptional : Bool} (hcallee : Walked o callee) (harguments : Walked o arguments) :
    Roots o (Tree.callExpression m callee arguments isOptional).marks
      (ledger o ((Tree.callExpression m callee arguments isOptional).pieces o .code))
      ((Tree.callExpression m callee arguments isOptional).actions o (.code method)) := by
  change Roots o (m :: (callee.marks ++ arguments.marks)) (ledger o
    (⟨.expression, .code, .callExpression m callee arguments isOptional⟩ ::
      (callee.pieces o .code ++ arguments.pieces o .code)))
    ((if (!o.ignoreEval && !isOptional && Tree.isEval callee) = true then [callEval] else []) ++
      callee.actions o (.code method) ++ arguments.actions o (.code method))
  by_cases hcall : (!o.ignoreEval && !isOptional && Tree.isEval callee) = true
  · obtain ⟨⟨hignore, hoptional⟩, heval⟩ : (o.ignoreEval = false ∧ isOptional = false) ∧
        Tree.isEval callee = true := by simpa using hcall
    obtain ⟨i, hi⟩ : ∃ i, Expr.identifier? callee = some i := by
      cases hi : Expr.identifier? callee with
      | none => simp [Tree.isEval, hi] at heval
      | some i => exact ⟨i, rfl⟩
    cases Expr.eq_identifier hi
    cases hoptional
    have hname : i.name = "eval" := of_decide_eq_true heval
    have hcallees : (Tree.callExpression m (.identifier i) arguments false).evalCallees o = [i] :=
      if_pos ⟨hignore, hname⟩
    have hself : Piece.ledger o ⟨.expression, .code, .callExpression m (.identifier i) arguments
        false⟩ = .call i := by
      have hcalls : Piece.evalCallees o ⟨.expression, .code, .callExpression m (.identifier i)
        arguments false⟩ = [i] := hcallees
      rw [Piece.ledger, hcalls]
      rfl
    have hread : ledger o [⟨.expression, .code, .identifier i⟩] = .use i (Use.flag .read) :=
      add_zero _
    have hcallee : Speaks o (.code none) [i.mark] _ _ := .of_phrase (.call i)
    rw [if_pos hcall, ledger_cons, hself, ledger_append]
    refine .node ?_
    change Speaks o _ ([i.mark] ++ arguments.marks)
      (_ + (ledger o [⟨.expression, .code, .identifier i⟩] + _))
      ([Action.callEval, Action.refer i .read none] ++ _)
    rw [hread, ← add_assoc]
    exact hcallee.add (harguments.speaks method rfl)
  · have hcallees : (Tree.callExpression m callee arguments isOptional).evalCallees o = [] := by
      cases callee with
      | identifier i =>
        cases isOptional with
        | true => rfl
        | false =>
          refine if_neg fun h => hcall ?_
          simp [Tree.isEval, Expr.identifier?, h]
      | _ => rfl
    rw [if_neg hcall]
    exact .of ((hcallee.speaks method rfl).append (harguments.speaks method rfl))
      (Piece.ledger_eq_openings rfl hcallees)

private theorem updateExpression {operator : UpdateOperator} {leading : Bool} {argument : Expr}
    (hargument : Walked o argument) :
    Roots o (Tree.updateExpression m operator leading argument).marks
      (ledger o ((Tree.updateExpression m operator leading argument).pieces o .code))
      ((Tree.updateExpression m operator leading argument).actions o (.code method)) := by
  cases hi : Expr.identifier? argument with
  | some i =>
    cases Expr.eq_identifier hi
    have hrefer : Speaks o (.code none) [i.mark]
        (ledger o [⟨.expression, .updated, .identifier i⟩]) [.refer i (.update none) none] :=
      .of_phrase ((Phrase.refer i (.update none) none).cast (add_zero _).symm)
    exact .of hrefer rfl
  | none =>
    change Roots o _ (ledger o (_ ::
      argument.pieces o (if (Expr.identifier? argument).isSome then .updated else .code))) _
    rw [Tree.actions_updateExpression, hi]
    exact .of (hargument.speaks method rfl) rfl

private theorem assignmentExpression {operator : AssignmentOperator} {left : Pat} {right : Expr}
    (hleft : ∀ e ∈ left.evaluated, Told o e) (hright : Walked o right) :
    Roots o (Tree.assignmentExpression m operator left right).marks
      (ledger o ((Tree.assignmentExpression m operator left right).pieces o .code))
      ((Tree.assignmentExpression m operator left right).actions o (.code method)) := by
  have htarget (hp : ∀ a, left ≠ .memberPattern a) : Speaks o (.code none) left.marks
      (ledger o (left.pieces o (operator.role left)))
      (if operator = .assign then
        assignTargets ⟨.assignment, m⟩ (Expr.anchor right) (fun t => !t.isWhole) left ++
          left.actions o (.code method)
      else
        (Pat.identifier? left).elim []
          fun i => [.refer i (.update (some (Expr.anchor right))) none]) := by
    unfold AssignmentOperator.role
    split
    · exact .pattern (.assignTargets _ _ _ left) (fun n => by simp) hleft method
    · cases left with
      | memberPattern a => exact absurd rfl (hp a)
      | identifierPattern i =>
        exact .of_phrase ((Phrase.refer i (.update _) none).cast (add_zero _).symm)
      | _ => exact .skipped _
  cases left with
  | memberPattern a =>
    have hmember : Speaks o (.code none) a.marks
        (ledger o (Tree.pieces o (operator.role (.memberPattern a)) (.memberPattern a)))
        (a.actions o (.code method)) := by
      unfold AssignmentOperator.role
      split <;> exact (access hleft).speaks.enter rfl
    exact .of (hmember.append (hright.speaks method rfl)) rfl
  | _ => exact .of ((htarget nofun).append (hright.speaks method rfl)) rfl

end Roots

end

/-! ## All trees -/

namespace Tree

/-- The actions of a tree are a phrase with the ledger of its pieces, and so are those of the
expressions that it evaluates. -/
theorem walked {c : Category} (o : Options) : (t : Tree c) → Walked o t
  | .nil => .of fun _ => Speaks.nil.enter rfl
  | .cons head tail =>
    { told := fun hc b =>
        (((walked o head).speaks b hc).append ((walked o tail).speaks b hc)).enter rfl
      evaluated := fun e he => (List.mem_append.mp he).elim ((walked o head).evaluated e)
        ((walked o tail).evaluated e)
      computed := fun e he => (List.mem_append.mp he).elim ((walked o head).computed e)
        ((walked o tail).computed e) }
  | .absent => .of fun _ => Speaks.nil.enter rfl
  | .present part =>
    { told := fun hc b => ((walked o part).speaks b hc).enter rfl
      evaluated := (walked o part).evaluated
      computed := nofun }
  | .program _ _ => { told := nofun, evaluated := nofun, computed := nofun }
  | .blockStatement b => .of fun _ => .wrap ((walked o b).told rfl _)
  | .breakStatement _ _ | .continueStatement _ _ => .of fun _ => .leaf Piece.ledger_eq_openings
  | .classDeclaration declared => .of fun _ => .wrap ((walked o declared).told rfl _)
  | .debuggerStatement _ | .directiveStatement _ _ _ | .emptyStatement _ => .of fun _ => .leaf
  | .doWhileStatement _ body test =>
    .of fun b => .of (((walked o body).speaks b).append ((walked o test).speaks b))
  | .exportAllDeclaration _ _ exported => .of fun _ => .of (.skipped exported)
  | .exportDefaultDeclaration _ d => .of fun b => .of ((walked o d).speaks b)
  | .exportNamedDeclaration _ d specifiers (some _) =>
    .of fun _ => .of ((Speaks.skipped (M := []) d).append (.skipped specifiers))
  | .exportNamedDeclaration _ (.present declared) specifiers none =>
    .of fun b => .of ((((walked o declared).speaks b).enter rfl).skip specifiers).left
  | .exportNamedDeclaration _ .absent specifiers none =>
    .of fun b => .of ((((walked o specifiers).speaks b).enter
      (u := ⟨.optional .statement, .code, .absent⟩) rfl).left)
  | .expressionStatement _ e _ => .of fun b => .of ((walked o e).speaks b)
  | .iterationStatement _ _ (.targetDeclaration (.declaration _ kind declarators)) right body _ =>
    .of fun _ => by
      cases hkind : kind.isLexical && o.isEs6 with
      | true =>
        exact .lexicalLoop hkind (walked o declarators).computed ((walked o right).told rfl)
          (walked o body)
      | false =>
        exact .declaringLoop hkind (walked o declarators).computed (walked o right) (walked o body)
  | .iterationStatement _ _ (.targetPattern p) right body _ =>
    .of fun _ => .assigningLoop (walked o p).evaluated (walked o right) (walked o body)
  | .forStatement _ init test update body =>
    .of fun _ => .forStatement (walked o init) (walked o test) (walked o update) (walked o body)
  | .functionDeclaration declared => .of fun _ => .wrap ((walked o declared).told rfl _)
  | .ifStatement _ test consequent alternate =>
    .of fun b => .of ((((walked o test).speaks b).append ((walked o consequent).speaks b)).append
      ((walked o alternate).speaks b))
  | .importDeclaration _ _ _ => .of fun _ => .importDeclaration
  | .labeledStatement _ _ body => .of fun b => .of ((walked o body).speaks b).cons
  | .returnStatement _ argument => .of fun b => .of ((walked o argument).speaks b)
  | .switchStatement _ discriminant cases =>
    .of fun _ => .switchStatement (walked o discriminant) (walked o cases)
  | .throwStatement _ argument => .of fun b => .of ((walked o argument).speaks b)
  | .tryStatement _ tried handler finalizer =>
    .of fun b => .of ((((walked o tried).speaks b).append ((walked o handler).speaks b)).append
      ((walked o finalizer).speaks b))
  | .variableDeclaration d => .of fun _ => .wrap ((walked o d).told rfl _)
  | .whileStatement _ test body =>
    .of fun b => .of (((walked o test).speaks b).append ((walked o body).speaks b))
  | .withStatement _ object body => .of fun _ => .withStatement (walked o object) (walked o body)
  | .block _ body => .of fun _ => .block (walked o body)
  | .declaration m kind declarators =>
    { told := fun _ _ => .of (Speaks.declarators ⟨.declaration, m⟩ kind declarators 0
        (walked o declarators).computed).site
      evaluated := nofun
      computed := (walked o declarators).computed }
  | .declarator _ target .absent =>
    { told := nofun
      evaluated := nofun
      computed := (walked o target).evaluated }
  | .declarator _ target (.present init) =>
    { told := nofun
      evaluated := nofun
      computed := fun e he => (List.mem_append.mp he).elim ((walked o target).evaluated e)
        fun he => List.mem_singleton.mp he ▸ (walked o init).told rfl }
  | .switchCase _ test consequent =>
    .of fun b => .of (((walked o test).speaks b).append ((walked o consequent).speaks b))
  | .catchClause _ param body =>
    .of fun _ => .catchClause (walked o param).evaluated (walked o body)
  | .initDeclaration d => .of fun _ => .wrap ((walked o d).told rfl _)
  | .initExpression e => .of fun _ => .wrap ((walked o e).told rfl _)
  | .targetDeclaration d =>
    { told := nofun
      evaluated := nofun
      computed := (walked o d).computed }
  | .targetPattern _ => { told := nofun, evaluated := nofun, computed := nofun }
  | .importDefaultSpecifier _ _ | .importNamespaceSpecifier _ _ => .of fun _ => .leaf
  | .importNamedSpecifier _ imported _ => .of fun _ => .of (.skipped imported)
  | .exportSpecifier _ binding exported =>
    .of fun b => .of (((walked o binding).speaks b).skip exported)
  | .defaultFunction declared => .of fun _ => .wrap ((walked o declared).told rfl _)
  | .defaultClass declared => .of fun _ => .wrap ((walked o declared).told rfl _)
  | .defaultExpression e => .of fun _ => .wrap ((walked o e).told rfl _)
  | .function _ _ _ params body _ _ _ =>
    .of fun _ => .function (walked o params).evaluated (walked o body)
  | .blockBody (.block _ body) =>
    .of fun b => .wrap (.node (((walked o body).speaks b).enter rfl))
  | .expressionBody e => .of fun _ => .wrap ((walked o e).told rfl _)
  | .classNode _ _ _ superclass body =>
    .of fun _ => .classNode (walked o superclass) (walked o body)
  | .classBody _ members => .of fun b => .of ((walked o members).speaks b)
  | .method _ key value _ _ _ =>
    .of fun b => .of (((walked o key).speaks b).ite.append ((walked o value).speaks true))
  | .arrayExpression _ elements => .of fun b => .of ((walked o elements).speaks b)
  | .arrowFunction fn => .of fun _ => .wrap ((walked o fn).told rfl _)
  | .assignmentExpression _ _ left right =>
    .of fun _ => .assignmentExpression (walked o left).evaluated (walked o right)
  | .awaitExpression _ argument => .of fun b => .of ((walked o argument).speaks b)
  | .binaryExpression _ _ _ left right =>
    .of fun b => .of (((walked o left).speaks b).append ((walked o right).speaks b))
  | .callExpression _ callee arguments _ =>
    .of fun _ => .callExpression (walked o callee) (walked o arguments)
  | .chainExpression _ e => .of fun b => .of ((walked o e).speaks b)
  | .classExpression value => .of fun _ => .wrap ((walked o value).told rfl _)
  | .conditionalExpression _ test consequent alternate =>
    .of fun b => .of ((((walked o test).speaks b).append ((walked o consequent).speaks b)).append
      ((walked o alternate).speaks b))
  | .functionExpression fn => .of fun _ => .wrap ((walked o fn).told rfl _)
  | .identifier i =>
    .of fun _ => .node (.of_phrase ((Phrase.refer i .read none).cast (add_zero _).symm))
  | .importExpression _ source => .of fun b => .of ((walked o source).speaks b)
  | .literal _ => .of fun _ => .leaf
  | .memberExpression a => .of fun _ => .wrap ((walked o a).told rfl _)
  | .metaProperty _ _ _ => .of fun _ => .leaf
  | .newExpression _ callee arguments _ =>
    .of fun b => .of (((walked o callee).speaks b).append ((walked o arguments).speaks b))
  | .objectExpression _ members => .of fun b => .of ((walked o members).speaks b)
  | .sequenceExpression _ expressions => .of fun b => .of ((walked o expressions).speaks b)
  | .spreadExpression s => .of fun _ => .wrap ((walked o s).told rfl _)
  | .superExpression _ => .of fun _ => .leaf
  | .taggedTemplate _ tag quasi =>
    .of fun b => .of (((walked o tag).speaks b).append ((walked o quasi).speaks b))
  | .templateExpression t => .of fun _ => .wrap ((walked o t).told rfl _)
  | .thisExpression _ =>
    .of fun _ => .node (.of_phrase ((Phrase.quiet _ rfl).cast (add_zero _).symm))
  | .unaryExpression _ _ _ argument => .of fun b => .of ((walked o argument).speaks b)
  | .updateExpression _ _ _ argument => .of fun _ => .updateExpression (walked o argument)
  | .yieldExpression _ argument _ => .of fun b => .of ((walked o argument).speaks b)
  | .access _ object prop _ _ =>
    .of fun b => .of (((walked o object).speaks b).append ((walked o prop).speaks b).ite)
  | .spread _ argument => .of fun b => .of ((walked o argument).speaks b)
  | .template _ _ expressions => .of fun b => .of ((walked o expressions).speaks b).right
  | .property _ key value _ true _ _ =>
    .of fun b => .of (((walked o key).speaks b).ite.append ((walked o value).speaks true))
  | .property _ key value _ false _ _ =>
    .of fun b => .of (((walked o key).speaks b).ite.append ((walked o value).speaks b))
  | .spreadMember s => .of fun _ => .wrap ((walked o s).told rfl _)
  | .arrayPattern _ elements =>
    { told := nofun
      evaluated := (walked o elements).evaluated
      computed := nofun }
  | .assignmentPattern _ left right =>
    { told := nofun
      evaluated := fun e he => (List.mem_append.mp he).elim ((walked o left).evaluated e)
        fun he => List.mem_singleton.mp he ▸ (walked o right).told rfl
      computed := nofun }
  | .identifierPattern _ => { told := nofun, evaluated := nofun, computed := nofun }
  | .memberPattern (.access _ object prop computed _) =>
    { told := nofun
      evaluated := fun e he => by
        rcases List.mem_append.mp he with he | he
        · cases computed with
          | false => cases he
          | true => exact List.mem_singleton.mp he ▸ (walked o prop).told rfl
        · exact List.mem_singleton.mp he ▸ (walked o object).told rfl
      computed := nofun }
  | .objectPattern _ members =>
    { told := nofun
      evaluated := (walked o members).evaluated
      computed := nofun }
  | .restPattern r =>
    { told := nofun
      evaluated := (walked o r).evaluated
      computed := nofun }
  | .rest _ argument =>
    { told := nofun
      evaluated := (walked o argument).evaluated
      computed := nofun }
  | .patternProperty _ key value computed _ =>
    { told := nofun
      evaluated := fun e he => by
        rcases List.mem_append.mp he with he | he
        · cases computed with
          | false => cases he
          | true => exact List.mem_singleton.mp he ▸ (walked o key).told rfl
        · exact (walked o value).evaluated e he
      computed := nofun }
  | .restMember r =>
    { told := nofun
      evaluated := (walked o r).evaluated
      computed := nofun }

end Tree

/-- The actions of a program open its global scope, follow with a phrase that may open further
scopes of the program, and close them all. -/
theorem Program.speaks (o : Options) : (p : Program) → ∃ strict M L A,
    Program.actions o p = [Action.openScope .global ⟨.program, Program.mark p⟩ strict] ++ A ++
      [Action.closeScopes (Program.mark p).id] ∧
    p.marks = Program.mark p :: M ∧ Speaks o (.code (some (Program.mark p).id)) M L A ∧
    ledger o (Program.pieces o p) = .openings [(.global, (Program.mark p).id)] + L
  | .program m body => by
    let strict := hasUseStrict o.directive body.toList ||
      (!(o.isEs6 && o.isModule) && o.impliesStrict)
    have hfunction : Phrase o (.code (some m.id)) [] _ _ :=
      .openIf (o.nodejsScope = true) (by decide : ScopeKind.function ≠ _ ∧ _) .program m strict
    have hmodule : Phrase o (.code (some m.id)) [] _ _ :=
      .openIf ((o.isEs6 && o.isModule) = true) (by decide : ScopeKind.module ≠ _ ∧ _) .program m
        true
    refine ⟨!o.nodejsScope && strict, body.marks, _, _, ?_, rfl,
      (Speaks.of_phrase (M := []) (hfunction.append hmodule)).add
        ((body.walked o).speaks false).embed, ?_⟩
    · rw [← List.append_assoc, ← List.append_assoc]
      rfl
    · change ledger o (⟨.program, .code, .program m body⟩ :: body.pieces o .code) = _
      rw [ledger_cons, Piece.ledger_eq_openings, ← add_assoc]
      rfl

end EcmaScope
