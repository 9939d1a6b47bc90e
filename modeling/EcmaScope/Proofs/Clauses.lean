import EcmaScope.Proofs.Phrases

/-!
# Phrases of patterns and declarations

Where values are written into a pattern, or a pattern is bound, the walk first deals with the
targets and then with the expressions that the pattern evaluates. This module shows that it does so
in phrases, whose ledgers are those of the pieces of the pattern.

## Main definitions

* `Speaks`: actions are a phrase whose numbers are those of given nodes.
* `Says`, `Told`: the actions of a tree are a phrase with the ledger of the tree.
* `Tree.computed`: the expressions that declarations evaluate.

## Main results

* `Speaks.pattern`: the targets of a pattern and what it evaluates.
* `Speaks.parameters`, `Speaks.declarators`: lists of parameters and of declarators.
-/

namespace EcmaScope

open EcmaScope.Action

/-! ## Speaking of nodes -/

/-- The actions are a phrase, and its numbers are among those of `marks`, each at most as often as
there. -/
def Speaks (o : Options) (mode : Mode) (marks : List Mark) (L : Ledger) (A : List Action) : Prop :=
  ∃ M : List Nat, (∀ n, M.count n ≤ (marks.map (·.id)).count n) ∧ Phrase o mode M L A

namespace Speaks

variable {o : Options} {mode : Mode} {M N : List Mark} {K L : Ledger} {A B : List Action}
  {P Q : List Piece} {u : Piece}

theorem of_phrase (h : Phrase o mode [] L A) : Speaks o mode M L A :=
  ⟨[], fun n => by simp, h⟩

theorem nil : Speaks o mode M 0 [] :=
  of_phrase .nil

theorem mono (h : Speaks o mode M L A)
    (hMN : ∀ n, (M.map (·.id)).count n ≤ (N.map (·.id)).count n) : Speaks o mode N L A := by
  obtain ⟨I, hI, h⟩ := h
  exact ⟨I, fun n => Nat.le_trans (hI n) (hMN n), h⟩

theorem sublist (h : Speaks o mode M L A) (hMN : M.Sublist N) : Speaks o mode N L A :=
  h.mono fun n => (hMN.map _).count_le n

theorem cons {m : Mark} (h : Speaks o mode M L A) : Speaks o mode (m :: M) L A :=
  h.sublist (List.sublist_cons_self m M)

theorem left (h : Speaks o mode M L A) : Speaks o mode (M ++ N) L A :=
  h.sublist (List.sublist_append_left M N)

theorem right (h : Speaks o mode N L A) : Speaks o mode (M ++ N) L A :=
  h.sublist (List.sublist_append_right M N)

theorem embed (h : Speaks o (.code none) M L A) : Speaks o mode M L A := by
  obtain ⟨I, hI, h⟩ := h
  exact ⟨I, hI, .embed h⟩

theorem add (hA : Speaks o mode M K A) (hB : Speaks o mode N L B) :
    Speaks o mode (M ++ N) (K + L) (A ++ B) := by
  obtain ⟨I, hI, hA⟩ := hA
  obtain ⟨J, hJ, hB⟩ := hB
  exact ⟨I ++ J, Action.count_append_le hI hJ, hA.append hB⟩

theorem append (hA : Speaks o mode M (ledger o P) A) (hB : Speaks o mode N (ledger o Q) B) :
    Speaks o mode (M ++ N) (ledger o (P ++ Q)) (A ++ B) := by
  rw [ledger_append]
  exact hA.add hB

/-- A piece for which nothing is entered. -/
theorem enter (h : Speaks o mode M (ledger o P) A) (hu : u.ledger o = 0) :
    Speaks o mode M (ledger o (u :: P)) A := by
  rwa [ledger_cons_of_eq_zero hu]

/-- A part that is not looked at. -/
theorem skipped {c : Category} (t : Tree c) :
    Speaks o mode M (ledger o (t.pieces o .skipped)) [] := by
  rw [t.ledger_skipped]
  exact nil

/-- A part that is looked at only under a condition. -/
theorem ite {c : Category} {t : Tree c} {p : Prop} [Decidable p]
    (h : Speaks o mode M (ledger o (t.pieces o .code)) A) :
    Speaks o mode M (ledger o (t.pieces o (if p then .code else .skipped)))
      (if p then A else []) := by
  split
  · exact h
  · exact skipped t

/-- A part that is not looked at stands after another one. -/
theorem skip {c : Category} (h : Speaks o mode M (ledger o P) A) (t : Tree c) :
    Speaks o mode (M ++ N) (ledger o (P ++ t.pieces o .skipped)) A := by
  rw [ledger_append, t.ledger_skipped, add_zero]
  exact h.left

theorem site {reach : Reach} (h : Speaks o (.clause (Definition.Floats reach)) M L A) :
    Speaks o (.code none) M L (Action.site reach A) := by
  obtain ⟨I, hI, h⟩ := h
  exact ⟨I, hI, .site reach h⟩

theorem scopes {m : Mark} (k : Nat) (h : Speaks o (.code (some m.id)) M L A) :
    Speaks o (.code none) (m :: M) L (A ++ List.replicate (k + 1) (Action.closeScopes m.id)) := by
  obtain ⟨I, hI, h⟩ := h
  exact ⟨m.id :: I, Action.count_cons_le m hI, .scopes k h⟩

/-- A value that is looped over without reserving names. -/
theorem value (value : Anchor) (k : Nat) (h : Speaks o (.code (some value.id)) M L A) :
    Speaks o (.code none) (value.mark :: M) (.openings [(.tdz, value.id)] + L)
      ([Action.openScope .tdz value false] ++ A ++
        List.replicate (k + 1) (Action.closeScopes value.id)) := by
  obtain ⟨I, hI, h⟩ := h
  exact ⟨value.id :: I, Action.count_cons_le value.mark hI, .value value k h⟩

end Speaks

/-- The actions of a node, whose own mark is the first one: either they leave no scopes of the node
open, or they end by closing them. -/
inductive Roots (o : Options) : List Mark → Ledger → List Action → Prop
  | node {m M L A} (h : Speaks o (.code none) M L A) : Roots o (m :: M) L A
  | scopes {m M L A} (k : Nat) (h : Speaks o (.code (some m.id)) M L A) :
      Roots o (m :: M) L (A ++ List.replicate (k + 1) (.closeScopes m.id))

namespace Roots

variable {o : Options} {m : Mark} {M : List Mark} {L : Ledger} {A : List Action} {P : List Piece}
  {c : Category} {t : Tree c}

theorem speaks (h : Roots o M L A) : Speaks o (.code none) M L A := by
  cases h with
  | node h => exact h.cons
  | scopes k h => exact h.scopes k

/-- A node for which nothing is entered. -/
theorem of (h : Speaks o (.code none) M (ledger o P) A)
    (ht : Piece.ledger o ⟨c, .code, t⟩ = 0 := by rfl) :
    Roots o (m :: M) (ledger o (⟨c, .code, t⟩ :: P)) A :=
  .node (h.enter ht)

/-- A node for which nothing is entered and that has no pieces below it. -/
theorem leaf (ht : Piece.ledger o ⟨c, .code, t⟩ = 0 := by rfl) :
    Roots o (m :: M) (ledger o [⟨c, .code, t⟩]) [] :=
  .node (Speaks.nil.enter ht)

/-- A piece that shares the node of the only piece below it. -/
theorem wrap (h : Roots o M (ledger o P) A) (ht : Piece.ledger o ⟨c, .code, t⟩ = 0 := by rfl) :
    Roots o M (ledger o (⟨c, .code, t⟩ :: P)) A := by
  rwa [ledger_cons_of_eq_zero ht]

end Roots

/-- What is said of a tree of a category. -/
def Says (o : Options) : Category → List Mark → Ledger → List Action → Prop
  | .list _ | .optional _ | .forTarget => Speaks o (.code none)
  | _ => Roots o

theorem Says.speaks {o : Options} {c : Category} {M : List Mark} {L : Ledger} {A : List Action}
    (h : Says o c M L A) : Speaks o (.code none) M L A := by
  cases c with
  | list _ | optional _ | forTarget => exact h
  | _ => exact Roots.speaks h

/-- The actions of a tree as code are a phrase with the ledger of its pieces. -/
def Told (o : Options) {c : Category} (t : Tree c) : Prop :=
  ∀ method, Says o c t.marks (ledger o (t.pieces o .code)) (t.actions o (.code method))

/-- What expressions do one after the other. -/
theorem Speaks.evaluated {o : Options} {l : List Expr} (h : ∀ e ∈ l, Told o e) (method : Bool) :
    Speaks o (.code none) (l.flatMap Tree.marks) (Tree.codeLedger o l)
      (l.flatMap (Tree.actions o (.code method))) := by
  induction l with
  | nil => exact .nil
  | cons e l ih =>
    rw [List.flatMap_cons, List.flatMap_cons, Tree.codeLedger_cons]
    exact (h e List.mem_cons_self method).speaks.add
      (ih fun e' he' => h e' (List.mem_cons_of_mem e he'))

/-! ## Targets -/

namespace Ledger

/-- The writes of `n` values to every target. -/
def given (n : Nat) (targets : List Target) : Ledger :=
  (targets.map fun t => n • write t.identifier).sum

theorem written_add (values n : Nat) (targets : List Target) :
    written (values + n) targets = written values targets + given n targets := by
  induction targets with
  | nil => rfl
  | cons t targets ih =>
    have hgiven : given n (t :: targets) = n • write t.identifier + given n targets := rfl
    rw [written_cons, written_cons, ih, hgiven, ← Nat.add_assoc, add_nsmul (write t.identifier),
      add_add_add_comm]

end Ledger

namespace Phrase

variable {o : Options} {mode : Mode}

/-- Phrases for the targets of a pattern. -/
theorem targets {N : Target → List Nat} {L : Target → Ledger} {f : Target → List Action}
    (h : ∀ t, Phrase o mode (N t) (L t) (f t)) (ts : List Target) :
    Phrase o mode (ts.flatMap N) (ts.map L).sum (ts.flatMap f) := by
  induction ts with
  | nil => exact .nil
  | cons t ts ih => exact (h t).append ih

/-- Writes to an identifier. -/
theorem writes {α : Type} (l : List α) (i : Identifier) (use : α → Use)
    (huse : ∀ x, (use x).flag = Use.flag (.write default false false)) (creator : Option Anchor) :
    Phrase o (.code none) [] (l.length • .write i) (l.map fun x => .refer i (use x) creator) := by
  induction l with
  | nil =>
    rw [List.length_nil, zero_nsmul]
    exact .nil
  | cons x l ih =>
    have hx : Phrase o (.code none) [] (.write i) [.refer i (use x) creator] := by
      rw [Ledger.write, ← huse x]
      exact .refer i (use x) creator
    rw [List.length_cons, succ_nsmul']
    exact hx.append ih

private theorem writeDefaults (t : Target) (isInit : Bool) (creator : Option Anchor) :
    Phrase o (.code none) [] (t.defaults.length • .write t.identifier)
      (Action.writeDefaults t isInit creator) :=
  writes t.defaults t.identifier (fun d => .write (Expr.anchor d.right) (!d.isFor t) isInit)
    (fun _ => rfl) creator

/-- Targets are declared, and values are written into each of them. -/
theorem declareTargets {admits : Definition → Prop} {d : Target → Definition}
    (hname : ∀ t, (d t).name = t.identifier) (hd : ∀ t, admits (d t)) {n : Target → Nat}
    {f : Target → List Action}
    (hf : ∀ t, Phrase o (.code none) [] (n t • .write t.identifier) (f t)) (ts : List Target) :
    Phrase o (.clause admits) (ts.map (·.identifier.mark.id))
      (ts.map fun t => n t • Ledger.write t.identifier).sum
      (ts.flatMap fun t => .declare (d t) :: f t) := by
  have h (t : Target) : Phrase o (.clause admits) [t.identifier.mark.id]
      (n t • .write t.identifier) (.declare (d t) :: f t) := by
    have hall := (Phrase.declare (o := o) (d t) (hd t)).append (.embed (hf t))
    rwa [hname, zero_add] at hall
  have hall := targets h ts
  rwa [← List.map_eq_flatMap] at hall

theorem bindTargets {admits : Definition → Prop} {kind : Target → DefinitionKind} {node : Anchor}
    (hd : ∀ t : Target, admits ⟨kind t, t.identifier, node⟩) (p : Pat) :
    Phrase o (.clause admits) ((Pat.targets p).map (·.identifier.mark.id))
      (.written 0 (Pat.targets p)) (Action.bindTargets kind node p) :=
  declareTargets (fun _ => rfl) hd (fun t => writeDefaults t true none) _

/-- A write to an identifier. -/
theorem write (i : Identifier) (value : Anchor) (isPartial isInit : Bool)
    (creator : Option Anchor) :
    Phrase o (.code none) [] (.write i) [.refer i (.write value isPartial isInit) creator] :=
  .refer i (.write value isPartial isInit) creator

theorem assignTargets (creator value : Anchor) (isPartial : Target → Bool) (p : Pat) :
    Phrase o (.code none) [] (.written 1 (Pat.targets p))
      (Action.assignTargets creator value isPartial p) := by
  have h (t : Target) : Phrase o (.code none) [] ((t.defaults.length + 1) • .write t.identifier)
      (Action.writeDefaults t false (some creator) ++
        [Action.refer t.identifier (.write value (isPartial t) false) (some creator)]) := by
    rw [succ_nsmul]
    exact (writeDefaults t false (some creator)).append (write _ _ _ _ _)
  have hall := (Phrase.quiet (o := o) .needScope rfl).append (targets h (Pat.targets p))
  rwa [zero_add, List.nil_append, List.flatMap_eq_nil_iff.mpr fun _ _ => rfl] at hall

theorem bindDeclarator {admits : Definition → Prop} {kind : DefinitionKind}
    (hd : ∀ i node, admits ⟨kind, i, node⟩) (reserved : Bool) (m : Mark) (target : Pat)
    (init : Tree (.optional .expression)) :
    Phrase o (.clause admits) ((Pat.targets target).map (·.identifier.mark.id))
      (if reserved then .given init.isPresent.toNat (Pat.targets target)
        else .written init.isPresent.toNat (Pat.targets target))
      (Action.bindDeclarator kind reserved (.declarator m target init)) := by
  have hinit (t : Target) {A : List Action} (habsent : init = .absent → A = [])
      (hpresent : ∀ value, init = .present value →
        A = [.refer t.identifier (.write (Expr.anchor value) (!t.isWhole) true) none]) :
      Phrase o (.code none) [] (init.isPresent.toNat • .write t.identifier) A := by
    cases init with
    | absent =>
      rw [habsent rfl]
      change Phrase o _ _ (0 • _) _
      rw [zero_nsmul]
      exact .nil
    | present value =>
      rw [hpresent value rfl]
      change Phrase o _ _ (1 • _) _
      rw [one_nsmul]
      exact write _ _ _ _ _
  cases reserved with
  | true =>
    refine declareTargets (fun _ => rfl) (fun t => hd _ _) (fun t => hinit t ?_ ?_) _
    · rintro rfl
      rfl
    · rintro value rfl
      rfl
  | false =>
    refine declareTargets (fun _ => rfl) (fun t => hd _ _) (fun t => ?_) _
    rw [add_nsmul]
    refine (writeDefaults t true none).append (hinit t ?_ ?_)
    · rintro rfl
      rfl
    · rintro value rfl
      rfl

theorem bindItems (value : Anchor) (m : Mark) (target : Pat) (init : Tree (.optional .expression))
    (rest : Tree (.list .declarator)) :
    Phrase o (.code none) [] (.given 1 (Pat.targets target))
      (Action.bindItems value (.cons (.declarator m target init) rest)) := by
  have h (t : Target) : Phrase o (.code none) [] (1 • .write t.identifier)
      [.refer t.identifier (.write value true true) none] := by
    rw [one_nsmul]
    exact write _ _ _ _ _
  have hall := targets h (Pat.targets target)
  rwa [List.flatMap_eq_nil_iff.mpr fun _ _ => rfl, ← List.map_eq_flatMap] at hall

end Phrase

/-! ## Patterns -/

/-- The ledger of a pattern that receives values. -/
theorem Pat.ledger_pieces (o : Options) (p : Pat) (values : Nat) :
    ledger o (Tree.pieces o (.target values) p) =
      .written values (Pat.targets p) + Tree.codeLedger o p.evaluated := by
  have h := p.ledger_target (o := o) rfl (Pat.mark p).id values [] none
  rwa [List.length_nil, Nat.zero_add] at h

namespace Speaks

variable {o : Options} {mode : Mode}

/-- The targets of a pattern are dealt with, together with something else, and then what the pattern
evaluates. -/
theorem patternWith {p : Pat} {N : List Nat} {K : Ledger} {values : Nat} {B : List Action}
    (hB : Phrase o mode N (K + .written values (Pat.targets p)) B)
    (hN : ∀ n, N.count n ≤ ((Pat.targets p).map (·.identifier.mark.id)).count n)
    (he : ∀ e ∈ p.evaluated, Told o e) (method : Bool) :
    Speaks o mode p.marks (K + ledger o (p.pieces o (.target values)))
      (B ++ p.actions o (.code method)) := by
  obtain ⟨M, hM, hevaluated⟩ := Speaks.evaluated he method
  rw [p.actions_eq_evaluated rfl, Pat.ledger_pieces, ← add_assoc]
  refine ⟨N ++ M, fun n => ?_, hB.append (.embed hevaluated)⟩
  rw [List.count_append]
  exact Nat.le_trans (Nat.add_le_add (hN n) (hM n)) (p.count_targets_le _ _ _ n)

/-- The targets of a pattern are dealt with, and then what it evaluates. -/
theorem pattern {p : Pat} {N : List Nat} {values : Nat} {B : List Action}
    (hB : Phrase o mode N (.written values (Pat.targets p)) B)
    (hN : ∀ n, N.count n ≤ ((Pat.targets p).map (·.identifier.mark.id)).count n)
    (he : ∀ e ∈ p.evaluated, Told o e) (method : Bool) :
    Speaks o mode p.marks (ledger o (p.pieces o (.target values)))
      (B ++ p.actions o (.code method)) := by
  rw [← zero_add (Ledger.written _ _)] at hB
  rw [← zero_add (ledger _ _)]
  exact patternWith hB hN he method

/-- A list of parameters. -/
theorem parameters (owner : Anchor) : (params : Tree (.list .pattern)) → (index : Nat) →
    (∀ e ∈ params.evaluated, Told o e) →
    Speaks o (.clause (Definition.IsParameter owner)) params.marks
      (ledger o (params.pieces o (.target 0))) (params.actions o (.parameters owner index))
  | .nil, _, _ => nil.enter rfl
  | .cons p rest, index, he => by
    have hp : Speaks o (.clause (Definition.IsParameter owner)) p.marks
        (ledger o (p.pieces o (.target 0)))
        (Action.bindTargets (fun t => .parameter index t.isRest) owner p ++
          p.actions o (.code false)) :=
      pattern (.bindTargets (fun _ => rfl) p) (fun n => Nat.le_refl _)
        (fun e h => he e (List.mem_append_left _ h)) false
    exact (hp.append (parameters owner rest (index + 1)
      fun e h => he e (List.mem_append_right _ h))).enter rfl

end Speaks

/-! ## Declarations -/

/-- The expressions that the declarators of a declaration evaluate. -/
def Tree.computed {c : Category} : Tree c → List Expr
  | .cons head tail => head.computed ++ tail.computed
  | .declarator _ target (.present init) => target.evaluated ++ [init]
  | .declarator _ target .absent => target.evaluated
  | .declaration _ _ declarators => declarators.computed
  | .targetDeclaration d => d.computed
  | _ => []

theorem mem_computed_target {m : Mark} {target : Pat} {init : Tree (.optional .expression)}
    {e : Expr} (he : e ∈ target.evaluated) : e ∈ (Tree.declarator m target init).computed := by
  cases init with
  | absent => exact he
  | present value => exact List.mem_append_left _ he

namespace Speaks

variable {o : Options} {mode : Mode}

/-- The reach of a declaration. -/
theorem floats_declared (declaration : Anchor) (index : Nat) (kind : VariableKind) (i : Identifier)
    (node : Anchor) :
    Definition.Floats (if kind.isLexical then .innermost else .variableScope)
      ⟨.declared declaration index kind, i, node⟩ :=
  rfl

/-- A declarator that is declared as it is met. -/
theorem declarator {m : Mark} {target : Pat} {init : Tree (.optional .expression)}
    (he : ∀ e ∈ (Tree.declarator m target init).computed, Told o e) (declaration : Anchor)
    (kind : VariableKind) (index : Nat) :
    Speaks o (.clause (Definition.Floats (if kind.isLexical then .innermost else .variableScope)))
      (Tree.declarator m target init).marks
      (ledger o ((Tree.declarator m target init).pieces o .code))
      (Action.bindDeclarator (.declared declaration index kind) false (.declarator m target init) ++
        (Tree.declarator m target init).actions o (.code false)) := by
  have htarget : Speaks o (.clause (Definition.Floats
      (if kind.isLexical then .innermost else .variableScope))) target.marks
      (ledger o (target.pieces o (.target init.isPresent.toNat)))
      (Action.bindDeclarator (.declared declaration index kind) false (.declarator m target init) ++
        target.actions o (.code false)) := by
    exact pattern (.bindDeclarator (floats_declared declaration index kind) false m target init)
      (fun n => Nat.le_refl _) (fun e h => he e (mem_computed_target h)) false
  have hinit : Speaks o (.clause (Definition.Floats
      (if kind.isLexical then .innermost else .variableScope))) init.marks
      (ledger o (init.pieces o .code)) (init.actions o (.code false)) := by
    cases init with
    | absent => exact nil.enter rfl
    | present value =>
      exact ((he value (List.mem_append_right _ List.mem_cons_self) false).speaks.embed).enter rfl
  change Speaks o _ (m :: (target.marks ++ init.marks)) _
    (_ ++ (target.actions o (.code false) ++ init.actions o (.code false)))
  rw [← List.append_assoc]
  exact ((htarget.append hinit).enter rfl).cons

/-- A list of declarators that are declared as they are met. -/
theorem declarators (declaration : Anchor) (kind : VariableKind) :
    (ds : Tree (.list .declarator)) → (index : Nat) → (∀ e ∈ ds.computed, Told o e) →
    Speaks o (.clause (Definition.Floats (if kind.isLexical then .innermost else .variableScope)))
      ds.marks (ledger o (ds.pieces o .code)) (ds.actions o (.declarators declaration kind index))
  | .nil, _, _ => nil.enter rfl
  | .cons (.declarator _ _ _) rest, index, he =>
    ((declarator (fun e h => he e (List.mem_append_left _ h)) declaration kind index).append
      (declarators declaration kind rest (index + 1)
        fun e h => he e (List.mem_append_right _ h))).enter rfl

end Speaks

end EcmaScope
