import EcmaScope.Proofs.Ledger

/-!
# The phrases of a walk

The actions of a program are not an arbitrary list in which scopes and declarations are nested.
Names are declared in a few ways only: the parameters of a function in the scope of the function,
the name of a function before its scope is opened, and so on. This module gives the grammar of such
lists.

A phrase is either code, or it is a part of a declaration that has been begun before. Together with
its actions the grammar tells the identifiers that a phrase declares and the nodes whose scopes it
opens and closes, as far as they have to be distinct, and the ledger of the phrase.

## Main definitions

* `Mode`: what a phrase is a part of.
* `Phrase`: the grammar.
* `Action.uses`, `Action.openings`: what is entered for an action in the ledger.

## Main results

* `Phrase.enclosed`: scopes and declarations are nested in a phrase.
* `Phrase.uses`, `Phrase.openings`: the ledger of a phrase is that of its actions.
* `Phrase.pairs`: calls of `eval` come right before the read of the callee.
* `Phrase.followed`: the scope of a function's name is directly followed by that of the function.
-/

namespace EcmaScope

/-! ## Definitions and where they belong -/

namespace Definition

/-- The definition is a parameter of the function `owner`. -/
def IsParameter (owner : Anchor) (d : Definition) : Prop :=
  match d.kind with
  | .parameter _ _ => d.node = owner
  | _ => False

/-- The definition is what the clause `owner` catches. -/
def IsCaught (owner : Anchor) (d : Definition) : Prop :=
  d.kind = .catchClause ∧ d.node = owner

/-- The definition reserves a name. -/
def IsReserved (d : Definition) : Prop :=
  match d.kind with
  | .tdz _ _ _ => True
  | _ => False

/-- The definition is a declaration or an import whose declaration site is chosen by `reach`. -/
def Floats (reach : Reach) (d : Definition) : Prop :=
  match d.kind with
  | .declared _ _ kind => reach = if kind.isLexical then .innermost else .variableScope
  | .importBinding _ => reach = .innermost
  | _ => False

end Definition

/-! ## The grammar -/

/-- The action does no more than to rely on a scope. -/
def Action.isQuiet : Action → Bool
  | .needScope | .useThis | .refuseImport _ => true
  | _ => false

/-- What a phrase is a part of. -/
inductive Mode where
  /-- Code. If there is an `owner`, scopes of that node may be left open. -/
  | code (owner : Option Nat)
  /-- A declaration of definitions that it `admits`. -/
  | clause (admits : Definition → Prop)

namespace Mode

/-- The node whose scopes may be left open. -/
def owner : Mode → Option Nat
  | .code owner => owner
  | .clause _ => none

/-- Names may be declared. -/
def sited : Mode → Bool
  | .code _ => false
  | .clause _ => true

end Mode

namespace Action

/-- A declaration with its site. -/
abbrev site (reach : Reach) (A : List Action) : List Action :=
  [beginSite reach] ++ A ++ [endSite]

/-- A scope with the names that are declared as soon as it has been opened. -/
abbrev scope (kind : ScopeKind) (block : Anchor) (strict : Bool) (A : List Action) : List Action :=
  [openScope kind block strict] ++ site .innermost A

end Action

open EcmaScope.Action

/-- The lists of actions that a walk consists of. The numbers are those of the identifiers that are
declared and of the nodes whose scopes are opened and closed; the identifiers of a loop over a value
are declared twice, and so may be the name of a class. -/
inductive Phrase (o : Options) : Mode → List Nat → Ledger → List Action → Prop
  | nil {mode} : Phrase o mode [] 0 []
  | append {mode M N K L A B} (hA : Phrase o mode M K A) (hB : Phrase o mode N L B) :
      Phrase o mode (M ++ N) (K + L) (A ++ B)
  /-- Code that leaves no scope open may stand everywhere. -/
  | embed {mode M L A} (h : Phrase o (.code none) M L A) : Phrase o mode M L A
  | quiet (a : Action) (ha : a.isQuiet = true) : Phrase o (.code none) [] 0 [a]
  | refer (i : Identifier) (use : Use) (creator : Option Anchor) :
      Phrase o (.code none) [] (.use i use.flag) [.refer i use creator]
  | call (i : Identifier) :
      Phrase o (.code none) [] (.call i + .use i (Use.flag .read)) [.callEval, .refer i .read none]
  | declare {admits} (d : Definition) (hd : admits d) :
      Phrase o (.clause admits) [d.name.mark.id] 0 [.declare d]
  | site {M L A} (reach : Reach) (h : Phrase o (.clause (Definition.Floats reach)) M L A) :
      Phrase o (.code none) M L (site reach A)
  | openScope (kind : ScopeKind) (block : Anchor) (strict : Bool)
      (hkind : kind ≠ .functionName ∧ kind ≠ .tdz) :
      Phrase o (.code (some block.id)) [] (.openings [(kind, block.id)])
        [.openScope kind block strict]
  | function {M L A} (form : FunctionForm) (m : Mark) (name : Option Identifier) (strict : Bool)
      (h : Phrase o (.clause (Definition.IsParameter ⟨.function form, m⟩)) M L A) :
      Phrase o (.code (some m.id)) ((name.map (·.mark.id)).toList ++ M)
        (.openings ((if form = .expression ∧ name.isSome then [(.functionName, m.id)] else []) ++
          [(.function, m.id)]) + L)
        (Tree.functionName form ⟨.function form, m⟩ name ++
          scope .function ⟨.function form, m⟩ strict A)
  | classNode {M L A} (form : ClassForm) (m : Mark) (name : Option Identifier)
      (h : Phrase o (.code none) M L A) :
      Phrase o (.code (some m.id)) ((name.map (·.mark.id)).toList ++ M)
        (.openings (if o.isEs6 then [(.classBody, m.id)] else []) + L)
        ((if form = .declaration then Tree.className ⟨.classNode form, m⟩ name else []) ++ A ++
          if o.isEs6 then
            .openScope .classBody ⟨.classNode form, m⟩ true ::
              Tree.className ⟨.classNode form, m⟩ name
          else [])
  | catchClause {M L A} (m : Mark)
      (h : Phrase o (.clause (Definition.IsCaught ⟨.catchClause, m⟩)) M L A) :
      Phrase o (.code (some m.id)) M (.openings [(.catchClause, m.id)] + L)
        (scope .catchClause ⟨.catchClause, m⟩ false A)
  | loop {N M K L K' A B C} (value block : Anchor) (k : Nat)
      (hA : Phrase o (.clause Definition.IsReserved) N K A)
      (hA' : ∀ a ∈ A, a.isPlain = true ∨ ∃ d, a = .declare d)
      (hB : Phrase o (.code (some value.id)) M L B)
      (hC : Phrase o (.clause (Definition.Floats .innermost)) N K' C)
      (hC' : ∀ a ∈ C, a.isPlain = true ∨ ∃ d, a = .declare d) :
      Phrase o (.code (some block.id)) (N ++ value.id :: M)
        (.openings [(.tdz, value.id)] + K + L + (.openings [(.loop, block.id)] + K'))
        (scope .tdz value false A ++ B ++ List.replicate (k + 1) (closeScopes value.id) ++
          scope .loop block false C)
  /-- A value that is looped over without reserving names. -/
  | value {M L A} (value : Anchor) (k : Nat) (h : Phrase o (.code (some value.id)) M L A) :
      Phrase o (.code none) (value.id :: M) (.openings [(.tdz, value.id)] + L)
        ([.openScope .tdz value false] ++ A ++ List.replicate (k + 1) (.closeScopes value.id))
  | scopes {n M L A} (k : Nat) (h : Phrase o (.code (some n)) M L A) :
      Phrase o (.code none) (n :: M) L (A ++ List.replicate (k + 1) (.closeScopes n))

namespace Action

/-- A scope whose names are declared right after it has been opened. -/
theorem enclosed_declared {kind : ScopeKind} {block : Anchor} {strict : Bool} {M : List Mark}
    {A : List Action} (hA : ∀ a ∈ A, a.isPlain = true ∨ ∃ d, a = .declare d) :
    Enclosed (some block.id) false M (scope kind block strict A) :=
  Enclosed.after (.openScope block.mark) (.site (.of_declare hA))

/-- The value to loop over leaves no scope open. -/
theorem enclosed_value {M : List Nat} {A B : List Action} (value : Anchor) (k : Nat)
    (hA : ∀ a ∈ A, a.isPlain = true ∨ ∃ d, a = .declare d)
    (hB : Enclosed (some value.id) false (M.map (Mark.mk · default)) B) :
    Enclosed none false ((value.id :: M).map (Mark.mk · default))
      (scope .tdz value false A ++ B ++ List.replicate (k + 1) (closeScopes value.id)) :=
  Enclosed.scopes (m := ⟨value.id, default⟩) k ((enclosed_declared hA).after hB)

/-! ## What is entered for actions -/

/-- The use of a name that an action makes, by its short form. -/
def uses : Action → List (Identifier × String)
  | .refer i use _ => [(i, use.flag)]
  | _ => []

/-- The scope that an action opens, by its kind and by the number of its node. -/
def openings : Action → List (ScopeKind × Nat)
  | .openScope kind block _ => [(kind, block.id)]
  | _ => []

end Action

namespace Phrase

variable {o : Options} {mode : Mode} {M : List Nat} {L : Ledger} {A : List Action}

theorem cast {K : Ledger} (h : Phrase o mode M K A) (hKL : K = L) : Phrase o mode M L A :=
  hKL ▸ h

/-- Scopes and declarations are nested in a phrase, and its nodes are among its numbers. -/
theorem enclosed (h : Phrase o mode M L A) :
    Enclosed mode.owner mode.sited (M.map (Mark.mk · default)) A := by
  induction h with
  | nil => exact .nil
  | append _ _ ihA ihB =>
    rw [List.map_append]
    exact ihA.append ihB
  | embed _ ih => exact ih.own.sit
  | quiet a ha =>
    refine .plain ?_
    cases a <;> first | rfl | cases ha
  | refer => exact .plain rfl
  | call => exact .of_plain (by simp [isPlain])
  | declare d => exact .of_declare (by simp)
  | site reach _ ih => exact .site ih
  | openScope kind block strict => exact .openScope block.mark
  | function form m name strict _ ih =>
    refine Enclosed.after (enclosed_functionName form ⟨_, m⟩ name) (.after (.openScope m) ?_)
    rw [List.map_append]
    exact ih.site.right
  | classNode form m name _ ih =>
    rw [List.map_append]
    refine Enclosed.before (Enclosed.after (.ite (enclosed_className _ _)) ?_)
      (.ite (Enclosed.after (.openScope m) (enclosed_className _ _)))
    exact ih.own.right
  | catchClause m _ ih => exact Enclosed.after (.openScope m) ih.site
  | loop value block k _ hA' _ _ hC' _ ihB _ =>
    rw [List.map_append]
    exact ((enclosed_value value k hA' ihB).own.before (enclosed_declared hC')).right
  | value value k _ ih =>
    exact Enclosed.scopes (m := ⟨value.id, default⟩) k
      (Enclosed.after (.openScope value.mark) ih)
  | @scopes n _ _ _ k _ ih => exact Enclosed.scopes (m := ⟨n, default⟩) k ih

/-! ### Uses and openings -/

theorem uses_functionName (form : FunctionForm) (block : Anchor) (name : Option Identifier) :
    (Tree.functionName form block name).flatMap Action.uses = [] := by
  cases form <;> cases name <;> rfl

theorem uses_className (block : Anchor) (name : Option Identifier) :
    (Tree.className block name).flatMap Action.uses = [] := by
  cases name <;> rfl

theorem openings_functionName (form : FunctionForm) (block : Anchor) (name : Option Identifier) :
    (Tree.functionName form block name).flatMap Action.openings =
      if form = .expression ∧ name.isSome then [(.functionName, block.id)] else [] := by
  cases form <;> cases name <;> rfl

theorem openings_className (block : Anchor) (name : Option Identifier) :
    (Tree.className block name).flatMap Action.openings = [] := by
  cases name <;> rfl

theorem uses_closeScopes (k n : Nat) :
    (List.replicate k (Action.closeScopes n)).flatMap Action.uses = [] :=
  List.flatMap_eq_nil_iff.mpr fun a ha => by rw [(List.mem_replicate.mp ha).2]; rfl

theorem openings_closeScopes (k n : Nat) :
    (List.replicate k (Action.closeScopes n)).flatMap Action.openings = [] :=
  List.flatMap_eq_nil_iff.mpr fun a ha => by rw [(List.mem_replicate.mp ha).2]; rfl

theorem openings_site (reach : Reach) (A : List Action) :
    (Action.site reach A).flatMap Action.openings = A.flatMap Action.openings := by
  simp [Action.openings]

/-- The uses in the ledger of a phrase are those of its actions. -/
theorem uses (h : Phrase o mode M L A) : ↑(A.flatMap Action.uses) = L.1 := by
  induction h with
  | nil => rfl
  | append _ _ ihA ihB => rw [List.flatMap_append, ← Multiset.coe_add, ihA, ihB, Prod.fst_add]
  | embed _ ih => exact ih
  | quiet a ha => cases a <;> first | rfl | cases ha
  | refer | call | declare | openScope => rfl
  | site reach _ ih => simpa [Action.uses] using ih
  | function form m name strict _ ih =>
    simp [uses_functionName, Action.uses, Ledger.openings, ih]
  | classNode form m name _ ih =>
    cases form <;> cases o.isEs6 <;> simp [uses_className, Action.uses, Ledger.openings, ih]
  | catchClause m _ ih => simp [Action.uses, Ledger.openings, ih]
  | loop value block k _ _ _ _ _ ihA ihB ihC =>
    simp [← Multiset.coe_add, uses_closeScopes, Action.uses, Ledger.openings, ihA, ihB, ihC,
      add_assoc]
  | value value k _ ih => simp [uses_closeScopes, Action.uses, Ledger.openings, ih]
  | scopes k _ ih => rwa [List.flatMap_append, uses_closeScopes, List.append_nil]

/-- The openings in the ledger of a phrase are those of its actions. -/
theorem openings (h : Phrase o mode M L A) : ↑(A.flatMap Action.openings) = L.2.1 := by
  induction h with
  | nil => rfl
  | append _ _ ihA ihB =>
    rw [List.flatMap_append, ← Multiset.coe_add, ihA, ihB, Prod.snd_add, Prod.fst_add]
  | embed _ ih => exact ih
  | quiet a ha => cases a <;> first | rfl | cases ha
  | refer | call | declare | openScope => rfl
  | site reach _ ih => simpa [Action.openings] using ih
  | function form m name strict _ ih =>
    simp [openings_functionName, Action.openings, Ledger.openings, ← ih, Anchor.id]
  | classNode form m name _ ih =>
    cases form <;> cases o.isEs6 <;>
      simp [openings_className, Action.openings, Ledger.openings, ← ih, Anchor.id]
  | catchClause m _ ih => simp [Action.openings, Ledger.openings, ← ih, Anchor.id]
  | loop value block k _ _ _ _ _ ihA ihB ihC =>
    simp [openings_closeScopes, Action.openings, Ledger.openings, ← ihA, ← ihB, ← ihC]
  | value value k _ ih => simp [openings_closeScopes, Action.openings, Ledger.openings, ← ih]
  | scopes k _ ih => rwa [List.flatMap_append, openings_closeScopes, List.append_nil]

/-! ### Calls of `eval` -/

theorem callEval_notMem_functionName (form : FunctionForm) (block : Anchor)
    (name : Option Identifier) : .callEval ∉ Tree.functionName form block name := by
  cases form <;> cases name <;> simp [Tree.functionName, declareHere]

theorem callEval_notMem_className (block : Anchor) (name : Option Identifier) :
    .callEval ∉ Tree.className block name := by
  cases name <;> simp [Tree.className, declareHere]

/-- Every call of `eval` is directly followed by the read of its callee, and those callees are
`callees`. -/
def Pairs (callees : Multiset Identifier) (A : List Action) : Prop :=
  (∀ i ∈ callees, [.callEval, .refer i .read none] <:+: A) ∧
    ∀ B C, A = B ++ .callEval :: C → ∃ i ∈ callees, ∃ D, C = .refer i .read none :: D

namespace Pairs

variable {S T : Multiset Identifier} {A B : List Action}

theorem of_notMem (h : .callEval ∉ A) : Pairs 0 A := by
  refine ⟨fun i hi => absurd hi (Multiset.notMem_zero i), fun B C hA => absurd ?_ h⟩
  rw [hA]
  exact List.mem_append_right B List.mem_cons_self

theorem append (hA : Pairs S A) (hB : Pairs T B) : Pairs (S + T) (A ++ B) := by
  constructor
  · intro i hi
    rcases Multiset.mem_add.mp hi with hi | hi
    · exact (hA.1 i hi).trans (List.infix_append' [] A B)
    · exact (hB.1 i hi).trans (List.suffix_append A B).isInfix
  · intro D E hE
    rcases List.append_eq_append_iff.mp hE with ⟨F, rfl, hF⟩ | ⟨F, rfl, hF⟩
    · obtain ⟨i, hi, G, rfl⟩ := hB.2 F E hF
      exact ⟨i, Multiset.mem_add.mpr (.inr hi), G, rfl⟩
    · cases F with
      | nil =>
        obtain ⟨i, hi, G, rfl⟩ := hB.2 [] E hF.symm
        exact ⟨i, Multiset.mem_add.mpr (.inr hi), G, rfl⟩
      | cons a F =>
        obtain ⟨rfl, rfl⟩ := List.cons.inj hF
        obtain ⟨i, hi, G, rfl⟩ := hA.2 D F rfl
        exact ⟨i, Multiset.mem_add.mpr (.inl hi), G ++ B, rfl⟩

theorem before (hA : Pairs S A) (hB : .callEval ∉ B) : Pairs S (A ++ B) := by
  simpa only [add_zero] using hA.append (.of_notMem hB)

theorem after (hA : .callEval ∉ A) (hB : Pairs S B) : Pairs S (A ++ B) := by
  simpa only [zero_add] using (of_notMem hA).append hB

theorem site {reach : Reach} (h : Pairs S A) : Pairs S (Action.site reach A) :=
  (after (by simp) h).before (by simp)

theorem scope {kind : ScopeKind} {block : Anchor} {strict : Bool} (h : Pairs S A) :
    Pairs S (Action.scope kind block strict A) :=
  after (by simp) h.site

end Pairs

/-- The calls in the ledger of a phrase are those of its actions, each directly before the read of
the callee. -/
theorem pairs (h : Phrase o mode M L A) : Pairs L.2.2 A := by
  induction h with
  | nil => exact .of_notMem List.not_mem_nil
  | append _ _ ihA ihB => exact ihA.append ihB
  | embed _ ih => exact ih
  | quiet a ha =>
    refine .of_notMem fun h => ?_
    rw [← List.mem_singleton.mp h] at ha
    cases ha
  | refer | declare | openScope => exact .of_notMem (by simp)
  | call i =>
    have hcallees : (Ledger.call i + Ledger.use i (Use.flag .read)).2.2 = {i} := rfl
    rw [hcallees]
    refine ⟨fun j hj => ?_, fun B C hA => ⟨i, Multiset.mem_singleton_self i, [], ?_⟩⟩
    · cases Multiset.mem_singleton.mp hj
      exact List.infix_rfl
    · cases B with
      | nil => exact (List.cons.inj hA).2.symm
      | cons _ B => cases B <;> simp at hA
  | site reach _ ih => exact ih.site
  | function form m name strict _ ih =>
    simp only [Ledger.openings, Prod.snd_add, zero_add]
    exact .after (callEval_notMem_functionName _ _ _) ih.scope
  | classNode form m name _ ih =>
    simp only [Ledger.openings, Prod.snd_add, zero_add]
    refine Pairs.before (.after ?_ ih) ?_
    · split
      · exact callEval_notMem_className _ _
      · exact List.not_mem_nil
    · split
      · simpa using callEval_notMem_className _ _
      · exact List.not_mem_nil
  | catchClause m _ ih =>
    simp only [Ledger.openings, Prod.snd_add, zero_add]
    exact ih.scope
  | loop value block k _ _ _ _ _ ihA ihB ihC =>
    simp only [Ledger.openings, Prod.snd_add, zero_add]
    exact ((ihA.scope.append ihB).before (by simp)).append ihC.scope
  | value value k _ ih =>
    simp only [Ledger.openings, Prod.snd_add, zero_add]
    exact (Pairs.after (by simp) ih).before (by simp)
  | scopes k _ ih => exact ih.before (by simp)

/-! ### The names of function expressions -/

/-- The scope of a function's name is directly followed by that of the function. -/
def Followed (l : List (ScopeKind × Nat)) : Prop :=
  ∀ s n, l[s]? = some (.functionName, n) → l[s + 1]? = some (.function, n)

namespace Followed

variable {l l' : List (ScopeKind × Nat)}

theorem nil : Followed [] := by
  intro s n h
  cases h

theorem append (h : Followed l) (h' : Followed l') : Followed (l ++ l') := by
  intro s n hs
  rw [List.getElem?_append] at hs
  split at hs
  · next hlt =>
    have hnext := h s n hs
    rw [List.getElem?_append_left (List.getElem?_eq_some_iff.mp hnext).1]
    exact hnext
  · next hle =>
    rw [List.getElem?_append_right (by omega), Nat.sub_add_comm (Nat.le_of_not_lt hle)]
    exact h' _ n hs

theorem single {kind : ScopeKind} (n : Nat) (hkind : kind ≠ .functionName) :
    Followed [(kind, n)] := by
  intro s m hs
  cases s with
  | zero =>
    cases hs
    exact absurd rfl hkind
  | succ s => cases hs

theorem function (p : Prop) [Decidable p] (n : Nat) :
    Followed ((if p then [(ScopeKind.functionName, n)] else []) ++ [(ScopeKind.function, n)]) := by
  split
  · intro s m hs
    cases s with
    | zero =>
      cases hs
      rfl
    | succ s => cases s <;> cases hs
  · exact .single n (by decide)

end Followed

/-- In the openings of a phrase the scope of a function's name is directly followed by that of the
function. -/
theorem followed (h : Phrase o mode M L A) : Followed (A.flatMap Action.openings) := by
  induction h with
  | nil => exact .nil
  | append _ _ ihA ihB =>
    rw [List.flatMap_append]
    exact ihA.append ihB
  | embed _ ih => exact ih
  | quiet a ha =>
    cases a with
    | needScope | useThis | refuseImport => exact .nil
    | _ => cases ha
  | refer | call | declare => exact .nil
  | openScope kind block strict hkind => exact .single _ hkind.1
  | site reach _ ih => rwa [openings_site]
  | function form m name strict _ ih =>
    rw [List.flatMap_append, openings_functionName, List.flatMap_append, openings_site,
      ← List.append_assoc]
    exact (Followed.function _ m.id).append ih
  | classNode form m name _ ih =>
    rw [List.flatMap_append, List.flatMap_append]
    refine (Followed.append ?_ ih).append ?_
    · split
      · rw [openings_className]
        exact .nil
      · exact .nil
    · split
      · rw [List.flatMap_cons, openings_className]
        exact .single m.id (by decide)
      · exact .nil
  | catchClause m _ ih =>
    rw [List.flatMap_append, openings_site]
    exact (Followed.single m.id (by decide)).append ih
  | loop value block k _ _ _ _ _ ihA ihB ihC =>
    have htdz : Followed [(.tdz, value.id)] := .single _ (by decide)
    have hloop : Followed [(.loop, block.id)] := .single _ (by decide)
    simp only [List.flatMap_append, openings_closeScopes, List.flatMap_singleton, Action.openings,
      List.append_nil, List.nil_append]
    exact ((htdz.append ihA).append ihB).append (hloop.append ihC)
  | value value k _ ih =>
    rw [List.flatMap_append, openings_closeScopes, List.append_nil, List.flatMap_append]
    exact (Followed.single value.id (by decide)).append ih
  | scopes k _ ih => rwa [List.flatMap_append, openings_closeScopes, List.append_nil]

end Phrase

end EcmaScope
