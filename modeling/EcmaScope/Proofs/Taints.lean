import EcmaScope.Proofs.Certainty
import EcmaScope.Proofs.Writes

/-!
# What is tainted

A reference that may mean a property of an object is tainted. When it is resolved, it taints the
variable that it is resolved to, and the scope of that variable notes the name. The scope of a
function notes the name `arguments` from the beginning, since the variable can be reached by other
means. Nothing else is ever tainted, and no taint is taken back.

## Main definitions

* `Builder.stain`, `Builder.Stains`: a variable is tainted, and a reference that taints it.
* `Builder.Marked`: taints are noted where they should be.
* `Analysis.Exposed`: a name may mean a property of an object.

## Main results

* `Builder.Effects.induction`: what closing scopes and all other effects keep is kept by a run.
* `Builder.Effects.marked`: taints are noted where they should be.
* `Program.taints_exact`: which references, variables and names are tainted.
-/

namespace EcmaScope

/-- The name `arguments` in the scope of a function that has its own. -/
def Scope.IsOwnArguments (y : Scope) (name : String) : Prop :=
  name = "arguments" ∧ y.kind = .function ∧ y.block.isArrow = false

/-- The scope notes its own `arguments` and the names of its variables that are tainted. -/
def Scope.Notes (y : Scope) (stain : Nat → Bool) : Prop :=
  ∀ n, n ∈ y.taints ↔ y.IsOwnArguments n ∨ ∃ v, y.find? n = some v ∧ stain v = true

namespace Builder

variable {b b' : Builder} {o : Options} {s : Nat}

/-! ## Runs -/

/-- What closing one scope keeps and all other effects keep is kept by a run. -/
theorem Effects.induction {P : Builder → Prop}
    (hclose : ∀ {b b' : Builder} {s : Nat} {rest : List Nat}, WellFormed b →
      Journeys b o.optimistic → b.stack = s :: rest → b.closeScope o s = .ok b' → P b → P b')
    (heffect : ∀ {b b' : Builder} {a : Action}, Sound b → (∀ n, a ≠ .closeScopes n) →
      Effect o b a b' → P b → P b')
    {A : List Action} (h : Effects o b A b') (horderly : b.outline.Orderly A)
    (hj : Journeys b o.optimistic) (hP : P b) : P b' := by
  refine h.keeps (fun {b b' a} hb hj _ hstep h hP => ?_) horderly hj hP
  by_cases ha : ∃ n, a = .closeScopes n
  · obtain ⟨n, rfl⟩ := ha
    exact closeAll_induction hclose hb.wellFormed hj (openFor_append hb.wellFormed n).symm hstep hP
  · exact heffect hb (fun n hn => ha ⟨n, hn⟩) h hP

/-! ## Tainted variables -/

/-- The variable with a number is there and tainted. -/
def stain (b : Builder) (v : Nat) : Bool :=
  b.vars[v]?.any (·.tainted)

/-- A tainted reference has been resolved to the variable `v`. -/
def Stains (b : Builder) (v : Nat) : Prop :=
  ∃ (r : Nat) (x : Reference), b.references[r]? = some x ∧ x.resolved = some v ∧ x.tainted = true

private theorem stain_of_size_le {v : Nat} (hv : b.vars.size ≤ v) : b.stain v = false := by
  rw [stain, Array.getElem?_eq_none hv]
  rfl

private theorem stain_congr
    (h : ∀ v : Nat, (b'.vars[v]?).map (·.tainted) = (b.vars[v]?).map (·.tainted)) :
    b'.stain = b.stain := by
  funext v
  have hany (x : Option Variable) : x.any (·.tainted) = (x.map (·.tainted)).any id := by
    cases x <;> rfl
  rw [stain, hany, h, stain, hany]

@[simp] theorem stain_modifyScope (b : Builder) (s : Nat) (f : Scope → Scope) :
    (b.modifyScope s f).stain = b.stain :=
  rfl

@[simp] theorem stain_ensure (b : Builder) (bindings : Bindings) (s : Nat) (name : String) :
    (b.ensure bindings s name).1.stain = b.stain := by
  rcases b.ensure_cases bindings s name with ⟨v, -, heq⟩ | ⟨-, heq⟩
  · rw [heq]
  · funext v
    rw [heq, stain, stain, Array.getElem?_push]
    by_cases hv : v = b.vars.size
    · simp [hv]
    · simp [hv]

@[simp] theorem stain_define (b : Builder) (v : Nat) (d : Definition) :
    (b.define v d).stain = b.stain := by
  refine stain_congr fun u => ?_
  rw [vars_define, Array.getElem?_modify]
  split
  · rw [Option.map_map]
    rfl
  · rfl

@[simp] theorem stain_declareIn (b : Builder) (s : Nat) (d : Definition) :
    (b.declareIn s d).stain = b.stain := by
  unfold declareIn
  split <;> simp

@[simp] theorem stain_declareImplicit (b : Builder) (s : Nat) (d : Definition) :
    (b.declareImplicit s d).stain = b.stain := by
  unfold declareImplicit
  split
  · rfl
  · split <;> simp

@[simp] theorem stain_declareArguments (b : Builder) (s : Nat) :
    (b.declareArguments s).stain = b.stain := by
  unfold declareArguments
  split <;> simp

@[simp] theorem stain_pushScope (b : Builder) (scope : Scope) :
    (b.pushScope scope).stain = b.stain :=
  stain_congr fun v => by rw [vars_pushScope]

private theorem stains_congr (h : b'.references = b.references) (v : Nat) :
    b'.Stains v ↔ b.Stains v := by
  rw [Stains, h, Stains]

/-- What is given to a scope under a name is not tainted, unless it has been there. -/
theorem find?_ensure_iff {bindings : Bindings} {name n : String} {v : Nat}
    (hv : b.stain v = true) :
    (b.ensure bindings s name).2.1.find? n = some v ↔ bindings.find? n = some v := by
  rcases b.ensure_cases bindings s name with ⟨u, -, heq⟩ | ⟨hnone, heq⟩
  · rw [heq]
  · have hne : b.vars.size ≠ v := fun e => by
      rw [stain_of_size_le (Nat.le_of_eq e)] at hv
      cases hv
    rw [heq, Bindings.find?_add]
    by_cases hn : n = name
    · simp [hn, hnone, hne]
    · simp [hn]

/-! ## Marking -/

/-- A variable is tainted if a tainted reference has been resolved to it, and the scopes note what
they should. -/
structure Marked (b : Builder) : Prop where
  stain_iff : ∀ v, b.stain v = true ↔ b.Stains v
  notes : ∀ {t : Nat} {y : Scope}, b.scopes[t]? = some y → y.Notes b.stain

section

variable (o : Options) (b : Builder) (kind : ScopeKind) (block : Anchor) (strict : Bool) (v : Nat)

private theorem notes_newScope (h : ¬ (kind = .function ∧ block.isArrow = false))
    (stain : Nat → Bool) : (b.newScope o kind block strict v).Notes stain := by
  intro n
  refine iff_of_false (by simp [newScope]) ?_
  rintro (⟨-, hfunction⟩ | ⟨u, hu, -⟩)
  · exact h hfunction
  · simp [find?_newScope] at hu

/-- The scope of a function that has been given its own `arguments`. -/
theorem notes_newFunction (h : kind = .function ∧ block.isArrow = false) (b' : Builder) (s : Nat) :
    { b.newScope o kind block strict v with
      bindings := (b'.ensure (b.newScope o kind block strict v).bindings s "arguments").2.1
      taints := (b.newScope o kind block strict v).taints.insert "arguments" : Scope }.Notes
        b'.stain := by
  intro n
  rw [Std.TreeSet.mem_insert, Std.LawfulEqCmp.compare_eq_iff_eq]
  constructor
  · rintro (rfl | hmem)
    · exact Or.inl ⟨rfl, h⟩
    · simp [newScope] at hmem
  · rintro (⟨rfl, -⟩ | ⟨u, hu, hstain⟩)
    · exact Or.inl rfl
    · have hold := (find?_ensure_iff hstain).mp hu
      change (b.newScope o kind block strict v).find? n = some u at hold
      simp [find?_newScope] at hold

end

namespace Marked

theorem empty : Marked {} where
  stain_iff v := by simp [stain, Stains]
  notes h := by simp at h

/-- Scopes are edited, and nothing is tainted in addition. -/
theorem edited {edit : Nat → Scope → Scope} (hb : Marked b) (h : Edited edit b b')
    (hstain : b'.stain = b.stain) (hstains : ∀ v, b'.Stains v ↔ b.Stains v)
    (hkeep : ∀ t y, (edit t y).kind = y.kind ∧ (edit t y).block = y.block ∧
      (edit t y).taints = y.taints)
    (hfind : ∀ {t y n v}, b.scopes[t]? = some y → b.stain v = true →
      ((edit t y).find? n = some v ↔ y.find? n = some v)) : Marked b' where
  stain_iff v := by rw [hstain, hb.stain_iff, hstains]
  notes := by
    intro t y' hy' n
    rw [h.scopes] at hy'
    obtain ⟨y, hy, rfl⟩ := Option.map_eq_some_iff.mp hy'
    obtain ⟨hkind, hblock, htaints⟩ := hkeep t y
    rw [htaints, hb.notes hy, Scope.IsOwnArguments, Scope.IsOwnArguments, hkind, hblock, hstain]
    refine or_congr_right (exists_congr fun v => and_congr_left fun hv => ?_)
    exact (hfind hy hv).symm

/-- Scopes are edited, but not their variables and what they note. -/
theorem same {edit : Nat → Scope → Scope} (hb : Marked b) (h : Edited edit b b')
    (hstain : b'.stain = b.stain) (hstains : ∀ v, b'.Stains v ↔ b.Stains v)
    (hkeep : ∀ t y, (edit t y).kind = y.kind ∧ (edit t y).block = y.block ∧
      (edit t y).taints = y.taints ∧ (edit t y).bindings = y.bindings) : Marked b' := by
  refine hb.edited h hstain hstains (fun t y => ?_) fun {t y n v} _ _ => ?_
  · exact ⟨(hkeep t y).1, (hkeep t y).2.1, (hkeep t y).2.2.1⟩
  · rw [Scope.find?, (hkeep t y).2.2.2, Scope.find?]

theorem modifyScope (hb : Marked b) (s : Nat) {f : Scope → Scope}
    (hf : ∀ y, (f y).kind = y.kind ∧ (f y).block = y.block ∧ (f y).taints = y.taints ∧
      (f y).bindings = y.bindings) : Marked (b.modifyScope s f) := by
  refine hb.same (edited_modifyScope b s f) rfl (fun _ => Iff.rfl) fun t y => ?_
  split
  · exact hf y
  · exact ⟨rfl, rfl, rfl, rfl⟩

theorem declareIn (hb : Marked b) (s : Nat) (d : Definition) : Marked (b.declareIn s d) := by
  cases hs : b.scopes[s]? with
  | none => rwa [declareIn_eq_self hs]
  | some scope =>
    refine hb.edited (edited_declareIn hs d) (stain_declareIn b s d)
      (stains_congr (references_declareIn b s d)) (fun t y => ?_) fun {t y n v} hy hv => ?_
    · split <;> exact ⟨rfl, rfl, rfl⟩
    · split
      · next ht =>
        rw [ht, hs] at hy
        cases hy
        exact find?_ensure_iff hv
      · rfl

/-- A scope is opened. That of a function notes the name `arguments`. -/
theorem opened (hb : Marked b) (o : Options) (kind : ScopeKind) (block : Anchor) (strict : Bool)
    (v : Nat) : Marked (if kind = .function && !block.isArrow then
        (b.pushScope (b.newScope o kind block strict v)).declareArguments b.scopes.size
      else b.pushScope (b.newScope o kind block strict v)) := by
  have hold {t : Nat} {y : Scope} (ht : t ≠ b.scopes.size)
      (hy : (b.pushScope (b.newScope o kind block strict v)).scopes[t]? = some y) :
      y.Notes b.stain := by
    rw [scopes_pushScope, if_neg ht] at hy
    obtain ⟨z, hz, rfl⟩ := Option.map_eq_some_iff.mp hy
    split <;> exact fun n => hb.notes hz n
  have hnew : (b.pushScope (b.newScope o kind block strict v)).scopes[b.scopes.size]? =
      some (b.newScope o kind block strict v) := by
    rw [scopes_pushScope, if_pos rfl]
  split
  · next hfunction =>
    refine ⟨fun u => ?_, fun {t y'} hy' => ?_⟩
    · rw [stain_declareArguments, stain_pushScope, hb.stain_iff]
      refine (stains_congr ?_ u).symm
      rw [references_declareArguments, references_pushScope]
    · rw [(edited_declareArguments hnew).scopes] at hy'
      obtain ⟨y, hy, rfl⟩ := Option.map_eq_some_iff.mp hy'
      by_cases ht : t = b.scopes.size
      · subst ht
        cases hnew.symm.trans hy
        rw [if_pos rfl, stain_declareArguments]
        exact notes_newFunction o b kind block strict v (by simpa using hfunction) _ _
      · rw [if_neg ht, stain_declareArguments, stain_pushScope]
        exact hold ht hy
  · next hfunction =>
    refine ⟨fun u => ?_, fun {t y} hy => ?_⟩
    · rw [stain_pushScope, hb.stain_iff]
      exact (stains_congr (references_pushScope b _) u).symm
    · rw [stain_pushScope]
      by_cases ht : t = b.scopes.size
      · subst ht
        cases hnew.symm.trans hy
        exact notes_newScope o b kind block strict v (by simpa using hfunction) _
      · exact hold ht hy

/-! ### Closing scopes -/

theorem letThrough (hb : Marked b) (s r : Nat) : Marked (b.letThrough s r) :=
  hb.modifyScope s fun _ => ⟨rfl, rfl, rfl, rfl⟩

theorem passOn {r : Nat} (hb : Marked b) (h : b.passOn s r = .ok b') : Marked b' := by
  unfold Builder.passOn at h
  split at h
  · cases h
    exact hb.letThrough s r
  · split at h
    · cases h
    · cases h
      refine letThrough ?_ s r
      exact hb.modifyScope _ fun _ => ⟨rfl, rfl, rfl, rfl⟩

/-- A reference that has not been resolved taints nothing. -/
theorem taint {r : Nat} {x : Reference} (hb : Marked b) (hx : b.references[r]? = some x)
    (hresolved : x.resolved = none) (h : b.taint s r = .ok b') : Marked b' := by
  refine Marked.passOn ?_ h
  refine ⟨fun v => ?_, hb.notes⟩
  change b.stain v = true ↔ _
  rw [hb.stain_iff]
  refine exists_congr fun q => ?_
  simp only [getElem?_modify_references]
  by_cases hq : q = r
  · subst hq
    simp [hx, hresolved]
  · simp [hq]

end Marked

/-- What a scope binds under a name is a variable of the scope with that name. -/
def NamesOwn (b : Builder) : Prop :=
  ∀ {name : String} {t v : Nat}, b.variableIn? name t = some v →
    ∃ z : Variable, b.vars[v]? = some z ∧ z.scope = t ∧ z.name = name

private theorem NamesOwn.treated {fate : Nat → Verdict} {enclosing l : List Nat} (hb : NamesOwn b)
    (h : Treated fate s enclosing l b b') : NamesOwn b' := by
  intro name t v hv
  rw [h.variableIn?] at hv
  obtain ⟨z, hz, hscope, hname⟩ := hb hv
  obtain ⟨z', hz', hscope', hname'⟩ := h.vars v z hz
  exact ⟨z', hz', hscope'.trans hscope, hname'.trans hname⟩

section

variable {r v : Nat} {x : Reference}

private theorem stain_resolve (hv : (b.vars[v]?).isSome = true) (u : Nat) :
    (b.resolve s r v x).stain u = (b.stain u || decide (u = v) && x.tainted) := by
  obtain ⟨z, hz⟩ := Option.isSome_iff_exists.mp hv
  rw [stain, vars_resolve, Array.getElem?_modify, stain]
  by_cases hu : u = v
  · simp [hu, hz]
  · simp [hu, Ne.symm hu]

private theorem stains_resolve (hx : b.references[r]? = some x) (hresolved : x.resolved = none)
    (u : Nat) : (b.resolve s r v x).Stains u ↔ b.Stains u ∨ u = v ∧ x.tainted = true := by
  have hreferences : (b.resolve s r v x).references =
      b.references.modify r fun x => { x with resolved := some v } := by
    unfold resolve
    cases x.tainted <;> rfl
  simp only [Stains, hreferences, getElem?_modify_references, Option.map_eq_some_iff]
  constructor
  · rintro ⟨q, x', ⟨x₀, hx₀, rfl⟩, hu, htainted⟩
    by_cases hq : q = r
    · subst hq
      cases hx.symm.trans hx₀
      rw [if_pos rfl] at hu htainted
      exact Or.inr ⟨(Option.some.inj hu).symm, htainted⟩
    · rw [if_neg hq] at hu htainted
      exact Or.inl ⟨q, x₀, hx₀, hu, htainted⟩
  · rintro (⟨q, x₀, hx₀, hu, htainted⟩ | ⟨rfl, htainted⟩)
    · have hq : q ≠ r := by
        rintro rfl
        cases hx.symm.trans hx₀
        rw [hresolved] at hu
        cases hu
      exact ⟨q, x₀, ⟨x₀, hx₀, by rw [if_neg hq]⟩, hu, htainted⟩
    · exact ⟨r, _, ⟨x, hx, rfl⟩, by rw [if_pos rfl], by rwa [if_pos rfl]⟩

/-- Of all names in all scopes, only that of the reference in its scope stands for the variable. -/
private theorem NamesOwn.find?_eq_some_iff (hb : NamesOwn b) (hv : b.variableIn? x.name s = some v)
    {t : Nat} {y : Scope} (hy : b.scopes[t]? = some y) (n : String) :
    y.find? n = some v ↔ t = s ∧ n = x.name := by
  have hfind : b.variableIn? n t = y.find? n := by
    rw [Analysis.variableIn?_eq, hy]
    rfl
  rw [← hfind]
  constructor
  · intro hn
    obtain ⟨z, hz, rfl, rfl⟩ := hb hn
    obtain ⟨z', hz', hscope, hname⟩ := hb hv
    cases hz.symm.trans hz'
    exact ⟨hscope, hname⟩
  · rintro ⟨rfl, rfl⟩
    exact hv

/-- Resolving a tainted reference taints its variable, and the scope notes the name. -/
theorem Marked.resolve (hb : Marked b) (hnames : NamesOwn b) (hx : b.references[r]? = some x)
    (hresolved : x.resolved = none) (hv : b.variableIn? x.name s = some v) :
    Marked (b.resolve s r v x) := by
  have hsome : (b.vars[v]?).isSome = true := by
    obtain ⟨z, hz, -⟩ := hnames hv
    rw [hz]
    rfl
  refine ⟨fun u => ?_, fun {t y'} hy' n => ?_⟩
  · rw [stain_resolve hsome, stains_resolve hx hresolved, ← hb.stain_iff]
    simp
  · rw [(edited_resolve b s r v x).scopes] at hy'
    obtain ⟨y, hy, rfl⟩ := Option.map_eq_some_iff.mp hy'
    have hright : (∃ u, y.find? n = some u ∧ (b.resolve s r v x).stain u = true) ↔
        (∃ u, y.find? n = some u ∧ b.stain u = true) ∨
          (t = s ∧ n = x.name) ∧ x.tainted = true := by
      rw [← hnames.find?_eq_some_iff hv hy]
      simp only [stain_resolve hsome, Bool.or_eq_true, Bool.and_eq_true, decide_eq_true_iff,
        and_or_left, exists_or]
      refine or_congr_right ⟨?_, fun h => ⟨v, h.1, rfl, h.2⟩⟩
      rintro ⟨u, hu, rfl, htainted⟩
      exact ⟨hu, htainted⟩
    by_cases hnoted : t = s ∧ x.tainted = true
    · rw [if_pos hnoted]
      change n ∈ y.taints.insert x.name ↔ y.IsOwnArguments n ∨ ∃ u, y.find? n = some u ∧ _
      rw [Std.TreeSet.mem_insert, Std.LawfulEqCmp.compare_eq_iff_eq, hright, ← or_assoc,
        ← hb.notes hy n]
      simp [hnoted, or_comm, eq_comm]
    · rw [if_neg hnoted, hright, ← or_assoc, ← hb.notes hy n, or_iff_left]
      exact fun h => hnoted ⟨h.1.1, h.2⟩

theorem Marked.settle (hb : Marked b) (hnames : NamesOwn b) (hx : b.references[r]? = some x)
    (hresolved : x.resolved = none) (h : b.settle s r = .ok b') : Marked b' := by
  simp only [Builder.settle, hx] at h
  cases hv : b.variableIn? x.name s with
  | none =>
    rw [hv] at h
    exact hb.passOn h
  | some v =>
    rw [hv] at h
    cases h
    exact hb.resolve hnames hx hresolved hv

end

/-- References are treated one after the other, none of which has been resolved before. -/
theorem Ready.marked {optimistic : Bool} {scope : Scope} {fate : Nat → Verdict}
    {left l : List Nat} {treat : Builder → Nat → Except AnalysisError Builder}
    (htreated : ∀ b r, Ready optimistic scope fate s left b → r ∈ left →
      ∃ b', treat b r = .ok b' ∧ Treated fate s scope.enclosing [r] b b')
    (hmarked : ∀ {b b' : Builder} {r : Nat} {x : Reference}, NamesOwn b →
      b.references[r]? = some x → x.resolved = none → treat b r = .ok b' → Marked b → Marked b')
    (h : Ready optimistic scope fate s left b) (hl : l ⊆ left) (hnames : NamesOwn b)
    (hunresolved : b.Unresolved l) (hb : Marked b) (hfold : l.foldlM treat b = .ok b') :
    Marked b' := by
  induction l generalizing b with
  | nil =>
    cases hfold
    exact hb
  | cons r l ih =>
    obtain ⟨b₁, hb₁, hfirst⟩ := htreated b r h (hl List.mem_cons_self)
    obtain ⟨x, hx, hresolved⟩ := hunresolved.resolved r List.mem_cons_self
    rw [List.foldlM_cons, hb₁] at hfold
    exact ih (h.treated hfirst) (List.cons_subset.mp hl).2 (hnames.treated hfirst)
      (hunresolved.tail hfirst) (hmarked hnames hx hresolved hb₁ hb) hfold

private theorem Ready.marked_settleAll {scope : Scope} {fate : Nat → Verdict} {left : List Nat}
    (h : Ready o.optimistic scope fate s left b) (hnames : NamesOwn b)
    (hunresolved : b.Unresolved left) (hb : Marked b)
    (hsettle : b.settleAll o s scope left = .ok b') : Marked b' := by
  unfold settleAll at hsettle
  split at hsettle
  · next hstatic =>
    exact h.marked (fun b r hready hr => hready.settle hr hstatic)
      (fun hnames hx hresolved hr hb => hb.settle hnames hx hresolved hr) (List.Subset.refl _)
      hnames hunresolved hb hsettle
  · next hstatic =>
    split at hsettle
    · next hkind =>
      exact h.marked (fun b r hready hr => hready.taint hr hstatic hkind)
        (fun _ hx hresolved hr hb => hb.taint hx hresolved hr) (List.Subset.refl _)
        hnames hunresolved hb hsettle
    · cases hsettle
      have hlet (l : List Nat) (r : Nat) (b : Builder) (hb : Marked b) :
          Marked (b.abandon l r) := by
        induction l generalizing b with
        | nil => exact hb
        | cons t l ih => exact ih _ (hb.letThrough t r)
      clear h hnames hunresolved
      induction left generalizing b with
      | nil => exact hb
      | cons r left ih => exact ih (hlet _ r b hb)

theorem Marked.createImplicits (hb : Marked b) (s : Nat) (left : Array Nat) :
    Marked (b.createImplicits s left) := by
  have hone {b : Builder} (hb : Marked b) (r : Nat) : Marked (b.createImplicit s r) := by
    unfold createImplicit
    split
    · exact hb
    split
    · exact hb
    split
    · exact hb
    · obtain ⟨implicit, hedited⟩ := edited_declareImplicit b s _
      refine hb.same hedited (stain_declareImplicit b s _)
        (stains_congr (references_declareImplicit b s _)) fun t y => ?_
      split <;> exact ⟨rfl, rfl, rfl, rfl⟩
  have hall (l : List Nat) {b : Builder} (hb : Marked b) :
      Marked (l.foldl (fun b r => b.createImplicit s r) b) := by
    induction l generalizing b with
    | nil => exact hb
    | cons r l ih => exact ih (hone hb r)
  exact (hall left.toList hb).modifyScope s fun _ => ⟨rfl, rfl, rfl, rfl⟩

theorem Marked.closeScope {rest : List Nat} (hb : Marked b) (hwell : WellFormed b)
    (hj : Journeys b o.optimistic) (hstack : b.stack = s :: rest)
    (h : b.closeScope o s = .ok b') : Marked b' := by
  obtain ⟨scope, left, b₁, hscope, hleft, hsettle, rfl⟩ := closeScope_cases h
  have hpendingOf : b.pendingOf s = left.toList := by
    simp [Analysis.pendingOf, hscope, hleft]
  obtain ⟨-, hready⟩ :=
    ready_stopWaiting o.optimistic hwell.layout hstack hscope (hwell.pending_lt s)
  have hwaiting : Marked (b.stopWaiting s) := hb.modifyScope s fun _ => ⟨rfl, rfl, rfl, rfl⟩
  have hnames : NamesOwn (b.stopWaiting s) := by
    intro name t v hv
    rw [variableIn?_stopWaiting] at hv
    exact hwell.variable_eq hv
  have hunresolved : (b.stopWaiting s).Unresolved left.toList := by
    obtain ⟨hnodup, hresolved⟩ := hj.unresolved hwell s
    rw [hpendingOf] at hnodup hresolved
    exact ⟨hnodup, hresolved⟩
  rw [hpendingOf] at hready
  have hsettled := hready.marked_settleAll hnames hunresolved hwaiting hsettle
  have hmarked : Marked (if scope.kind = .global then b₁.createImplicits s left else b₁) := by
    split
    · exact hsettled.createImplicits s left
    · exact hsettled
  exact ⟨hmarked.stain_iff, hmarked.notes⟩

/-- All other effects taint nothing. -/
theorem Marked.effect {a : Action} (hb : Marked b) (ha : ∀ n, a ≠ .closeScopes n)
    (h : Effect o b a b') : Marked b' := by
  cases h with
  | openScope kind block strict v => exact hb.opened o kind block strict v
  | closeScopes n => exact absurd rfl (ha n)
  | beginSite | endSite => exact ⟨hb.stain_iff, hb.notes⟩
  | declare d => exact hb.declareIn _ d
  | @refer _ i use creator s pending hs hreferences hvars hedited =>
    refine hb.same hedited (stain_congr fun v => by rw [hvars]) (fun v => ?_) fun t y => ?_
    · refine exists_congr fun q => ?_
      rw [hreferences, Array.getElem?_push]
      by_cases hq : q = b.references.size
      · simp [hq, newReference]
      · simp [hq]
    · split <;> exact ⟨rfl, rfl, rfl, rfl⟩
  | needScope => exact hb
  | useThis s => exact hb.modifyScope s fun _ => ⟨rfl, rfl, rfl, rfl⟩
  | callEval _ hreferences hvars hedited =>
    exact hb.same hedited (stain_congr fun v => by rw [hvars]) (stains_congr hreferences)
      fun _ _ => ⟨rfl, rfl, rfl, rfl⟩

/-- Taints are noted where they should be after every run. -/
theorem Effects.marked {A : List Action} (h : Effects o b A b') (horderly : b.outline.Orderly A)
    (hj : Journeys b o.optimistic) (hb : Marked b) : Marked b' :=
  h.induction (fun hwell hj hstack hclose hb => hb.closeScope hwell hj hstack hclose)
    (fun _ ha heffect hb => hb.effect ha heffect) horderly hj hb

end Builder

/-! ## Tainted references -/

/-- A name that occurs in the scope `s` may mean a property of an object: it comes to a `with` on
its way outwards, past scopes that do not declare it and keep the meanings of their names, and past
other `with`. -/
def Analysis.Exposed (a : Analysis) (name : String) (s : Nat) : Prop :=
  ∃ w y, a.Inside s w ∧ a.scopes[w]? = some y ∧ y.kind = .withStatement ∧
    ∀ (t : Nat) (z : Scope), a.Inside s t → a.Within t w → a.scopes[t]? = some z →
      z.kind = .withStatement ∨ z.isStatic = true ∧ z.find? name = none

/-- Which scopes let a name pass if no optimist is at work. -/
theorem Scope.passes_verdict_iff {y : Scope} (hwith : y.kind = .withStatement → y.isStatic = false)
    (name : String) : (y.verdict false name).passes = true ↔
      y.kind = .withStatement ∨ y.isStatic = true ∧ y.find? name = none := by
  by_cases hstatic : y.isStatic = true
  · have hkind : y.kind ≠ .withStatement := fun hkind => by simp [hwith hkind] at hstatic
    cases hv : y.find? name with
    | some v => simp [verdict_of_find?_some (Or.inl hstatic) hv, hkind, Verdict.passes]
    | none => simp [verdict_of_find?_none (Or.inl hstatic) hv, hstatic, Verdict.passes]
  · have hunsure : y.isStatic = false ∧ false = false := ⟨by simpa using hstatic, rfl⟩
    by_cases hkind : y.kind = .withStatement
    · simp [verdict_of_with hunsure hkind, hkind, Verdict.passes]
    · simp [verdict_of_ne_with hunsure hkind, hkind, hstatic, Verdict.passes]

/-- If no optimist is at work, the references whose names may mean properties are tainted. -/
theorem Builder.Traced.tainted_iff_exposed {b : Builder} {r : Nat} {x : Reference}
    {passed rest : List Nat} (h : Traced b false r x passed rest) (hb : WellFormed b)
    (hstack : b.stack = []) (hwith : ∀ (t : Nat) (y : Scope), b.scopes[t]? = some y →
      y.kind = .withStatement → y.isStatic = false) :
    x.tainted = true ↔ b.Exposed x.name x.scope := by
  obtain ⟨f, hf, hchain⟩ := h.chain
  have hinside (t : Nat) : b.Inside x.scope t ↔ t ∈ passed ++ rest := by
    rw [Analysis.inside_iff hb.layout hf, hchain]
  have hchained := h.chained hb
  rw [h.tainted_iff_with hwith, and_iff_right rfl]
  constructor
  · rintro ⟨w, hw, y, hy, hkind⟩
    refine ⟨w, y, (hinside w).mpr (List.mem_append_left rest hw), hy, hkind, ?_⟩
    intro t z ht hwithin hz
    obtain ⟨l₁, l₂, rfl⟩ := List.append_of_mem hw
    rw [hinside, List.append_assoc] at ht
    rw [List.append_assoc] at hchained
    have hmem := (Builder.mem_passed_iff hb.layout hchained rfl).mpr ⟨ht, hwithin⟩
    obtain ⟨d, hruled, hd⟩ := h.passes t (List.mem_append_left _ hmem)
    obtain ⟨z', hz', rfl⟩ := hruled.exists_scope
    cases hz.symm.trans hz'
    exact (Scope.passes_verdict_iff (hwith t z hz) _).mp hd
  · rintro ⟨w, y, hw, hy, hkind, hbelow⟩
    refine ⟨w, ?_, y, hy, hkind⟩
    rcases List.mem_append.mp ((hinside w).mp hw) with hmem | hmem
    · exact hmem
    · -- otherwise the reference would have been stopped before it came past the `with`
      exfalso
      obtain ⟨u, rest', rfl⟩ := List.exists_cons_of_ne_nil (List.ne_nil_of_mem hmem)
      obtain ⟨d, hruled, hd⟩ := h.stopped hb hstack rfl
      obtain ⟨z, hz, rfl⟩ := hruled.exists_scope
      have hnot := (Scope.passes_verdict_iff (hwith u z hz) x.name).not.mp (by simp [hd])
      refine hnot ?_
      rcases List.mem_cons.mp hmem with rfl | hmem
      · cases hy.symm.trans hz
        exact Or.inl hkind
      · refine hbelow u z ((hinside u).mpr (List.mem_append_right _ List.mem_cons_self)) ?_ hz
        obtain ⟨g, hg, rfl⟩ := (Chained.of_append passed hchained).frame
        exact (Analysis.within_iff hb.layout hg).mpr hmem

/-- If the nodes of a program are distinct, exactly those references are tainted whose names may
mean properties, and none for an optimist. A variable is tainted if and only if a tainted reference
stands for it. A scope notes the names of its tainted variables, and the scope of a function that is
not an arrow also notes `arguments`. -/
theorem Program.taints_exact {o : Options} {p : Program} {a : Analysis}
    (hids : (Tree.ids p).Nodup) (h : Program.analyze o p = .ok a) :
    (∀ (r : Nat) (x : Reference), a.references[r]? = some x →
        (x.tainted = true ↔ o.optimistic = false ∧ a.Exposed x.name x.scope)) ∧
      (∀ (v : Nat) (z : Variable), a.vars[v]? = some z → (z.tainted = true ↔
        ∃ (r : Nat) (x : Reference), a.references[r]? = some x ∧ x.resolved = some v ∧
          x.tainted = true)) ∧
      ∀ (s : Nat) (y : Scope), a.scopes[s]? = some y → ∀ n, n ∈ y.taints ↔
        (n = "arguments" ∧ y.kind = .function ∧ y.block.isArrow = false) ∨
          ∃ v z, y.find? n = some v ∧ a.vars[v]? = some z ∧ z.tainted = true := by
  have hwith := Program.isStatic_of_with h
  refine ⟨fun r x hx => ?_, ?_⟩
  · obtain ⟨b, rfl, hb⟩ := Program.exists_finished h
    obtain ⟨passed, rest, htraced⟩ := hb.traces hids r x hx
    cases hoptimistic : o.optimistic with
    | true =>
      rw [hoptimistic] at htraced
      rw [htraced.tainted_iff_with hwith]
      exact iff_of_false (fun h => Bool.noConfusion h.1) fun h => Bool.noConfusion h.1
    | false =>
      rw [hoptimistic] at htraced
      rw [htraced.tainted_iff_exposed hb.wellFormed hb.stack hwith, and_iff_right rfl]
  · obtain ⟨b, rfl, heffects⟩ := Program.exists_effects h
    have hmarked := heffects.marked (Program.orderly_actions o hids)
      (fun r x hx => by simp at hx) .empty
    have hstain {v : Nat} {z : Variable} (hz : b.vars[v]? = some z) : b.stain v = z.tainted := by
      rw [Builder.stain, hz]
      rfl
    refine ⟨fun v z hz => ?_, fun s y hy n => ?_⟩
    · rw [← hstain hz]
      exact hmarked.stain_iff v
    · rw [hmarked.notes hy n]
      refine or_congr_right (exists_congr fun v => ?_)
      rw [Builder.stain, Option.any_eq_true, ← exists_and_left]

/-- A name that is read inside a `with` may mean a property, so the variable of the function around
it is tainted, and the function notes the name. -/
theorem Program.taints_exact_with : (Tree.ids Program.readInWith).Nodup ∧
    ∃ a x z y, Program.analyze {} .readInWith = .ok a ∧ a.references[1]? = some x ∧
      x.tainted = true ∧ a.Exposed x.name x.scope ∧ a.vars[2]? = some z ∧ z.tainted = true ∧
      a.scopes[1]? = some y ∧ "x" ∈ y.taints := by
  have hids : (Tree.ids Program.readInWith).Nodup := by decide
  have hreference : ((Program.analyze {} .readInWith).toOption.bind fun a =>
    (a.references[1]?).map (·.tainted)) = some true := by decide +kernel
  have hvariable : ((Program.analyze {} .readInWith).toOption.bind fun a =>
    (a.vars[2]?).map (·.tainted)) = some true := by decide +kernel
  have hscope : ((Program.analyze {} .readInWith).toOption.bind fun a =>
    (a.scopes[1]?).map (·.find? "x")) = some (some 2) := by decide +kernel
  cases h : Program.analyze {} .readInWith with
  | error e =>
    rw [h] at hscope
    cases hscope
  | ok a =>
    rw [h] at hreference hvariable hscope
    obtain ⟨x, hx, htainted⟩ := Option.map_eq_some_iff.mp hreference
    obtain ⟨z, hz, hstained⟩ := Option.map_eq_some_iff.mp hvariable
    obtain ⟨y, hy, hfind⟩ := Option.map_eq_some_iff.mp hscope
    obtain ⟨hreferences, -, hscopes⟩ := Program.taints_exact hids h
    exact ⟨hids, a, x, z, y, rfl, hx, htainted, ((hreferences 1 x hx).mp htainted).2, hz, hstained,
      hy, (hscopes 1 y hy "x").mpr (Or.inr ⟨2, z, hfind, hz, hstained⟩)⟩

end EcmaScope
