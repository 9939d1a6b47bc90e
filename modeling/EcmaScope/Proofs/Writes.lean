import EcmaScope.Proofs.Journeys
import EcmaScope.Proofs.Lasting

/-!
# What is written into the tables

Scopes, variables and references refer to each other by number. Whatever the builder does, it writes
these numbers in four ways only: a variable is made and listed with a scope, a scope is opened
with nothing in it, a reference is made and listed with a scope, or a reference is resolved to a
variable. Everything else that happens to the tables leaves the numbers alone.

A reference is resolved at most once, since it waits in at most one scope, and there only once.

## Main definitions

* `Origin`, `Scope.table?`: the two tables of variables of a scope.
* `Builder.Same`: the entries of the tables refer to each other as before.
* `Builder.Write`, `Builder.Writes`: the ways of writing, and writing step by step.

## Main results

* `Builder.writes_closeScope`: closing a scope is writing.
* `Builder.Effects.writes`: so are the actions of a program.
-/

namespace EcmaScope

/-- How a variable has come into a scope. -/
inductive Origin where
  /-- By declarations. -/
  | declared
  /-- By an assignment, where nothing declares the name. -/
  | implicit
  deriving DecidableEq, Repr

namespace Scope

/-- The variables of a scope by their origin. -/
def table? (y : Scope) : Origin → Option Bindings
  | .declared => some y.bindings
  | .implicit => y.implicit.map ImplicitGlobals.bindings

/-- The scope with other variables of an origin that it has variables of. -/
def setTable (y : Scope) (k : Origin) (bindings : Bindings) : Scope :=
  match k with
  | .declared => { y with bindings := bindings }
  | .implicit => { y with implicit := y.implicit.map fun i => { i with bindings := bindings } }

theorem table?_setTable (y : Scope) (k j : Origin) (bindings : Bindings)
    (hk : (y.table? k).isSome = true) :
    (y.setTable k bindings).table? j = if j = k then some bindings else y.table? j := by
  cases k with
  | declared => cases j <;> rfl
  | implicit =>
    obtain ⟨i, hi⟩ := Option.isSome_iff_exists.mp (by simpa [table?] using hk)
    cases j
    · rfl
    · simp [table?, setTable, hi]

/-- What other entries of the tables have to do with a scope. -/
def contents (y : Scope) : (Origin → Option Bindings) × Array Nat × Nat :=
  (y.table?, y.references, y.variableScope)

private theorem contents_setTable_self {y : Scope} {k : Origin} {bindings : Bindings}
    (hk : y.table? k = some bindings) : (y.setTable k bindings).contents = y.contents := by
  have htable : (y.setTable k bindings).table? = y.table? := by
    funext j
    rw [table?_setTable y k j bindings (by rw [hk]; rfl)]
    split
    · next hj => rw [hj, hk]
    · rfl
  cases k <;> exact congrArg (·, y.references, y.variableScope) htable

end Scope

/-- What other entries of the tables have to do with a variable. -/
def Variable.contents (x : Variable) : Nat × String × Array Nat × Bool :=
  (x.scope, x.name, x.references, x.stack)

/-- What other entries of the tables have to do with a reference. -/
def Reference.contents (x : Reference) : Nat × Option Nat :=
  (x.scope, x.resolved)

/-- The variables of a scope by their origin. -/
def Analysis.table? (a : Analysis) (s : Nat) (k : Origin) : Option Bindings :=
  (a.scopes[s]?).bind (·.table? k)

theorem Analysis.table?_eq (a : Analysis) (s : Nat) (k : Origin) :
    a.table? s k = ((a.scopes[s]?).map (·.table? k)).join := by
  unfold table?
  cases a.scopes[s]? <;> rfl

namespace Builder

variable {b b' b'' : Builder} {o : Options} {s : Nat}

/-! ## Leaving the numbers alone -/

/-- The entries of the tables refer to each other as before. -/
structure Same (b b' : Builder) : Prop where
  scopes : ∀ t : Nat, (b'.scopes[t]?).map Scope.contents = (b.scopes[t]?).map Scope.contents
  vars : ∀ v : Nat, (b'.vars[v]?).map Variable.contents = (b.vars[v]?).map Variable.contents
  references : ∀ r : Nat, (b'.references[r]?).map Reference.contents =
    (b.references[r]?).map Reference.contents

namespace Same

theorem refl (b : Builder) : Same b b :=
  ⟨fun _ => rfl, fun _ => rfl, fun _ => rfl⟩

theorem trans (h : Same b b') (h' : Same b' b'') : Same b b'' where
  scopes t := (h'.scopes t).trans (h.scopes t)
  vars v := (h'.vars v).trans (h.vars v)
  references r := (h'.references r).trans (h.references r)

/-- Scopes are edited, and the other tables are as they were. -/
theorem of_edited {edit : Nat → Scope → Scope} (h : Edited edit b b') (hvars : b'.vars = b.vars)
    (hreferences : b'.references = b.references)
    (hedit : ∀ t y, b.scopes[t]? = some y → (edit t y).contents = y.contents) : Same b b' where
  scopes t := h.map_eq Scope.contents fun y hy => hedit t y hy
  vars v := by rw [hvars]
  references r := by rw [hreferences]

theorem modifyScope (b : Builder) (s : Nat) {f : Scope → Scope}
    (hf : ∀ y, b.scopes[s]? = some y → (f y).contents = y.contents) :
    Same b (b.modifyScope s f) := by
  refine .of_edited (edited_modifyScope b s f) rfl rfl fun t y hy => ?_
  split
  · next ht => exact hf y (ht ▸ hy)
  · rfl

/-- It does not matter in which of two ways a scope is changed. -/
theorem modifyScope_congr (b : Builder) (s : Nat) {f g : Scope → Scope}
    (hfg : ∀ y, b.scopes[s]? = some y → (g y).contents = (f y).contents) :
    Same (b.modifyScope s f) (b.modifyScope s g) where
  scopes t := by
    rw [(edited_modifyScope b s f).scopes, (edited_modifyScope b s g).scopes]
    cases hy : b.scopes[t]? with
    | none => rfl
    | some y =>
      by_cases ht : t = s
      · simp [ht, hfg y (ht ▸ hy)]
      · simp [ht]
  vars _ := rfl
  references _ := rfl

theorem foldl {f : Builder → Nat → Builder} (hf : ∀ b r, Same b (f b r)) (l : List Nat)
    (b : Builder) : Same b (l.foldl f b) := by
  induction l generalizing b with
  | nil => exact .refl b
  | cons r l ih => exact (hf b r).trans (ih _)

end Same

private theorem same_define (b : Builder) (v : Nat) (d : Definition) : Same b (b.define v d) where
  scopes t := by rw [scopes_define]
  vars u := by
    rw [vars_define, Array.getElem?_modify]
    split
    · rw [Option.map_map]
      rfl
    · rfl
  references r := by rw [references_define]

private theorem same_letThrough (b : Builder) (s r : Nat) : Same b (b.letThrough s r) :=
  .modifyScope b s fun _ _ => rfl

private theorem same_passOn {r : Nat} (h : b.passOn s r = .ok b') : Same b b' := by
  unfold passOn at h
  split at h
  · cases h
    exact same_letThrough b s r
  · split at h
    · cases h
    · cases h
      refine .trans ?_ (same_letThrough _ s r)
      exact .modifyScope b _ fun _ _ => rfl

private theorem same_taint {r : Nat} (h : b.taint s r = .ok b') : Same b b' := by
  refine .trans ?_ (same_passOn h)
  refine ⟨fun _ => rfl, fun _ => rfl, fun q => ?_⟩
  rw [getElem?_modify_references, Option.map_map]
  congr 1
  funext x
  simp only [Function.comp_apply]
  split <;> rfl

/-! ## Writing -/

/-- Makes a variable and lists it with a scope, which has had the `bindings`. -/
def listVariable (b : Builder) (s : Nat) (k : Origin) (bindings : Bindings) (name : String) :
    Builder :=
  { b with vars := b.vars.push { name := name, scope := s } }.modifyScope s
    (·.setTable k (bindings.add name b.vars.size))

/-- Makes a reference and lists it with its scope. -/
def listReference (b : Builder) (x : Reference) : Builder :=
  { b.modifyScope x.scope fun y =>
    { y with references := y.references.push b.references.size } with
    references := b.references.push x }

/-- Resolves the reference `x`, whose number is `r`, to a variable of the scope `s`. -/
def listResolved (b : Builder) (s r v : Nat) (x : Reference) : Builder :=
  { b with
    vars := b.vars.modify v fun z =>
      { z with
        references := z.references.push r
        stack := z.stack && b.variableScope x.scope = b.variableScope s }
    references := b.references.modify r fun x => { x with resolved := some v } }

theorem scopes_listVariable (b : Builder) (s : Nat) (k : Origin) (bindings : Bindings)
    (name : String) (t : Nat) : (b.listVariable s k bindings name).scopes[t]? =
      (b.scopes[t]?).map fun y =>
        if t = s then y.setTable k (bindings.add name b.vars.size) else y :=
  (edited_modifyScope b s _).scopes t

theorem vars_listVariable (b : Builder) (s : Nat) (k : Origin) (bindings : Bindings)
    (name : String) (v : Nat) : (b.listVariable s k bindings name).vars[v]? =
      if v = b.vars.size then some { name := name, scope := s } else b.vars[v]? :=
  Array.getElem?_push

theorem scopes_listReference (b : Builder) (x : Reference) (t : Nat) :
    (b.listReference x).scopes[t]? = (b.scopes[t]?).map fun y => if t = x.scope then
      { y with references := y.references.push b.references.size } else y :=
  (edited_modifyScope b x.scope _).scopes t

theorem references_listReference (b : Builder) (x : Reference) (r : Nat) :
    (b.listReference x).references[r]? =
      if r = b.references.size then some x else b.references[r]? :=
  Array.getElem?_push

theorem vars_listResolved (b : Builder) (s r v : Nat) (x : Reference) (u : Nat) :
    (b.listResolved s r v x).vars[u]? = if u = v then (b.vars[u]?).map fun z =>
      { z with
        references := z.references.push r
        stack := z.stack && b.variableScope x.scope = b.variableScope s } else b.vars[u]? := by
  rw [listResolved, Array.getElem?_modify]
  by_cases hu : u = v
  · simp [hu]
  · simp [hu, Ne.symm hu]

theorem references_listResolved (b : Builder) (s r v : Nat) (x : Reference) (q : Nat) :
    (b.listResolved s r v x).references[q]? =
      (b.references[q]?).map fun x => if q = r then { x with resolved := some v } else x :=
  getElem?_modify_references b r _ q

/-- The ways of writing numbers into the tables. -/
inductive Write (b : Builder) : Builder → Prop
  | same {b' : Builder} (h : Same b b') : Write b b'
  /-- A variable is made and listed with a scope that has no variable of the name. -/
  | made {s : Nat} {k : Origin} {bindings : Bindings} (name : String)
      (hbindings : b.table? s k = some bindings) (hname : bindings.find? name = none) :
      Write b (b.listVariable s k bindings name)
  /-- A scope is opened with nothing in it. -/
  | opened {scope : Scope} (htable : ∀ {k bindings}, scope.table? k = some bindings →
      bindings = {}) (hreferences : scope.references = #[]) : Write b (b.pushScope scope)
  /-- A reference is made in a scope that is there. -/
  | referred {x : Reference} (hscope : x.scope < b.scopes.size) (hresolved : x.resolved = none) :
      Write b (b.listReference x)
  /-- A reference that has not been resolved is resolved to a variable of a scope. -/
  | resolved {s r v : Nat} {x : Reference} {z : Variable} (hx : b.references[r]? = some x)
      (hresolved : x.resolved = none) (hz : b.vars[v]? = some z) (hscope : z.scope = s) :
      Write b (b.listResolved s r v x)

/-- Writing step by step. -/
def Writes : Builder → Builder → Prop :=
  Relation.ReflTransGen Write

theorem Same.writes (h : Same b b') : Writes b b' :=
  .single (.same h)

private theorem Writes.foldl {f : Builder → Nat → Builder} (hf : ∀ b r, Writes b (f b r))
    (l : List Nat) (b : Builder) : Writes b (l.foldl f b) := by
  induction l generalizing b with
  | nil => exact .refl
  | cons r l ih => exact (hf b r).trans (ih _)

private theorem Writes.foldlM {f : Builder → Nat → Except AnalysisError Builder}
    (hf : ∀ {b b' : Builder} {r : Nat}, f b r = .ok b' → Writes b b') {l : List Nat}
    (h : l.foldlM f b = .ok b') : Writes b b' :=
  foldlM_keeps (P := Writes b) (fun _ hr hwrites => hwrites.trans (hf hr)) h .refl

/-! ### Declaring names -/

/-- Giving a scope the variable of a name. -/
theorem writes_ensure {k : Origin} {bindings : Bindings} (hbindings : b.table? s k = some bindings)
    (name : String) (f : Bindings → Scope → Scope)
    (hf : ∀ bindings' y, b.scopes[s]? = some y →
      (f bindings' y).contents = (y.setTable k bindings').contents) :
    Writes b ((b.ensure bindings s name).1.modifyScope s (f (b.ensure bindings s name).2.1)) := by
  rcases b.ensure_cases bindings s name with ⟨v, -, heq⟩ | ⟨hnone, heq⟩
  · rw [heq]
    refine (Same.modifyScope b s fun y hy => ?_).writes
    have hk : y.table? k = some bindings := by rwa [Analysis.table?, hy] at hbindings
    rw [hf bindings y hy, Scope.contents_setTable_self hk]
  · rw [heq]
    exact .tail (.single (.made name hbindings hnone))
      (.same (.modifyScope_congr _ s fun y hy => hf _ y hy))

private theorem writes_declareIn (b : Builder) (s : Nat) (d : Definition) :
    Writes b (b.declareIn s d) := by
  cases hs : b.scopes[s]? with
  | none =>
    rw [declareIn_eq_self hs]
    exact .refl
  | some scope =>
    have hbindings : b.table? s .declared = some scope.bindings := by
      rw [Analysis.table?, hs]
      rfl
    simp only [declareIn, hs]
    exact .tail (writes_ensure hbindings d.name.name
      (fun bindings y => { y with bindings := bindings }) fun _ _ _ => rfl)
      (.same (same_define _ _ d))

private theorem writes_declareArguments (b : Builder) (s : Nat) :
    Writes b (b.declareArguments s) := by
  unfold declareArguments
  split
  · exact .refl
  · next scope hs =>
    have hbindings : b.table? s .declared = some scope.bindings := by
      rw [Analysis.table?, hs]
      rfl
    exact writes_ensure hbindings "arguments" (fun bindings y =>
      { y with bindings := bindings, taints := y.taints.insert "arguments" }) fun _ _ _ => rfl

theorem writes_declareImplicit (b : Builder) (s : Nat) (d : Definition) :
    Writes b (b.declareImplicit s d) := by
  unfold declareImplicit
  split
  · exact .refl
  next scope hs =>
  split
  · exact .refl
  next i hi =>
  have hbindings : b.table? s .implicit = some i.bindings := by
    rw [Analysis.table?, hs]
    simp [Scope.table?, hi]
  refine .tail (writes_ensure hbindings d.name.name (fun bindings y =>
    { y with implicit := some { i with bindings := bindings } }) fun bindings' y hy => ?_)
    (.same (same_define _ _ d))
  rw [hs] at hy
  cases hy
  rw [Scope.setTable, hi]
  rfl

private theorem writes_createImplicits (b : Builder) (s : Nat) (left : Array Nat) :
    Writes b (b.createImplicits s left) := by
  have hall : Writes b (left.toList.foldl (fun b r => b.createImplicit s r) b) := by
    refine Writes.foldl (fun b r => ?_) left.toList b
    unfold createImplicit
    split
    · exact .refl
    split
    · exact .refl
    split
    · exact .refl
    · exact writes_declareImplicit b s _
  refine .tail hall (.same (.modifyScope _ s fun y _ => ?_))
  have htable : ({ y with implicit := y.implicit.map fun i => { i with left := left } } :
      Scope).table? = y.table? := by
    funext k
    cases k with
    | declared => rfl
    | implicit => exact Option.map_map _ _ _
  exact congrArg (·, y.references, y.variableScope) htable

/-! ### Closing scopes -/

theorem vars_resolve (b : Builder) (s r v : Nat) (x : Reference) :
    (b.resolve s r v x).vars = b.vars.modify v fun z =>
      { z with
        references := z.references.push r
        stack := z.stack && b.variableScope x.scope = b.variableScope s
        tainted := z.tainted || x.tainted } := by
  unfold resolve
  cases x.tainted <;> rfl

private theorem writes_resolve {r v : Nat} {x : Reference} {z : Variable}
    (hx : b.references[r]? = some x) (hresolved : x.resolved = none) (hz : b.vars[v]? = some z)
    (hscope : z.scope = s) : Writes b (b.resolve s r v x) := by
  refine .tail (.single (.resolved hx hresolved hz hscope)) (.same ⟨fun t => ?_, fun u => ?_, ?_⟩)
  · exact (edited_resolve b s r v x).map_eq Scope.contents fun y _ => by split <;> rfl
  · rw [vars_resolve, listResolved, Array.getElem?_modify, Array.getElem?_modify]
    split
    · rw [Option.map_map, Option.map_map]
      rfl
    · rfl
  · intro q
    unfold resolve
    cases x.tainted <;> rfl

/-- A scope binds variables of its own. -/
def BindsOwn (b : Builder) (s : Nat) : Prop :=
  ∀ {name v}, b.variableIn? name s = some v → ∃ z : Variable, b.vars[v]? = some z ∧ z.scope = s

theorem BindsOwn.keeps (h : b.BindsOwn s) (hvariable : b'.variableIn? = b.variableIn?)
    (hvars : b.KeepsVariables b') : b'.BindsOwn s := by
  intro name v hv
  rw [hvariable] at hv
  obtain ⟨z, hz, hscope⟩ := h hv
  obtain ⟨z', hz', hscope', -⟩ := hvars v z hz
  exact ⟨z', hz', hscope'.trans hscope⟩

/-- A list of references none of which has been resolved. -/
structure Unresolved (b : Builder) (l : List Nat) : Prop where
  nodup : l.Nodup
  resolved : ∀ r ∈ l, ∃ x, b.references[r]? = some x ∧ x.resolved = none

private theorem writes_settle {r : Nat} {l : List Nat} (hb : b.BindsOwn s)
    (hunresolved : b.Unresolved (r :: l)) (h : b.settle s r = .ok b') : Writes b b' := by
  obtain ⟨x, hx, hresolved⟩ := hunresolved.resolved r List.mem_cons_self
  simp only [settle, hx] at h
  cases hv : b.variableIn? x.name s with
  | none =>
    rw [hv] at h
    exact (same_passOn h).writes
  | some v =>
    rw [hv] at h
    cases h
    obtain ⟨z, hz, hscope⟩ := hb hv
    exact writes_resolve hx hresolved hz hscope

/-- Treating the first reference leaves the others unresolved. -/
theorem Unresolved.tail {fate : Nat → Verdict} {enclosing : List Nat} {r : Nat} {l : List Nat}
    (h : b.Unresolved (r :: l)) (htreated : Treated fate s enclosing [r] b b') :
    b'.Unresolved l := by
  obtain ⟨hnotMem, hnodup⟩ := List.nodup_cons.mp h.nodup
  refine ⟨hnodup, fun q hq => ?_⟩
  obtain ⟨x, hx, hresolved⟩ := h.resolved q (List.mem_cons_of_mem r hq)
  have hne : q ∉ [r] := fun hmem => hnotMem (List.mem_singleton.mp hmem ▸ hq)
  exact ⟨x, by rw [htreated.references, hx, Option.map_some, if_neg hne], hresolved⟩

/-- Resolving the references that wait in a scope, or passing them on. -/
theorem Ready.writes_settle {optimistic : Bool} {scope : Scope} {fate : Nat → Verdict}
    {left l : List Nat} (h : Ready optimistic scope fate s left b)
    (hstatic : (scope.isStatic || optimistic) = true) (hl : l ⊆ left) (hb : b.BindsOwn s)
    (hunresolved : b.Unresolved l) (hfold : l.foldlM (fun b r => b.settle s r) b = .ok b') :
    Writes b b' := by
  induction l generalizing b with
  | nil =>
    cases hfold
    exact .refl
  | cons r l ih =>
    obtain ⟨b₁, hb₁, htreated⟩ := h.settle (hl List.mem_cons_self) hstatic
    rw [List.foldlM_cons, hb₁] at hfold
    refine (Builder.writes_settle hb hunresolved hb₁).trans (ih (h.treated htreated) ?_ ?_ ?_ hfold)
    · exact (List.cons_subset.mp hl).2
    · exact hb.keeps htreated.variableIn? htreated.vars
    · exact hunresolved.tail htreated

private theorem Ready.writes_settleAll {scope : Scope} {fate : Nat → Verdict} {left : List Nat}
    (h : Ready o.optimistic scope fate s left b) (hb : b.BindsOwn s)
    (hunresolved : b.Unresolved left) (hsettle : b.settleAll o s scope left = .ok b') :
    Writes b b' := by
  unfold settleAll at hsettle
  split at hsettle
  · next hstatic => exact h.writes_settle hstatic (List.Subset.refl _) hb hunresolved hsettle
  · split at hsettle
    · exact .foldlM (fun h => (same_taint h).writes) hsettle
    · cases hsettle
      refine (Same.foldl (fun b r => ?_) left b).writes
      exact .foldl (fun b t => same_letThrough b t r) _ b

/-- No reference that waits has been resolved. -/
theorem Journeys.unresolved {optimistic : Bool} (hj : Journeys b optimistic) (hb : WellFormed b)
    (s : Nat) : b.Unresolved (b.pendingOf s) := by
  have hjourney {r : Nat} (hr : r ∈ b.pendingOf s) : ∃ x, b.references[r]? = some x ∧
      Journey b optimistic r x :=
    ⟨_, Array.getElem?_eq_getElem (hb.pending_lt s r hr),
      hj r _ (Array.getElem?_eq_getElem (hb.pending_lt s r hr))⟩
  have hwaits {r : Nat} {waits : Option Nat} {lets : List Nat} (hr : r ∈ b.pendingOf s)
      (hcounted : b.Counted r waits lets) : waits = some s := by
    have hcount : 0 < (b.pendingOf s).count r := List.count_pos_iff.mpr hr
    rw [hcounted.pending] at hcount
    split at hcount
    · assumption
    · cases hcount
  constructor
  · refine List.nodup_iff_count.mpr fun r => ?_
    by_cases hr : r ∈ b.pendingOf s
    · obtain ⟨x, -, hjourney⟩ := hjourney hr
      cases hjourney with
      | waiting _ _ _ _ hcounted | found _ _ _ _ _ hcounted | lost _ _ _ _ _ hcounted =>
        rw [hcounted.pending]
        split <;> simp
    · rw [List.count_eq_zero.mpr hr]
      exact Nat.zero_le 1
  · intro r hr
    obtain ⟨x, hx, hjourney⟩ := hjourney hr
    refine ⟨x, hx, ?_⟩
    cases hjourney with
    | waiting _ _ _ hresolved _ => exact hresolved
    | found _ _ _ _ _ hcounted => cases hwaits hr hcounted
    | lost _ _ _ _ hresolved _ => exact hresolved

/-- When the innermost open scope `s` is closed, the references `left` wait in it, none of which has
been resolved, and the tables are those of `b₁` when all of them have been treated. -/
structure Settles (o : Options) (s : Nat) (scope : Scope) (left : Array Nat) (b b₁ : Builder) :
    Prop where
  stack : b.stack = s :: scope.enclosing
  ready : Ready o.optimistic scope (b.fate o.optimistic s) s left.toList (b.stopWaiting s)
  bindsOwn : ∀ {name v}, (b.stopWaiting s).variableIn? name s = some v →
    ∃ z : Variable, (b.stopWaiting s).vars[v]? = some z ∧ z.scope = s
  unresolved : (b.stopWaiting s).Unresolved left.toList
  settleAll : (b.stopWaiting s).settleAll o s scope left.toList = .ok b₁

/-- Closing the innermost open scope is treating the references that wait in it and, if it is the
global scope, making the variables that nothing declares. -/
theorem exists_settles {rest : List Nat} (hb : WellFormed b) (hj : Journeys b o.optimistic)
    (hstack : b.stack = s :: rest) (h : b.closeScope o s = .ok b') :
    ∃ scope left b₁, Settles o s scope left b b₁ ∧
      b' = { (if scope.kind = .global then b₁.createImplicits s left else b₁) with
        stack := (if scope.kind = .global then b₁.createImplicits s left else b₁).stack.tail } := by
  obtain ⟨scope, left, b₁, hscope, hleft, hsettle, heq⟩ := closeScope_cases h
  have hpendingOf : b.pendingOf s = left.toList := by
    simp [Analysis.pendingOf, hscope, hleft]
  obtain ⟨henclosing, hready⟩ :=
    ready_stopWaiting o.optimistic hb.layout hstack hscope (hb.pending_lt s)
  rw [hpendingOf] at hready
  refine ⟨scope, left, b₁, ⟨henclosing ▸ hstack, hready, fun {name v} hv => ?_, ?_, hsettle⟩, heq⟩
  · rw [variableIn?_stopWaiting] at hv
    obtain ⟨z, hz, hs, -⟩ := hb.variable_eq hv
    exact ⟨z, hz, hs⟩
  · obtain ⟨hnodup, hresolved⟩ := hj.unresolved hb s
    rw [hpendingOf] at hnodup hresolved
    exact ⟨hnodup, hresolved⟩

theorem Settles.writes {scope : Scope} {left : Array Nat} (h : Settles o s scope left b b') :
    Writes b b' := by
  have hwaiting : Same b (b.stopWaiting s) := .modifyScope b s fun _ _ => rfl
  exact hwaiting.writes.trans (h.ready.writes_settleAll h.bindsOwn h.unresolved h.settleAll)

/-- Closing a scope is writing. -/
theorem writes_closeScope {rest : List Nat} (hb : WellFormed b) (hj : Journeys b o.optimistic)
    (hstack : b.stack = s :: rest) (h : b.closeScope o s = .ok b') : Writes b b' := by
  obtain ⟨scope, left, b₁, hsettles, rfl⟩ := exists_settles hb hj hstack h
  refine .tail (b := if scope.kind = .global then b₁.createImplicits s left else b₁) ?_
    (.same ⟨fun _ => rfl, fun _ => rfl, fun _ => rfl⟩)
  split
  · exact hsettles.writes.trans (writes_createImplicits b₁ s left)
  · exact hsettles.writes

/-- Closing scopes at the top of the stack is writing. -/
theorem writes_closeAll {l rest : List Nat} (hb : WellFormed b) (hj : Journeys b o.optimistic)
    (hstack : b.stack = l ++ rest) (h : l.foldlM (closeScope o) b = .ok b') : Writes b b' :=
  closeAll_induction (P := Writes b)
    (fun hb hj hstack h hwrites => hwrites.trans (writes_closeScope hb hj hstack h)) hb hj hstack h
    .refl

/-! ### Actions -/

/-- An action that does not fail writes. -/
theorem writes_step {a : Action} (hb : Sound b) (hj : Journeys b o.optimistic)
    (h : step o b a = .ok b') : Writes b b' := by
  obtain ⟨heffect, -⟩ := hb.step h
  cases heffect with
  | openScope kind block strict v =>
    have hopened : Writes b (b.pushScope (b.newScope o kind block strict v)) := by
      refine .single (.opened (fun {k bindings} hk => ?_) rfl)
      cases k with
      | declared => exact (Option.some.inj hk).symm
      | implicit =>
        simp only [newScope, Scope.table?] at hk
        split at hk
        · exact (Option.some.inj hk).symm
        · cases hk
    split
    · exact hopened.trans (writes_declareArguments _ _)
    · exact hopened
  | closeScopes n =>
    exact writes_closeAll hb.wellFormed hj (openFor_append hb.wellFormed n).symm h
  | beginSite | endSite => exact Same.writes ⟨fun _ => rfl, fun _ => rfl, fun _ => rfl⟩
  | declare d => exact writes_declareIn b _ d
  | @refer _ i use creator s pending hs hreferences hvars hedited =>
    have hlt : s < b.scopes.size := hb.wellFormed.layout.stack_lt (List.mem_of_head? hs)
    have hresolved : (b.newReference s i use creator).resolved = none := rfl
    obtain ⟨x, rfl, hx⟩ : ∃ x : Reference, x.scope = s ∧ b.newReference s i use creator = x :=
      ⟨_, rfl, rfl⟩
    rw [hx] at hreferences hresolved
    refine .tail (.single (.referred hlt hresolved)) (.same ⟨fun t => ?_, fun v => ?_, fun r => ?_⟩)
    · rw [hedited.scopes, scopes_listReference, Option.map_map, Option.map_map]
      congr 1
      funext y
      simp only [Function.comp_apply]
      split <;> rfl
    · rw [hvars]
      rfl
    · rw [hreferences]
      rfl
  | needScope => exact .refl
  | useThis s => exact Same.writes (.modifyScope b s fun _ _ => rfl)
  | callEval _ hreferences hvars hedited =>
    exact (Same.of_edited hedited hvars hreferences fun _ _ _ => rfl).writes

/-- Actions that find what they need keep what each of them keeps. -/
theorem Effects.keeps {P : Builder → Prop}
    (hkeep : ∀ {b b' : Builder} {a : Action}, Sound b → Journeys b o.optimistic →
      b.outline.Permits a → step o b a = .ok b' → Effect o b a b' → P b → P b')
    {A : List Action} (h : Effects o b A b') (horderly : b.outline.Orderly A)
    (hj : Journeys b o.optimistic) (hP : P b) : P b' := by
  induction h with
  | nil => exact hP
  | @cons _ _ _ a _ hb hstep heffect _ ih =>
    have hspec := step_spec o hb.wellFormed a
    rw [hstep] at hspec
    cases hspec with
    | done hstepped =>
      have hmoves := hstepped.moves.mono fun _ : True => horderly.1
      exact ih (horderly.2 _ hstepped.outline) (hmoves.journeys hb.wellFormed hj)
        (hkeep hb hj horderly.1 hstep heffect hP)

/-- Actions that find what they need write. -/
theorem Effects.writes {A : List Action} (h : Effects o b A b') (horderly : b.outline.Orderly A)
    (hj : Journeys b o.optimistic) : Writes b b' :=
  h.keeps (P := Writes b) (fun hb hj _ hstep _ hwrites => hwrites.trans (writes_step hb hj hstep))
    horderly hj .refl

end Builder

end EcmaScope
