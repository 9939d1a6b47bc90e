import EcmaScope.Proofs.ImplicitGlobals

/-!
# The variables that nodes declare

For every node there is a list of the variables that it declares. A variable is put on the list of a
node when it receives a definition at the node or at a node whose parent it is, unless it is there
already. Definitions are added by declarations, and by references that are left over when the global
scope is closed. Nothing else touches the lists.

## Main definitions

* `Definition.isAt`: the definition is at a node or at a part of it.
* `Builder.additions`: the definitions that actions add, one after the other, each with the variable
  that receives it.
* `Builder.KeepsDefinitions`: no definition is added.
* `Builder.Chronicled`: the given definitions are all that have been added.

## Main results

* `Builder.Chronicled.define`: one definition more.
* `Builder.Chronicled.closeScope`: the definitions that are added when a scope is closed.
* `Builder.Effects.chronicled`: the definitions that actions add.
* `Program.declaredBy_exact`: the variables that a node declares.
-/

namespace EcmaScope

/-- The definition is at the node `n`, or at a part of it. -/
def Definition.isAt (n : Nat) (d : Definition) : Bool :=
  d.node.id = n || d.kind.parent?.any (·.id = n)

namespace Analysis

/-- The definitions of a variable. -/
def definitionsOf (a : Analysis) (v : Nat) : List Definition :=
  ((a.vars[v]?).map (·.defs.toList)).getD []

/-- The definitions that the references left over in the scope `s` have created, one after the
other, each with the variable that has received it. Only a global scope creates any. -/
def creations (a : Analysis) (s : Nat) : List (Nat × Definition) :=
  match (a.scopes[s]?).bind fun y => if y.kind = .global then y.implicit else none with
  | none => []
  | some i => (i.left.toList.filterMap (a.creation? s)).filterMap fun d =>
      (i.bindings.find? d.name.name).map (·, d)

end Analysis

namespace Builder

variable {o : Options} {b b' b'' : Builder} {s : Nat} {l : List (Nat × Definition)}

/-- The definitions that an action adds when it leads from `b` to `b'`. -/
def added (b b' : Builder) : Action → List (Nat × Definition)
  | .declare d => ((b.sites.head?.bind (b'.variableIn? d.name.name)).map (·, d)).toList
  | .closeScopes n => (b.openFor n).flatMap b'.creations
  | _ => []

/-- The definitions that actions add, one after the other, each with the variable that receives
it. -/
def additions (o : Options) (b : Builder) : List Action → List (Nat × Definition)
  | [] => []
  | a :: A =>
    match step o b a with
    | .ok b' => b.added b' a ++ additions o b' A
    | .error _ => []

/-! ## Adding definitions -/

private theorem declaredBy_noteDeclared (b : Builder) (node v n : Nat) :
    (b.noteDeclared node v).declaredBy n =
      if node = n ∧ v ∉ b.declaredBy n then b.declaredBy n ++ [v] else b.declaredBy n := by
  have hcontains : (b.declared.getD node #[]).contains v = true ↔ v ∈ b.declaredBy node := by
    rw [Array.contains_iff_mem, Analysis.declaredBy, Array.mem_toList_iff]
  unfold noteDeclared
  dsimp only
  by_cases hmem : v ∈ b.declaredBy node
  · rw [if_pos (hcontains.mpr hmem), if_neg]
    rintro ⟨rfl, hnot⟩
    exact hnot hmem
  · rw [if_neg fun h => hmem (hcontains.mp h)]
    change ((b.declared.insert node ((b.declared.getD node #[]).push v)).getD n #[]).toList = _
    rw [Std.TreeMap.getD_insert]
    split
    · next hn =>
      obtain rfl := Nat.compare_eq_eq.mp hn
      rw [if_pos ⟨rfl, hmem⟩, Array.toList_push]
      rfl
    · next hn =>
      rw [if_neg fun h => hn (Nat.compare_eq_eq.mpr h.1)]
      rfl

private theorem declaredBy_define (b : Builder) (v : Nat) (d : Definition) (n : Nat) :
    (b.define v d).declaredBy n = if d.isAt n = true ∧ v ∉ b.declaredBy n then
      b.declaredBy n ++ [v] else b.declaredBy n := by
  rw [Definition.isAt]
  cases hkind : d.kind.parent? with
  | none =>
    have hdefine : (b.define v d).declaredBy n = (b.noteDeclared d.node.id v).declaredBy n := by
      rw [define, hkind]
      rfl
    simp [hdefine, declaredBy_noteDeclared]
  | some parent =>
    have hdefine : (b.define v d).declaredBy n =
        ((b.noteDeclared d.node.id v).noteDeclared parent.id v).declaredBy n := by
      rw [define, hkind]
      rfl
    simp only [hdefine, declaredBy_noteDeclared, Option.any_some]
    by_cases hmem : v ∈ b.declaredBy n <;> by_cases hnode : d.node.id = n <;>
      by_cases hparent : parent.id = n <;> simp [hmem, hnode, hparent]

private theorem definitionsOf_define {v : Nat} (hv : v < b.vars.size) (d : Definition) (u : Nat) :
    (b.define v d).definitionsOf u = b.definitionsOf u ++ if v = u then [d] else [] := by
  rw [Analysis.definitionsOf, vars_define, Array.getElem?_modify]
  split
  · next huv =>
    subst huv
    simp [Analysis.definitionsOf, Array.getElem?_eq_getElem hv]
  · simp [Analysis.definitionsOf]

/-- The definitions `l` are all that have been added, in this order. -/
structure Chronicled (l : List (Nat × Definition)) (b : Builder) : Prop where
  declaredBy : ∀ n, b.declaredBy n = ((l.filter (·.2.isAt n)).map (·.1)).eraseDups
  definitionsOf : ∀ v, b.definitionsOf v = (l.filter (·.1 = v)).map (·.2)

private theorem Chronicled.empty : Chronicled [] {} where
  declaredBy n := by simp [Analysis.declaredBy]
  definitionsOf v := by simp [Analysis.definitionsOf]

private theorem eraseDups_concat {α : Type} [BEq α] [LawfulBEq α] (xs : List α) (x : α) :
    (xs ++ [x]).eraseDups = if x ∈ xs then xs.eraseDups else xs.eraseDups ++ [x] := by
  rw [List.eraseDups_append]
  split
  · next h => simp [List.removeAll, h]
  · next h => simp [List.removeAll, h, List.eraseDups_cons]

private theorem nodup_eraseDups {α : Type} [BEq α] [LawfulBEq α] (xs : List α) :
    xs.eraseDups.Nodup := by
  induction xs using List.reverseRecOn with
  | nil => exact List.nodup_nil
  | append_singleton xs x ih =>
    rw [eraseDups_concat]
    split
    · exact ih
    · next hx =>
      rw [← List.concat_eq_append]
      exact ih.concat fun h => hx (List.mem_eraseDups.mp h)

/-- A definition is added. -/
theorem Chronicled.define (h : Chronicled l b) {v : Nat} (hv : v < b.vars.size) (d : Definition) :
    Chronicled (l ++ [(v, d)]) (b.define v d) where
  declaredBy n := by
    have hmem : v ∈ b.declaredBy n ↔ v ∈ (l.filter (·.2.isAt n)).map (·.1) := by
      rw [h.declaredBy, List.mem_eraseDups]
    rw [declaredBy_define, List.filter_append, List.map_append]
    cases hat : d.isAt n with
    | false => simpa [hat] using h.declaredBy n
    | true =>
      have hlast : ([(v, d)].filter (·.2.isAt n)).map (·.1) = [v] := by simp [hat]
      rw [hlast, eraseDups_concat, ← h.declaredBy n]
      simp only [← hmem, true_and, ite_not]
  definitionsOf u := by
    rw [definitionsOf_define hv, h.definitionsOf]
    by_cases huv : v = u <;> simp [List.filter_append, huv]

/-! ## Adding no definitions -/

/-- Neither the definitions of variables nor the variables that nodes declare have changed. -/
structure KeepsDefinitions (b b' : Builder) : Prop where
  declared : b'.declared = b.declared
  definitionsOf : ∀ v, b'.definitionsOf v = b.definitionsOf v

namespace KeepsDefinitions

private theorem refl (b : Builder) : KeepsDefinitions b b :=
  ⟨rfl, fun _ => rfl⟩

private theorem trans (h : KeepsDefinitions b b') (h' : KeepsDefinitions b' b'') :
    KeepsDefinitions b b'' :=
  ⟨h'.declared.trans h.declared, fun v => (h'.definitionsOf v).trans (h.definitionsOf v)⟩

private theorem chronicled (h : KeepsDefinitions b b') (hl : Chronicled l b) : Chronicled l b' where
  declaredBy n := by
    rw [Analysis.declaredBy, h.declared]
    exact hl.declaredBy n
  definitionsOf v := (h.definitionsOf v).trans (hl.definitionsOf v)

/-- Nothing is changed but what has no part in definitions. -/
private theorem of_eq (hdeclared : b'.declared = b.declared) (hvars : b'.vars = b.vars) :
    KeepsDefinitions b b' :=
  ⟨hdeclared, fun v => by rw [Analysis.definitionsOf, hvars, Analysis.definitionsOf]⟩

private theorem modifyScope (b : Builder) (s : Nat) (f : Scope → Scope) :
    KeepsDefinitions b (b.modifyScope s f) :=
  .of_eq rfl rfl

private theorem foldl {f : Builder → Nat → Builder} (hf : ∀ b r, KeepsDefinitions b (f b r))
    (rs : List Nat) (b : Builder) : KeepsDefinitions b (rs.foldl f b) := by
  induction rs generalizing b with
  | nil => exact .refl b
  | cons r rs ih => exact (hf b r).trans (ih _)

private theorem foldlM {f : Builder → Nat → Except AnalysisError Builder}
    (hf : ∀ {b b' : Builder} {r : Nat}, f b r = .ok b' → KeepsDefinitions b b') {rs : List Nat}
    (h : rs.foldlM f b = .ok b') : KeepsDefinitions b b' :=
  foldlM_keeps (fun _ hr hkeeps => hkeeps.trans (hf hr)) h (.refl b)

private theorem resolve (b : Builder) (s r v : Nat) (x : Reference) :
    KeepsDefinitions b (b.resolve s r v x) where
  declared := by
    unfold Builder.resolve
    dsimp only
    split <;> rfl
  definitionsOf u := by
    have hvars : ((b.resolve s r v x).vars[u]?).map Variable.lasting =
        (b.vars[u]?).map Variable.lasting :=
      (kept_resolve (S := []) (n := u + 1) b s r v x).vars u (Nat.lt_succ_self u)
    have hdefs (z : Option Variable) :
        z.map (·.defs.toList) = (z.map Variable.lasting).map (·.defs.toList) := by
      cases z <;> rfl
    rw [Analysis.definitionsOf, hdefs, hvars, ← hdefs, Analysis.definitionsOf]

private theorem passOn {r : Nat} (h : b.passOn s r = .ok b') : KeepsDefinitions b b' := by
  unfold Builder.passOn at h
  split at h
  · cases h
    exact .of_eq rfl rfl
  · split at h
    · cases h
    · cases h
      exact .of_eq rfl rfl

private theorem settle {r : Nat} (h : b.settle s r = .ok b') : KeepsDefinitions b b' := by
  unfold Builder.settle at h
  split at h
  · cases h
    exact .refl b
  · split at h
    · cases h
      exact .resolve b s r _ _
    · exact .passOn h

private theorem taint {r : Nat} (h : b.taint s r = .ok b') : KeepsDefinitions b b' := by
  refine .trans ?_ (.passOn h)
  exact .of_eq rfl rfl

private theorem settleAll {scope : Scope} {left : List Nat}
    (h : b.settleAll o s scope left = .ok b') : KeepsDefinitions b b' := by
  unfold Builder.settleAll at h
  split at h
  · exact .foldlM .settle h
  · split at h
    · exact .foldlM .taint h
    · cases h
      exact .foldl (fun b r => .foldl (fun b t => .modifyScope b t _) _ b) _ b

/-- A variable that is made has no definitions. -/
private theorem ensure (b : Builder) (bindings : Bindings) (s : Nat) (name : String) :
    KeepsDefinitions b (b.ensure bindings s name).1 := by
  rcases b.ensure_cases bindings s name with ⟨v, -, heq⟩ | ⟨-, heq⟩
  · rw [heq]
    exact .refl b
  · rw [heq]
    refine ⟨rfl, fun v => ?_⟩
    rw [Analysis.definitionsOf, Array.getElem?_push, Analysis.definitionsOf]
    split
    · next hv => simp [hv]
    · rfl

private theorem declareArguments (b : Builder) (s : Nat) :
    KeepsDefinitions b (b.declareArguments s) := by
  unfold Builder.declareArguments
  split
  · exact .refl b
  · next scope hscope => exact (ensure b scope.bindings s "arguments").trans (.of_eq rfl rfl)

private theorem openScope {kind : ScopeKind} {block : Anchor} {strict : Bool}
    (h : b.openScope o kind block strict = .ok b') : KeepsDefinitions b b' := by
  obtain ⟨v, rfl⟩ := openScope_cases h
  have hpush (scope : Scope) : KeepsDefinitions b (b.pushScope scope) := by
    unfold pushScope
    cases b.current? <;> exact .of_eq rfl rfl
  split
  · exact (hpush _).trans (declareArguments _ _)
  · exact hpush _

/-- Only declarations and closings add definitions. -/
theorem of_step {a : Action} (h : step o b a = .ok b') (hdeclare : ∀ d, a ≠ .declare d)
    (hclose : ∀ n, a ≠ .closeScopes n) : KeepsDefinitions b b' := by
  cases a with
  | openScope kind block strict => exact .openScope h
  | closeScopes n => exact absurd rfl (hclose n)
  | beginSite reach =>
    cases reach <;>
    · obtain ⟨s, rest, -, h⟩ := step_current h
      cases h
      exact .of_eq rfl rfl
  | endSite =>
    cases h
    exact .of_eq rfl rfl
  | declare d => exact absurd rfl (hdeclare d)
  | refer i use creator =>
    obtain ⟨s, rest, -, h⟩ := step_current h
    dsimp only at h
    split at h
    · cases h
    · cases h
      exact .of_eq rfl rfl
  | needScope | useThis =>
    obtain ⟨s, rest, -, h⟩ := step_current h
    cases h
    exact .of_eq rfl rfl
  | callEval =>
    obtain ⟨s, rest, -, h⟩ := step_current h
    cases h
    exact .trans (.modifyScope b _ _) (.foldl (fun b t => .modifyScope b t _) _ _)
  | refuseImport loc => cases h

end KeepsDefinitions

/-! ## Declarations -/

/-- The variable of a name is within the table, if those that are there already are. -/
theorem ensure_lt_size {bindings : Bindings} (name : String)
    (h : ∀ {v}, bindings.find? name = some v → v < b.vars.size) :
    (b.ensure bindings s name).2.2 < (b.ensure bindings s name).1.vars.size := by
  rcases b.ensure_cases bindings s name with ⟨v, hv, heq⟩ | ⟨-, heq⟩
  · rw [heq]
    exact h hv
  · rw [heq, Array.size_push]
    exact Nat.lt_succ_self _

/-- A declaration adds its definition to the variable of its name at its site. -/
private theorem Chronicled.declareIn (hl : Chronicled l b) (hb : WellFormed b)
    (hs : s < b.scopes.size) (d : Definition) :
    ∃ v, (b.declareIn s d).variableIn? d.name.name s = some v ∧
      Chronicled (l ++ [(v, d)]) (b.declareIn s d) := by
  have hscope := Array.getElem?_eq_getElem hs
  generalize b.scopes[s] = scope at hscope
  let bound := (b.ensure scope.bindings s d.name.name).1.modifyScope s fun x =>
    { x with bindings := (b.ensure scope.bindings s d.name.name).2.1 }
  have hdeclare : b.declareIn s d =
      bound.define (b.ensure scope.bindings s d.name.name).2.2 d := by
    simp only [Builder.declareIn, hscope]
    rfl
  have hlt : (b.ensure scope.bindings s d.name.name).2.2 < bound.vars.size := by
    refine ensure_lt_size _ fun {v} hv => ?_
    obtain ⟨z, hz, -⟩ := hb.variable_eq
      (show b.variableIn? d.name.name s = some v by rw [Analysis.variableIn?, hscope]; exact hv)
    exact (Array.getElem?_eq_some_iff.mp hz).1
  have hbound : KeepsDefinitions b bound :=
    (KeepsDefinitions.ensure b scope.bindings s d.name.name).trans (.modifyScope _ s _)
  refine ⟨(b.ensure scope.bindings s d.name.name).2.2, ?_, ?_⟩
  · rw [hdeclare, Analysis.variableIn?, scopes_define, (edited_modifyScope _ s _).scopes,
      scopes_ensure, hscope, Option.map_some, if_pos rfl]
    exact (find?_ensure_eq b scope.bindings s d.name.name d.name.name).trans (if_pos rfl)
  · rw [hdeclare]
    exact (hbound.chronicled hl).define hlt d

/-! ## Closing scopes -/

/-- Each definition has been received by the variable that `bindings` has for its name. -/
def Received (bindings : Bindings) (l : List (Nat × Definition)) : Prop :=
  ∀ e ∈ l, bindings.find? e.2.name.name = some e.1

/-- What has been received is known from the definitions alone. -/
private theorem Received.eq_filterMap {bindings : Bindings} (h : Received bindings l) :
    ((l.map (·.2)).filterMap fun d => (bindings.find? d.name.name).map (·, d)) = l := by
  rw [List.filterMap_map]
  refine (List.filterMap_congr fun e he => ?_).trans List.filterMap_some
  rw [Function.comp_apply, h e he]
  rfl

/-- The definition of a variable that nothing declares is added. -/
private theorem Chronicled.declareImplicit {D : List Definition} {L : List (Nat × Definition)}
    {bindings : Bindings} (hl : Chronicled l b) (hb : Created s D bindings b)
    (hL : Received bindings L) (d : Definition) :
    ∃ v bindings', Created s (D ++ [d]) bindings' (b.declareImplicit s d) ∧
      Received bindings' (L ++ [(v, d)]) ∧ Chronicled (l ++ [(v, d)]) (b.declareImplicit s d) := by
  obtain ⟨y, hy, htable⟩ := Option.bind_eq_some_iff.mp hb.table
  obtain ⟨i, hi, rfl⟩ := Option.map_eq_some_iff.mp htable
  let bound := (b.ensure i.bindings s d.name.name).1.modifyScope s fun x =>
    { x with implicit := some { i with bindings := (b.ensure i.bindings s d.name.name).2.1 } }
  have hdeclare : b.declareImplicit s d =
      bound.define (b.ensure i.bindings s d.name.name).2.2 d := by
    simp only [Builder.declareImplicit, hy]
    rw [hi]
  have hlt : (b.ensure i.bindings s d.name.name).2.2 < bound.vars.size := by
    refine ensure_lt_size _ fun {v} hv => ?_
    obtain ⟨z, hz, -⟩ := hb.found hv
    exact (Array.getElem?_eq_some_iff.mp hz).1
  have hbound : KeepsDefinitions b bound :=
    (KeepsDefinitions.ensure b i.bindings s d.name.name).trans (.modifyScope _ s _)
  obtain ⟨bindings', hcreated⟩ := hb.declareImplicit d
  have hbindings : bindings' = (b.ensure i.bindings s d.name.name).2.1 := by
    have htable' := hcreated.table
    rw [hdeclare, Analysis.table?, scopes_define, (edited_modifyScope _ s _).scopes,
      scopes_ensure, hy, Option.map_some, if_pos rfl] at htable'
    exact (Option.some.inj htable').symm
  subst hbindings
  refine ⟨(b.ensure i.bindings s d.name.name).2.2, _, hcreated, fun e he => ?_, ?_⟩
  · rw [find?_ensure_eq]
    rcases List.mem_append.mp he with hold | hnew
    · split
      · next hname =>
        have hfind := hL e hold
        rcases b.ensure_cases i.bindings s d.name.name with ⟨v, hv, heq⟩ | ⟨hnone, -⟩
        · rw [heq, ← hfind, hname, hv]
        · rw [hname, hnone] at hfind
          cases hfind
      · exact hL e hold
    · cases List.mem_singleton.mp hnew
      exact if_pos rfl
  · rw [hdeclare]
    exact (hbound.chronicled hl).define hlt d

/-- The references that are left over are gone through one after the other. -/
private theorem Chronicled.createImplicit {D : List Definition} {L : List (Nat × Definition)}
    {bindings : Bindings} (hl : Chronicled l b) (hb : Created s D bindings b)
    (hL : Received bindings L) (left : List Nat) :
    ∃ bindings' M, M.map (·.2) = left.filterMap (b.creation? s) ∧
      Created s (D ++ left.filterMap (b.creation? s)) bindings'
        (left.foldl (fun b r => b.createImplicit s r) b) ∧ Received bindings' (L ++ M) ∧
      Chronicled (l ++ M) (left.foldl (fun b r => b.createImplicit s r) b) := by
  induction left generalizing b D L l bindings with
  | nil => exact ⟨bindings, [], rfl, by simpa using hb, by simpa using hL, by simpa using hl⟩
  | cons r left ih =>
    have hsame : (b.createImplicit s r).creation? s = b.creation? s :=
      (treated_createImplicit (fun _ => .unknown) [] b s r).creation?_eq
    rw [createImplicit_eq] at hsame
    rw [List.foldl_cons, createImplicit_eq]
    cases hr : b.creation? s r with
    | none =>
      rw [List.filterMap_cons_none hr]
      exact ih hl hb hL
    | some d =>
      rw [hr, Option.elim_some] at hsame
      obtain ⟨v, bindings₁, hb₁, hL₁, hl₁⟩ := hl.declareImplicit hb hL d
      obtain ⟨bindings', M, hM, hb', hL', hl'⟩ := ih hl₁ hb₁ hL₁
      rw [hsame] at hM hb'
      rw [List.filterMap_cons_some hr]
      refine ⟨bindings', (v, d) :: M, by rw [List.map_cons, hM], ?_, ?_, ?_⟩
      · rwa [List.append_assoc] at hb'
      · rwa [List.append_assoc] at hL'
      · rwa [List.append_assoc] at hl'

/-- A scope without a table for variables that nothing declares creates none. -/
theorem foldl_createImplicit_of_none {y : Scope} (hy : b.scopes[s]? = some y)
    (hi : y.implicit = none) (left : List Nat) :
    left.foldl (fun b r => b.createImplicit s r) b = b := by
  have hdeclare (d : Definition) : b.declareImplicit s d = b := by
    simp only [Builder.declareImplicit, hy]
    rw [hi]
  induction left with
  | nil => rfl
  | cons r left ih =>
    rw [List.foldl_cons, createImplicit_eq]
    cases b.creation? s r with
    | none => exact ih
    | some d => rwa [Option.elim_some, hdeclare]

private theorem creations_of_scope {y : Scope} (hy : b.scopes[s]? = some y) :
    b.creations s = match (if y.kind = .global then y.implicit else none) with
      | none => []
      | some i => (i.left.toList.filterMap (b.creation? s)).filterMap fun d =>
        (i.bindings.find? d.name.name).map (·, d) := by
  rw [Analysis.creations, hy]
  rfl

/-- What is created when a global scope is closed. -/
private theorem Chronicled.createImplicits {y : Scope} (hl : Chronicled l b)
    (hy : b.scopes[s]? = some y) (hkind : y.kind = .global)
    (hempty : ∀ {i : ImplicitGlobals} {name : String}, y.implicit = some i →
      i.bindings.find? name = none) (left : Array Nat) :
    Chronicled (l ++ (b.createImplicits s left).creations s) (b.createImplicits s left) := by
  have hsame : (b.createImplicits s left).creation? s = b.creation? s :=
    (treated_createImplicits (fun _ => .unknown) s [] left b).creation?_eq
  have hapart : Apart s 0 b := ⟨Nat.zero_le _, fun _ _ _ => Nat.zero_le _⟩
  have hlasting := (hapart.createImplicits left).scopes s
  rw [hy] at hlasting
  obtain ⟨y', hy', heq⟩ := Option.map_eq_some_iff.mp hlasting
  have hkind' : y'.kind = .global := (congrArg Scope.kind heq :).trans hkind
  have hscopes := (edited_modifyScope (left.toList.foldl (fun b r => b.createImplicit s r) b) s
    fun x => { x with implicit := x.implicit.map fun i => { i with left := left } }).scopes s
  change (b.createImplicits s left).scopes[s]? = _ at hscopes
  rw [hy'] at hscopes
  rw [creations_of_scope hy', if_pos hkind', hsame]
  cases hi : y.implicit with
  | none =>
    have himplicit : y'.implicit = none := by
      rw [foldl_createImplicit_of_none hy hi, hy, Option.map_some, if_pos rfl, hi] at hscopes
      rw [Option.some.inj hscopes]
      rfl
    rw [himplicit, List.append_nil, Builder.createImplicits, foldl_createImplicit_of_none hy hi]
    exact (KeepsDefinitions.modifyScope b s _).chronicled hl
  | some i =>
    have hcreated : Created s [] i.bindings b := by
      refine ⟨?_, fun {name v} hv => ?_, fun name => ?_⟩
      · rw [Analysis.table?, hy, Option.bind_some, Scope.table?, hi, Option.map_some]
      · rw [hempty hi] at hv
        cases hv
      · simp [hempty hi]
    obtain ⟨bindings', M, hM, hb', hL, hl'⟩ :=
      hl.createImplicit hcreated (L := []) (fun e he => by cases he) left.toList
    obtain ⟨y₁, hy₁, htable⟩ := Option.bind_eq_some_iff.mp hb'.table
    obtain ⟨i₁, hi₁, rfl⟩ := Option.map_eq_some_iff.mp htable
    have himplicit : y'.implicit = some { i₁ with left := left } := by
      rw [hy₁, Option.map_some, if_pos rfl, hi₁] at hscopes
      rw [Option.some.inj hscopes]
      rfl
    rw [List.nil_append] at hL
    rw [himplicit]
    dsimp only
    rw [← hM, hL.eq_filterMap]
    exact (KeepsDefinitions.modifyScope _ s _).chronicled hl'

/-- A scope that is closed adds the definitions that it creates. -/
theorem Chronicled.closeScope (hl : Chronicled l b) (hb : Unsettled b)
    (h : b.closeScope o s = .ok b') : Chronicled (l ++ b'.creations s) b' := by
  obtain ⟨scope, left, b₁, hscope, hleft, hsettle, rfl⟩ := closeScope_cases h
  have hwaiting : Kept [] b.vars.size b (b.stopWaiting s) :=
    .modifyScope b s _ (fun _ => rfl) fun _ _ => rfl
  have hkept : Kept [] b.vars.size b b₁ := hwaiting.trans (kept_settleAll hsettle)
  have hl₁ : Chronicled l b₁ :=
    ((KeepsDefinitions.modifyScope b s _).trans (.settleAll hsettle)).chronicled hl
  have hlasting := hkept.scopes s
  rw [hscope] at hlasting
  obtain ⟨y₁, hy₁, heq⟩ := Option.map_eq_some_iff.mp hlasting
  have hkind₁ : y₁.kind = scope.kind := (congrArg Scope.kind heq :)
  by_cases hkind : scope.kind = .global
  · simp only [if_pos hkind]
    refine KeepsDefinitions.chronicled (b := b₁.createImplicits s left) (.of_eq rfl rfl) ?_
    refine hl₁.createImplicits hy₁ (hkind₁.trans hkind) (fun {i name} hi => ?_) left
    have himplicit := hkept.implicit s List.not_mem_nil
    rw [hscope, hy₁] at himplicit
    exact hb s scope i name hscope (by rw [hleft]; rfl)
      ((Option.some.inj himplicit).symm.trans hi)
  · simp only [if_neg hkind]
    have hnone : b₁.creations s = [] := by
      rw [creations_of_scope hy₁, if_neg (hkind₁ ▸ hkind)]
    refine KeepsDefinitions.chronicled (b := b₁) (.of_eq rfl rfl) ?_
    rwa [hnone, List.append_nil]

/-- What a scope has created lasts. -/
theorem Kept.creations_eq {S : List Nat} {n : Nat} (h : Kept S n b b') (hs : s ∉ S) :
    b'.creations s = b.creations s := by
  have hcreation : b'.creation? s = b.creation? s := by
    funext r
    have hlasting := h.references r
    rw [Analysis.creation?, Analysis.creation?, h.variableIn?]
    cases hx : b.references[r]? with
    | none =>
      rw [hx] at hlasting
      rw [Option.map_eq_none_iff.mp hlasting]
    | some x =>
      rw [hx] at hlasting
      obtain ⟨x', hx', heq⟩ := Option.map_eq_some_iff.mp hlasting
      have himplicit : x'.implicit = x.implicit := (congrArg Reference.implicit heq :)
      have hidentifier : x'.identifier = x.identifier := (congrArg Reference.identifier heq :)
      rw [hx', Option.bind_some, Option.bind_some, himplicit, Reference.name, hidentifier]
      rfl
  have hlasting := h.scopes s
  cases hy : b.scopes[s]? with
  | none =>
    rw [hy] at hlasting
    rw [Analysis.creations, Option.map_eq_none_iff.mp hlasting, Analysis.creations, hy]
    rfl
  | some y =>
    rw [hy] at hlasting
    obtain ⟨y', hy', heq⟩ := Option.map_eq_some_iff.mp hlasting
    have hkind : y'.kind = y.kind := (congrArg Scope.kind heq :)
    have himplicit := h.implicit s hs
    rw [hy, hy'] at himplicit
    rw [creations_of_scope hy', creations_of_scope hy, hcreation, hkind,
      Option.some.inj himplicit]

/-- Scopes are closed one after the other. -/
private theorem Chronicled.closeAll {rs rest : List Nat} (hl : Chronicled l b) (hb : WellFormed b)
    (hunsettled : Unsettled b) (hstack : b.stack = rs ++ rest)
    (h : rs.foldlM (Builder.closeScope o) b = .ok b') :
    Chronicled (l ++ rs.flatMap b'.creations) b' := by
  induction rs generalizing b l with
  | nil =>
    cases h
    rwa [List.flatMap_nil, List.append_nil]
  | cons s rs ih =>
    obtain ⟨b₁, hb₁, hclosed⟩ := closeScope_spec hb.layout hstack (hb.pending_lt s)
    have hkept := kept_closeScope hunsettled hb₁
    have hstack₁ : b₁.stack = rs ++ rest := hclosed.stack_eq hstack
    have hnew : s ∉ rs := by
      have hnodup := hb.layout.nodup_of_chained hb.layout.chained_stack
      rw [hstack, List.cons_append, List.nodup_cons] at hnodup
      exact fun hmem => hnodup.1 (List.mem_append_left rest hmem)
    rw [List.foldlM_cons, hb₁] at h
    have hwell₁ := hb.closed hclosed
    have hunsettled₁ := hunsettled.closed hclosed hkept
    have hlast := (kept_closeAll hwell₁ hunsettled₁ hstack₁ h).1.creations_eq hnew
    rw [List.flatMap_cons, hlast, ← List.append_assoc]
    exact ih (hl.closeScope hunsettled hb₁) hwell₁ hunsettled₁ hstack₁ h

/-! ## Runs -/

private theorem additions_cons {a : Action} (h : step o b a = .ok b') (A : List Action) :
    additions o b (a :: A) = b.added b' a ++ additions o b' A := by
  rw [additions, h]

/-- An action adds its definitions after the others. -/
theorem Chronicled.step {a : Action} (hl : Chronicled l b) (hb : Sound b)
    (h : step o b a = .ok b') : Chronicled (l ++ b.added b' a) b' := by
  have hsame (hadded : b.added b' a = []) (hdeclare : ∀ d, a ≠ .declare d)
      (hclose : ∀ n, a ≠ .closeScopes n) : Chronicled (l ++ b.added b' a) b' := by
    rw [hadded, List.append_nil]
    exact (KeepsDefinitions.of_step h hdeclare hclose).chronicled hl
  cases a with
  | declare d =>
    cases hsites : b.sites with
    | nil =>
      rw [Builder.step, hsites] at h
      cases h
    | cons s rest =>
      rw [Builder.step, hsites] at h
      cases h
      have hs : s < b.scopes.size := hb.sites_lt s (by rw [hsites]; exact List.mem_cons_self)
      obtain ⟨v, hv, hl'⟩ := hl.declareIn hb.wellFormed hs d
      rw [added, hsites, List.head?_cons, Option.bind_some, hv]
      exact hl'
  | closeScopes n =>
    exact hl.closeAll hb.wellFormed hb.unsettled (openFor_append hb.wellFormed n).symm h
  | _ => exact hsame rfl (fun d hd => by cases hd) (fun n hn => by cases hn)

/-- Actions add their definitions one after the other. -/
theorem Effects.chronicled {A : List Action} (h : Effects o b A b') (hl : Chronicled l b) :
    Chronicled (l ++ additions o b A) b' := by
  induction h generalizing l with
  | nil => rwa [additions, List.append_nil]
  | cons hb hstep _ _ ih =>
    rw [additions_cons hstep, ← List.append_assoc]
    exact ih (hl.step hb hstep)

end Builder

/-! ## The variables that nodes declare -/

/-- If the nodes of a program are distinct, the variables that a node declares are those of all
tables which have a definition at the node or at a part of it. None of them is listed twice, and
they are in the order in which they have first received such a definition. -/
theorem Program.declaredBy_exact {o : Options} {p : Program} {a : Analysis}
    (hids : (Tree.ids p).Nodup) (h : Program.analyze o p = .ok a) (n : Nat) :
    (a.declaredBy n).Nodup ∧
      (∀ v, v ∈ a.declaredBy n ↔ (∃ t ∈ a.tables, v ∈ t.2.vars) ∧
        ∃ z, a.vars[v]? = some z ∧ ∃ d ∈ z.defs, d.isAt n = true) ∧
      a.declaredBy n = (((Builder.additions o {} (Program.actions o p)).filter
        (·.2.isAt n)).map (·.1)).eraseDups ∧
      ∀ (v : Nat) (z : Variable), a.vars[v]? = some z → z.defs.toList =
        ((Builder.additions o {} (Program.actions o p)).filter (·.1 = v)).map (·.2) := by
  have hperm := (Program.kempt hids h).vars_perm
  obtain ⟨b, rfl, heffects⟩ := Program.exists_effects h
  have hl := heffects.chronicled .empty
  rw [List.nil_append] at hl
  have hdefs {v : Nat} {z : Variable} (hz : b.vars[v]? = some z) :
      z.defs.toList = b.definitionsOf v := by
    rw [Analysis.definitionsOf, hz]
    rfl
  refine ⟨?_, fun v => ?_, hl.declaredBy n, fun v z hz => (hdefs hz).trans (hl.definitionsOf v)⟩
  · rw [hl.declaredBy]
    exact Builder.nodup_eraseDups _
  · have hlisted : (∃ t ∈ b.tables, v ∈ t.2.vars) ↔ v < b.vars.size := by
      rw [← List.mem_range, ← hperm.mem_iff, List.mem_flatMap]
      simp only [Array.mem_toList_iff]
    have hmem : v ∈ b.declaredBy n ↔ ∃ d ∈ b.definitionsOf v, d.isAt n = true := by
      rw [hl.declaredBy, hl.definitionsOf, List.mem_eraseDups]
      simp only [List.mem_map, List.mem_filter, decide_eq_true_eq]
      constructor
      · rintro ⟨⟨u, d⟩, ⟨he, hat⟩, rfl⟩
        exact ⟨d, ⟨(u, d), ⟨he, rfl⟩, rfl⟩, hat⟩
      · rintro ⟨d, ⟨⟨u, d⟩, ⟨he, rfl⟩, rfl⟩, hat⟩
        exact ⟨(u, d), ⟨he, hat⟩, rfl⟩
    rw [hmem, hlisted]
    constructor
    · rintro ⟨d, hd, hat⟩
      cases hz : b.vars[v]? with
      | none =>
        rw [Analysis.definitionsOf, hz] at hd
        cases hd
      | some z =>
        rw [← hdefs hz, Array.mem_toList_iff] at hd
        exact ⟨(Array.getElem?_eq_some_iff.mp hz).1, z, rfl, d, hd, hat⟩
    · rintro ⟨-, z, hz, d, hd, hat⟩
      exact ⟨d, by rwa [← hdefs hz, Array.mem_toList_iff], hat⟩

/-- The declaration in the head of a loop declares two variables: one in the scope in which the
value of the loop is computed, and after it one in the scope of the loop. -/
theorem Program.declaredBy_exact_loop : (Tree.ids (Program.loopOverFunction id)).Nodup ∧
    ∃ a z, Program.analyze .es6 (.loopOverFunction id) = .ok a ∧ a.declaredBy 2 = [0, 3] ∧
      (a.declaredBy 2).Nodup ∧ (∃ t ∈ a.tables, 3 ∈ t.2.vars) ∧ a.vars[3]? = some z ∧
      (∃ d ∈ z.defs, d.isAt 2 = true) ∧
      (((Builder.additions .es6 {} (Program.actions .es6 (.loopOverFunction id))).filter
        (·.2.isAt 2)).map (·.1)).eraseDups = [0, 3] := by
  have hids : (Tree.ids (Program.loopOverFunction id)).Nodup := by decide
  have hvalue : (Program.analyze .es6 (.loopOverFunction id)).toOption.map (·.declaredBy 2) =
      some [0, 3] := by
    decide +kernel
  cases h : Program.analyze .es6 (.loopOverFunction id) with
  | error e =>
    rw [h] at hvalue
    cases hvalue
  | ok a =>
    rw [h] at hvalue
    have hdeclared : a.declaredBy 2 = [0, 3] := Option.some.inj hvalue
    obtain ⟨hnodup, hmem, horder, -⟩ := Program.declaredBy_exact hids h 2
    obtain ⟨htable, z, hz, hat⟩ := (hmem 3).mp (by rw [hdeclared]; decide)
    exact ⟨hids, a, z, rfl, hdeclared, hnodup, htable, hz, hat, horder.symm.trans hdeclared⟩

end EcmaScope
