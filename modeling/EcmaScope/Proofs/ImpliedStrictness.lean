import EcmaScope.Proofs.Leftovers
import EcmaScope.Proofs.Regions
import EcmaScope.Proofs.Strictness

/-!
# Strict mode for the whole program

A program opens up to three scopes for itself. If strict mode is chosen for the whole program, it is
the innermost of them that asks for it, and so all scopes of other nodes are strict, since they lie
inside. The scopes of the program around the innermost one are left as they are. The global scope
around the function that a loader provides is never strict, and around a module the scopes are
strict by a directive only. But all names are used inside the innermost scope. So all code is
strict, and no assignment creates a variable that nothing declares.

## Main definitions

* `Program.ownScopes`: the scopes that a program opens for itself, and whether they ask for strict
  mode.
* `Program.StaysSloppy`: the scopes of a program that strict mode does not reach.

## Main results

* `Program.inside_innermost`: all references lie inside the innermost scope of the program.
* `Program.isStrict_own_iff`, `Program.isStrict_of_ne_mark`: which scopes are strict.
* `Program.implied_strict_exact`: what strict mode for the whole program comes to.
-/

namespace EcmaScope

open EcmaScope.Action

variable {o : Options} {p : Program} {a : Analysis}

/-! ## The scopes of a program -/

/-- The scopes that a program opens for itself, each with whether it asks for strict mode. -/
def Program.ownScopes (o : Options) : Program → List (ScopeKind × Bool)
  | .program _ body =>
    let isModule := o.isEs6 && o.isModule
    let strict := hasUseStrict o.directive body.toList || (!isModule && o.impliesStrict)
    [(.global, !o.nodejsScope && strict)] ++
      (if o.nodejsScope then [(.function, strict)] else []) ++
      (if isModule then [(.module, true)] else [])

/-- The action that opens a scope of the program. -/
def Program.openOwn (p : Program) (e : ScopeKind × Bool) : Action :=
  .openScope e.1 ⟨.program, Program.mark p⟩ e.2

/-- Nested actions open scopes for the node that they belong to and for the nodes inside. -/
theorem Action.Nested.mem_of_openScope {owner : Option Nat} {sited : Bool} {I : List Nat}
    {A : List Action} (h : Nested owner sited I A) {kind : ScopeKind} {block : Anchor}
    {strict : Bool} (hopen : .openScope kind block strict ∈ A) :
    block.id ∈ owner.toList ++ I := by
  induction h with
  | nil => cases hopen
  | append _ _ ihA ihB =>
    rcases List.mem_append.mp hopen with hopen | hopen
    · have hmem := ihA hopen
      grind
    · have hmem := ihB hopen
      grind
  | plain a ha =>
    rw [← List.mem_singleton.mp hopen] at ha
    cases ha
  | declare => cases List.mem_singleton.mp hopen
  | openScope =>
    cases List.mem_singleton.mp hopen
    exact List.mem_cons_self
  | site reach _ ih =>
    refine List.mem_append_right _ (ih ?_)
    simpa using hopen
  | scopes k _ ih =>
    refine List.mem_append_right _ (ih ?_)
    rcases List.mem_append.mp hopen with hopen | hopen
    · exact hopen
    · cases List.eq_of_mem_replicate hopen

namespace Program

/-- A program opens its own scopes, does what its body does, and closes its scopes. -/
theorem actions_eq_own (o : Options) : (p : Program) → ∃ M A,
    Program.actions o p = (Program.ownScopes o p).map (Program.openOwn p) ++ A ++
      [Action.closeScopes (Program.mark p).id] ∧
    p.marks = Program.mark p :: M ∧ Enclosed none false M A
  | .program m body => by
    refine ⟨body.marks, body.actions o (.code false), ?_, rfl,
      Tree.actions_nested o (.code false) body⟩
    have hif (q : Prop) [Decidable q] (e : ScopeKind × Bool) :
        (if q then [e] else []).map (Program.openOwn (.program m body)) =
          if q then [Action.openScope e.1 ⟨.program, m⟩ e.2] else [] := by
      split <;> rfl
    rw [ownScopes, List.map_append, List.map_append, hif, hif]
    rfl

/-- The innermost scope of a program is opened last. It asks for strict mode if that has been chosen
for the whole program. -/
theorem ownScopes_eq_append (o : Options) : (p : Program) → ∃ own strict,
    Program.ownScopes o p = own ++ [(o.innermostKind, strict)] ∧
      (o.impliesStrict = true → strict = true)
  | .program m body => by
    let strict := hasUseStrict o.directive body.toList ||
      (!(o.isEs6 && o.isModule) && o.impliesStrict)
    change ∃ own last, [(ScopeKind.global, !o.nodejsScope && strict)] ++
      (if o.nodejsScope then [(ScopeKind.function, strict)] else []) ++
      (if o.isEs6 && o.isModule then [(ScopeKind.module, true)] else []) = own ++ [(_, last)] ∧ _
    unfold Options.innermostKind
    split_ifs with hwrapper hmodule hmodule
    · exact ⟨[_, _], true, rfl, fun _ => rfl⟩
    · exact ⟨[_], strict, rfl, fun himplies => by simp [strict, hmodule, himplies]⟩
    · exact ⟨[_], true, rfl, fun _ => rfl⟩
    · exact ⟨[], _, rfl, fun himplies => by simp [strict, hmodule, hwrapper, himplies]⟩

/-- The scopes that belong to a program are its own. -/
theorem mem_ownScopes (hids : (Tree.ids p).Nodup) {kind : ScopeKind} {block : Anchor}
    {strict : Bool} (hopen : .openScope kind block strict ∈ Program.actions o p)
    (hblock : block.id = (Program.mark p).id) : (kind, strict) ∈ Program.ownScopes o p := by
  obtain ⟨M, A, hactions, hmarks, I, hcount, hnested⟩ := Program.actions_eq_own o p
  rw [hactions, List.mem_append, List.mem_append] at hopen
  rcases hopen with (hopen | hopen) | hopen
  · obtain ⟨e, he, heq⟩ := List.mem_map.mp hopen
    cases heq
    exact he
  · rw [Tree.ids, hmarks] at hids
    have hmem : block.id ∈ I := hnested.mem_of_openScope hopen
    exact absurd (congrArg some hblock.symm) ((nodup_of_count_le hids hcount).2 _ hmem)
  · cases List.mem_singleton.mp hopen

/-- All references of a program lie inside its innermost scope. -/
theorem inside_innermost (hids : (Tree.ids p).Nodup) (h : Program.analyze o p = .ok a) {r : Nat}
    {x : Reference} (hx : a.references[r]? = some x) :
    ∃ s, a.openings[s]? = some (o.innermostKind, (Program.mark p).id) ∧ a.Inside x.scope s := by
  obtain ⟨b', rfl, heffects⟩ := Program.exists_effects h
  obtain ⟨M, A, hactions, hmarks, hA⟩ := Program.actions_eq_own o p
  obtain ⟨own, strict, hown, -⟩ := Program.ownScopes_eq_append o p
  rw [hactions, hown, List.map_append] at heffects
  obtain ⟨b₂, heffects, hclose⟩ := heffects.exists_of_append
  obtain ⟨b₁, heffects, hbody⟩ := heffects.exists_of_append
  obtain ⟨b₀, houter, hinner⟩ := heffects.exists_of_append
  have hopen : Builder.Effects o b₀
    [.openScope o.innermostKind ⟨.program, Program.mark p⟩ strict] b₁ := hinner
  -- nothing is used before the body, and nothing after it
  have hquiet : b₁.references.size = 0 := by
    rw [hopen.references_size rfl, houter.references_size]
    · rfl
    · exact List.flatMap_eq_nil_iff.mpr fun a ha => by
        obtain ⟨e, -, rfl⟩ := List.mem_map.mp ha
        rfl
  have hmade : Builder.Made b₁ b₂ b' r x := by
    refine ⟨hquiet ▸ Nat.zero_le r, ?_, hx⟩
    rw [← hclose.references_size rfl]
    exact (Array.getElem?_eq_some_iff.mp hx).1
  have hstays : .closeScopes (Program.mark p).id ∉ A := fun hmem => by
    rw [Tree.ids, hmarks] at hids
    exact (List.nodup_cons.mp hids).1 (hA.mem_of_closeScopes hmem)
  refine ⟨b₀.scopes.size, ?_,
    hmade.inside hbody hclose hopen.lt_of_opened (hopen.mem_of_opened hbody hstays)⟩
  obtain ⟨y, hy, hkind, hblock⟩ :=
    (hbody.append hclose).opens hbody.start.wellFormed hopen.opened.1
  rw [Analysis.getElem?_openings, hy, Option.map_some, Scope.opening, hkind, hblock]
  rfl

end Program

/-! ## Strict scopes -/

/-- The scope is one of the program's own that strict mode for the whole program does not reach: the
global scope around the function that the loader provides, and what is around a module, unless the
program has a directive. -/
def Program.StaysSloppy (o : Options) (p : Program) (y : Scope) : Prop :=
  y.block.id = (Program.mark p).id ∧ ((y.kind = .global ∧ o.nodejsScope = true) ∨
    (o.isEs6 = true ∧ o.isModule = true) ∧ ¬ Program.HasUseStrict o.directive p ∧
      y.kind ≠ .module)

namespace Program

/-- Which of its own scopes a program asks to be strict, if strict mode is chosen for the whole. -/
theorem asks_iff_of_mem_ownScopes (himplies : o.impliesStrict = true) {kind : ScopeKind}
    {strict : Bool} (hown : (kind, strict) ∈ Program.ownScopes o p) :
    strict = false ↔ (kind = .global ∧ o.nodejsScope = true) ∨
      (o.isEs6 = true ∧ o.isModule = true) ∧ ¬ Program.HasUseStrict o.directive p ∧
        kind ≠ .module := by
  cases p with
  | program m body =>
    rw [Program.HasUseStrict, ← hasUseStrict_iff]
    simp only [ownScopes, List.mem_append, List.mem_singleton, List.mem_ite_nil_right,
      Prod.mk.injEq, himplies] at hown
    rcases hown with (⟨rfl, rfl⟩ | ⟨hwrapper, rfl, rfl⟩) | ⟨hmodule, rfl, rfl⟩ <;> grind

/-- The scopes of a program are opened before all others. -/
theorem own_of_le (hids : (Tree.ids p).Nodup) (h : Program.analyze o p = .ok a) {s u : Nat}
    {k k' : ScopeKind} {n : Nat} (hs : a.openings[s]? = some (k, (Program.mark p).id))
    (hu : a.openings[u]? = some (k', n)) (hle : u ≤ s) : n = (Program.mark p).id ∧ k' ≠ .tdz := by
  obtain ⟨M, l, hopenings, hM, harranged⟩ := Program.openings_eq_append hids h
  rw [hopenings] at hs hu
  have hown : s < (p.openings o .code).length := by
    by_contra hge
    rw [List.getElem?_append_right (Nat.le_of_not_lt hge)] at hs
    exact (List.nodup_cons.mp hM).1 (harranged.node_mem _ (List.mem_of_getElem? hs))
  rw [List.getElem?_append_left (Nat.lt_of_le_of_lt hle hown)] at hu
  exact Program.of_mem_openings (List.mem_of_getElem? hu)

/-- Which of the own scopes of a program are not strict if strict mode is chosen for the whole. -/
theorem isStrict_own_iff (hids : (Tree.ids p).Nodup) (himplies : o.impliesStrict = true)
    (h : Program.analyze o p = .ok a) {s : Nat} {y : Scope} (hy : a.scopes[s]? = some y)
    (hblock : y.block.id = (Program.mark p).id) :
    y.isStrict = false ↔ Program.StaysSloppy o p y := by
  have htree := (Program.ordered hids h).isTree
  have hmode : o.hasStrictMode = true := (Bool.and_eq_true _ _ ▸ himplies).2
  induction s using Nat.strongRecOn generalizing y with
  | ind s ih =>
    obtain ⟨strict, hopen, hstrict⟩ := Program.exists_openScope h hy
    have hasks : strict = false ↔ Program.StaysSloppy o p y := by
      rw [Program.asks_iff_of_mem_ownScopes himplies (Program.mem_ownScopes hids hopen hblock),
        StaysSloppy, and_iff_right hblock]
    rw [← hasks]
    cases strict with
    | true => simp [hstrict.mpr ⟨hmode, Or.inr rfl⟩]
    | false =>
      refine iff_of_true (Bool.eq_false_iff.mpr fun hyes => ?_) rfl
      obtain ⟨-, ⟨u, hu, z, hz, hzstrict⟩ | hfalse⟩ := hstrict.mp hyes
      · have hs := a.getElem?_openings s
        have hzs := a.getElem?_openings u
        rw [hy, Option.map_some, Scope.opening, hblock] at hs
        rw [hz, Option.map_some, Scope.opening] at hzs
        have hlt := htree.lt_of_upper? hu
        obtain ⟨hzblock, -⟩ := Program.own_of_le hids h hs hzs (Nat.le_of_lt hlt)
        have hzsloppy : Program.StaysSloppy o p z := by
          refine ⟨hzblock, ?_⟩
          rcases (hasks.mp rfl).2 with ⟨hkind, -⟩ | ⟨hmodule, hdirective, -⟩
          · cases (Program.kind_eq_global_iff hids h hy).mp hkind
            rw [htree.upper?_zero] at hu
            cases hu
          · refine Or.inr ⟨hmodule, hdirective, fun hzkind => ?_⟩
            have hinnermost : o.innermostKind = .module := by simp [Options.innermostKind, hmodule]
            obtain ⟨last, hlast, hle⟩ := Program.exists_last_opening hids h
            rw [hzkind, hzblock, ← hinnermost] at hzs
            have hlast := Program.eq_of_opening hids h hzs hlast
            have hle := hle s _ hs
            omega
        rw [(ih u hlt hz hzblock).mpr hzsloppy] at hzstrict
        cases hzstrict
      · cases hfalse

/-- Strict mode for the whole program reaches the innermost scope of the program. -/
theorem isStrict_of_innermost (hids : (Tree.ids p).Nodup) (himplies : o.impliesStrict = true)
    (h : Program.analyze o p = .ok a) {s : Nat} {y : Scope} (hy : a.scopes[s]? = some y)
    (hs : a.openings[s]? = some (o.innermostKind, (Program.mark p).id)) : y.isStrict = true := by
  rw [a.getElem?_openings, hy, Option.map_some, Scope.opening] at hs
  obtain ⟨hkind, hblock⟩ := Prod.mk.inj (Option.some.inj hs)
  rw [← Bool.not_eq_false, Program.isStrict_own_iff hids himplies h hy hblock, StaysSloppy, hkind]
  unfold Options.innermostKind
  grind

/-- Strict mode for the whole program reaches all scopes of other nodes. -/
theorem isStrict_of_ne_mark (hids : (Tree.ids p).Nodup) (himplies : o.impliesStrict = true)
    (h : Program.analyze o p = .ok a) {s : Nat} {y : Scope} (hy : a.scopes[s]? = some y)
    (hblock : y.block.id ≠ (Program.mark p).id) : y.isStrict = true := by
  have hordered := Program.ordered hids h
  have hmode : o.hasStrictMode = true := (Bool.and_eq_true _ _ ▸ himplies).2
  obtain ⟨last, hlast, hle⟩ := Program.exists_last_opening hids h
  induction s using Nat.strongRecOn generalizing y with
  | ind s ih =>
    have hs := a.getElem?_openings s
    rw [hy, Option.map_some, Scope.opening] at hs
    have hpos : 0 < s := by
      rcases Nat.eq_zero_or_pos s with rfl | hpos
      · exact absurd (Program.own_of_le hids h hlast hs (Nat.zero_le last)).1 hblock
      · exact hpos
    have hlt := (Array.getElem?_eq_some_iff.mp hy).1
    obtain ⟨u, hu, hus⟩ := hordered.isTree.upper?_lt s hpos hlt
    have hz : a.scopes[u]? = some a.scopes[u] := Array.getElem?_eq_getElem (Nat.lt_trans hus hlt)
    obtain ⟨strict, -, hstrict⟩ := Program.exists_openScope h hy
    refine hstrict.mpr ⟨hmode, Or.inl ⟨u, hu, _, hz, ?_⟩⟩
    by_cases hown : a.scopes[u].block.id = (Program.mark p).id
    · have hus := a.getElem?_openings u
      rw [hz, Option.map_some, Scope.opening, hown] at hus
      have hule := hle u _ hus
      obtain ⟨-, htdz⟩ := Program.own_of_le hids h hlast hus hule
      obtain ⟨l, hl⟩ := hordered.exists_append hus htdz hs hblock hu
      have hlastmem := hordered.isTree.mem_scopesOf_iff.mpr ⟨_, hlast⟩
      have hpairwise := hordered.isTree.pairwise_scopesOf (Program.mark p).id
      rw [hl] at hlastmem hpairwise
      have hlastle : last ≤ u := by
        rcases List.mem_append.mp hlastmem with hmem | hmem
        · exact Nat.le_of_lt ((List.pairwise_append.mp hpairwise).2.2 last hmem u (by simp)).1
        · exact Nat.le_of_eq (List.mem_singleton.mp hmem)
      obtain rfl := Nat.le_antisymm hule hlastle
      exact Program.isStrict_of_innermost hids himplies h hz hlast
    · exact ih u hus hz hown

/-- Strict mode for the whole program reaches all scopes in which names are used. -/
theorem isStrict_of_reference (hids : (Tree.ids p).Nodup) (himplies : o.impliesStrict = true)
    (h : Program.analyze o p = .ok a) {r : Nat} {x : Reference}
    (hx : a.references[r]? = some x) {y : Scope} (hy : a.scopes[x.scope]? = some y) :
    y.isStrict = true := by
  have htree := (Program.ordered hids h).isTree
  by_cases hblock : y.block.id = (Program.mark p).id
  · obtain ⟨last, hlast, hinside⟩ := Program.inside_innermost hids h hx
    obtain ⟨last', hlast', hle⟩ := Program.exists_last_opening hids h
    have hs := a.getElem?_openings x.scope
    rw [hy, Option.map_some, Scope.opening, hblock] at hs
    have hle := hle x.scope _ hs
    rw [← Program.eq_of_opening hids h hlast hlast'] at hle
    have heq := Nat.le_antisymm hle (htree.le_of_inside hinside)
    exact Program.isStrict_of_innermost hids himplies h hy (heq ▸ hlast)
  · exact Program.isStrict_of_ne_mark hids himplies h hy hblock

/-- If no reference may create a variable, nothing is made that nothing declares. -/
theorem implicit_vars_eq_empty (hids : (Tree.ids p).Nodup) (h : Program.analyze o p = .ok a)
    (hnone : ∀ (r : Nat) (x : Reference), a.references[r]? = some x → x.implicit = none) :
    ∃ (y : Scope) (i : ImplicitGlobals), a.scopes[0]? = some y ∧ y.implicit = some i ∧
      i.bindings.vars = #[] := by
  have hkempt := Program.kempt hids h
  obtain ⟨b, b', rfl, hlast⟩ := Program.exists_last hids h
  obtain ⟨y, i, hy, -, hi, -, hcreated⟩ := hlast.created
  refine ⟨y, i, hy, hi, Array.eq_empty_iff_forall_not_mem.mpr fun v hv => ?_⟩
  obtain ⟨name, htitle⟩ := hkempt.shelved.titled hcreated.table v hv
  have hfind := (hkempt.shelved.find?_iff hcreated.table name v).mpr ⟨hv, htitle⟩
  obtain ⟨d, hd, -⟩ := (hcreated.find?_isSome name).mp (Option.isSome_of_eq_some hfind)
  obtain ⟨r, x, creator, hx, himplicit, -⟩ := hlast.mem_creations_iff.mp hd
  cases (hnone r x hx).symm.trans himplicit

/-- If strict mode is chosen for a whole program, in a language that has it, the scopes that are not
strict are exactly those of the program itself that it does not reach. All names are used in strict
scopes, and nothing is made that nothing declares. -/
theorem implied_strict_exact (hids : (Tree.ids p).Nodup) (himplied : o.impliedStrict = true)
    (hversion : 5 ≤ o.ecmaVersion) (h : Program.analyze o p = .ok a) :
    (∀ (s : Nat) (y : Scope), a.scopes[s]? = some y →
        (y.isStrict = false ↔ Program.StaysSloppy o p y)) ∧
      (∀ (r : Nat) (x : Reference), a.references[r]? = some x →
        ∃ y, a.scopes[x.scope]? = some y ∧ y.isStrict = true) ∧
      ∃ y i, a.scopes[0]? = some y ∧ y.implicit = some i ∧ i.bindings.vars = #[] := by
  have himplies : o.impliesStrict = true := by
    rw [Options.impliesStrict, himplied, Bool.true_and]
    exact decide_eq_true hversion
  have hscope (r : Nat) (x : Reference) (hx : a.references[r]? = some x) :
      ∃ y, a.scopes[x.scope]? = some y ∧ y.isStrict = true := by
    obtain ⟨y, hy⟩ := Program.exists_scope_of_reference hids h hx
    exact ⟨y, hy, Program.isStrict_of_reference hids himplies h hx hy⟩
  refine ⟨fun s y hy => ?_, hscope, Program.implicit_vars_eq_empty hids h fun r x hx => ?_⟩
  · by_cases hblock : y.block.id = (Program.mark p).id
    · exact Program.isStrict_own_iff hids himplies h hy hblock
    · have hstrict := Program.isStrict_of_ne_mark hids himplies h hy hblock
      exact iff_of_false (by simp [hstrict]) fun hsloppy => hblock hsloppy.1
  · obtain ⟨y, hy, hstrict⟩ := hscope r x hx
    cases himplicit : x.implicit with
    | none => rfl
    | some creator =>
      obtain ⟨-, -, z, hz, hzstrict⟩ := (Program.implicit_spec hids h hx).1.mp ⟨creator, himplicit⟩
      cases hy.symm.trans hz
      cases hstrict.symm.trans hzstrict

/-- The program `x = 1;`. -/
def assignUndeclared : Program :=
  let mark (n : Nat) : Mark := ⟨n, ⟨n, n⟩⟩
  .program (mark 0) (.cons (.expressionStatement (mark 1) (.assignmentExpression (mark 2) .assign
    (.identifierPattern ⟨mark 3, "x"⟩)
    (.literal ⟨mark 4, .number (.integer 1), none, none, none⟩)) none) .nil)

/-- A module inside the function that the loader provides: only the scope of the module is strict,
and the assignment makes no variable. -/
theorem implied_strict_exact_module :
    let o : Options := { Options.module with impliedStrict := true, nodejsScope := true }
    (Tree.ids Program.assignUndeclared).Nodup ∧ o.impliedStrict = true ∧ 5 ≤ o.ecmaVersion ∧
      ∃ a, Program.analyze o .assignUndeclared = .ok a ∧
        (a.scopes.toList.map fun y => (y.kind, y.isStrict)) =
          [(.global, false), (.function, false), (.module, true)] ∧
        (∀ y ∈ a.scopes, y.isStrict = false → Program.StaysSloppy o .assignUndeclared y) ∧
        ∃ y i, a.scopes[0]? = some y ∧ y.implicit = some i ∧ i.bindings.vars = #[] := by
  intro o
  have hids : (Tree.ids Program.assignUndeclared).Nodup := by decide
  have hvalue : ((Program.analyze o .assignUndeclared).toOption.map fun a =>
      a.scopes.toList.map fun y => (y.kind, y.isStrict)) =
        some [(.global, false), (.function, false), (.module, true)] := by decide +kernel
  cases h : Program.analyze o .assignUndeclared with
  | error e =>
    rw [h] at hvalue
    cases hvalue
  | ok a =>
    rw [h] at hvalue
    obtain ⟨hscopes, -, himplicit⟩ := Program.implied_strict_exact hids rfl (by decide) h
    refine ⟨hids, rfl, by decide, a, rfl, Option.some.inj hvalue, fun y hy hstrict => ?_, himplicit⟩
    obtain ⟨s, hs⟩ := Array.getElem?_of_mem hy
    exact (hscopes s y hs).mp hstrict

/-- The global scope around the function that a loader provides is not strict, although strict mode
is chosen for the whole program. -/
theorem global_stays_sloppy :
    let o : Options := { impliedStrict := true, nodejsScope := true }
    (Tree.ids Program.assignUndeclared).Nodup ∧ 5 ≤ o.ecmaVersion ∧ ∃ a y,
      Program.analyze o .assignUndeclared = .ok a ∧ a.scopes[0]? = some y ∧ y.isStrict = false := by
  intro o
  have hvalue : ((Program.analyze o .assignUndeclared).toOption.bind fun a =>
      (a.scopes[0]?).map (·.isStrict)) = some false := by decide +kernel
  cases h : Program.analyze o .assignUndeclared with
  | error e =>
    rw [h] at hvalue
    cases hvalue
  | ok a =>
    rw [h] at hvalue
    obtain ⟨y, hy, hstrict⟩ := Option.map_eq_some_iff.mp hvalue
    exact ⟨by decide, by decide, a, y, rfl, hy, hstrict⟩

end Program

end EcmaScope
