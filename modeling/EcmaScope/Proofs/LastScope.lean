import EcmaScope.Proofs.Openings
import EcmaScope.Proofs.Taints

/-!
# The scope that is closed last

The global scope is opened first and closed last. When it is the only scope that is left open, all
other scopes have said what they say of names. The references that wait in it are those that all
scopes on their way have let pass, and nothing has been created yet for names that nothing declares.

## Main definitions

* `Builder.Barren`: no variables have been made that nothing declares.
* `Builder.Last`: the global scope is the only one that is open, and it is closed.
* `Analysis.Surfaces`: references from a scope come up to the global scope.

## Main results

* `Program.exists_last`: every program closes its global scope last.
* `Builder.Last.waits_iff`: which references wait in the global scope.
-/

namespace EcmaScope

/-- Actions that find what they need do so up to any point. -/
theorem Outline.Orderly.of_append {w : Outline} {A B : List Action} (h : w.Orderly (A ++ B)) :
    w.Orderly A := by
  induction A generalizing w with
  | nil => trivial
  | cons a A ih => exact ⟨h.1, fun w' hstep => ih (h.2 w' hstep)⟩

/-- Only a scope that may get other names leaves their meanings open, and not to an optimist. -/
theorem Scope.verdict_eq_unknown_iff (y : Scope) (optimistic : Bool) (name : String) :
    y.verdict optimistic name = .unknown ↔
      y.isStatic = false ∧ optimistic = false ∧ y.kind ≠ .withStatement := by
  by_cases hunsure : y.isStatic = false ∧ optimistic = false
  · by_cases hkind : y.kind = .withStatement
    · simp [verdict_of_with hunsure hkind, hkind]
    · exact iff_of_true (verdict_of_ne_with hunsure hkind) ⟨hunsure.1, hunsure.2, hkind⟩
  · have hsure : y.isStatic = true ∨ optimistic = true := by
      rwa [not_and_or, Bool.not_eq_false, Bool.not_eq_false] at hunsure
    refine iff_of_false ?_ fun h => hunsure ⟨h.1, h.2.1⟩
    cases hv : y.find? name with
    | some v => simp [verdict_of_find?_some hsure hv]
    | none => simp [verdict_of_find?_none hsure hv]

/-- References from the scope `s` come up to the global scope: no scope on their way leaves their
meaning open. An optimist takes them there in any case. -/
def Analysis.Surfaces (a : Analysis) (optimistic : Bool) (s : Nat) : Prop :=
  optimistic = true ∨ ∀ t, a.Inside s t → t ≠ 0 → ∀ y, a.scopes[t]? = some y →
    y.isStatic = true ∨ y.kind = .withStatement

private theorem Analysis.surfaces_iff (a : Analysis) (optimistic : Bool) (s : Nat) (name : String) :
    a.Surfaces optimistic s ↔ ∀ t, a.Inside s t → t ≠ 0 → ∀ verdict, a.verdict? t = some verdict →
      verdict optimistic name ≠ .unknown := by
  have hknown (y : Scope) : y.verdict optimistic name ≠ .unknown ↔
      optimistic = true ∨ y.isStatic = true ∨ y.kind = .withStatement := by
    rw [ne_eq, y.verdict_eq_unknown_iff, not_and_or, not_and_or, not_not, Bool.not_eq_false,
      Bool.not_eq_false, or_left_comm]
  have hverdict (t : Nat) (P : (Bool → String → Verdict) → Prop) :
      (∀ verdict, a.verdict? t = some verdict → P verdict) ↔
        ∀ y, a.scopes[t]? = some y → P y.verdict := by
    simp [verdict?]
  simp only [hverdict, hknown, Surfaces]
  by_cases hoptimistic : optimistic = true <;> simp [hoptimistic]

namespace Builder

variable {b b' : Builder} {o : Options} {s : Nat}

theorem WellFormed.closed_of_closeScope {rest : List Nat} (hb : WellFormed b)
    (hstack : b.stack = s :: rest) (h : b.closeScope o s = .ok b') :
    Closed o.optimistic s b b' := by
  obtain ⟨b₁, hb₁, hclosed⟩ := closeScope_spec (o := o) hb.layout hstack (hb.pending_lt s)
  cases hb₁.symm.trans h
  exact hclosed

/-- A scope that has been closed is of the kind that it was. -/
theorem Closed.exists_kind {optimistic : Bool} (h : Closed optimistic s b b') {t : Nat}
    {y : Scope} (hy : b.scopes[t]? = some y) :
    ∃ y', b'.scopes[t]? = some y' ∧ y'.kind = y.kind := by
  have hframe := congrFun h.frame? t
  rw [Layout.closed_of_eq_some (Analysis.frame?_of_getElem? hy)] at hframe
  obtain ⟨y', hy', hf⟩ := Analysis.frame?_eq_some hframe
  exact ⟨y', hy', congrArg Frame.kind hf⟩

/-- What lasts of a scope are its kind and, except for some scopes, the variables that nothing
declares. -/
theorem Kept.exists_scope {S : List Nat} {n t : Nat} {y' : Scope} (h : Kept S n b b')
    (hy' : b'.scopes[t]? = some y') : ∃ y, b.scopes[t]? = some y ∧ y'.kind = y.kind ∧
      (t ∉ S → y'.implicit = y.implicit) := by
  have hlasting := h.scopes t
  rw [hy'] at hlasting
  obtain ⟨y, hy, hsame⟩ := Option.map_eq_some_iff.mp hlasting.symm
  have hkind : y.lasting.kind = y'.lasting.kind := congrArg Scope.kind hsame
  refine ⟨y, hy, hkind.symm, fun ht => ?_⟩
  have himplicit := h.implicit t ht
  rw [hy', hy] at himplicit
  exact Option.some.inj himplicit

/-- Closing a scope leaves the scopes inside each other as they were. -/
theorem Closed.inside {optimistic : Bool} (h : Closed optimistic s b b') :
    b'.Inside = b.Inside := by
  have hupper : b'.upper? = b.upper? := by
    funext t
    rw [Analysis.upper?_eq, h.frame?, Layout.closed, Analysis.upper?_eq]
    cases b.frame? t <;> rfl
  funext t u
  rw [Analysis.Inside, hupper]
  rfl

/-! ## Before a global scope is closed -/

private theorem stack_pushScope (b : Builder) (scope : Scope) :
    (b.pushScope scope).stack = b.scopes.size :: b.stack := by
  unfold pushScope
  cases b.current? <;> rfl

/-- All global scopes are open. -/
def GlobalsOpen (b : Builder) : Prop :=
  ∀ {t : Nat} {y : Scope}, b.scopes[t]? = some y → y.kind = .global → t ∈ b.stack

/-- Global scopes, and no others, have a table for variables that nothing declares. It is empty. -/
def Barren (b : Builder) : Prop :=
  ∀ {t : Nat} {y : Scope}, b.scopes[t]? = some y →
    y.implicit = if y.kind = .global then some {} else none

/-- As long as all global scopes are open, nothing has been made that nothing declares. -/
def StaysBarren (b : Builder) : Prop :=
  b.GlobalsOpen → b.Barren

namespace StaysBarren

private theorem empty : StaysBarren {} := by
  intro _ t y hy
  simp at hy

/-- Scopes are edited, but not their tables of variables that nothing declares. -/
private theorem edited {edit : Nat → Scope → Scope} (hb : StaysBarren b) (h : Edited edit b b')
    (hkeep : ∀ t y, (edit t y).kind = y.kind ∧ (edit t y).implicit = y.implicit) :
    StaysBarren b' := by
  intro hopen t y' hy'
  have hbarren : b.Barren := hb fun {t y} hy hkind => by
    have hy' : b'.scopes[t]? = some (edit t y) := by rw [h.scopes, hy, Option.map_some]
    rw [← h.stack]
    exact hopen hy' ((hkeep t y).1.trans hkind)
  rw [h.scopes] at hy'
  obtain ⟨y, hy, rfl⟩ := Option.map_eq_some_iff.mp hy'
  rw [(hkeep t y).1, (hkeep t y).2]
  exact hbarren hy

private theorem pushScope {scope : Scope} (hb : StaysBarren b)
    (hscope : scope.implicit = if scope.kind = .global then some {} else none) :
    StaysBarren (b.pushScope scope) := by
  have hold {t : Nat} {y : Scope} (hy : b.scopes[t]? = some y) : t ≠ b.scopes.size := by
    rintro rfl
    simp at hy
  intro hopen
  have hbarren : b.Barren := hb fun {t y} hy hkind => by
    have hmem : t ∈ (b.pushScope scope).stack := by
      refine hopen (by rw [scopes_pushScope, if_neg (hold hy), hy, Option.map_some]) ?_
      split <;> exact hkind
    rw [stack_pushScope] at hmem
    exact (List.mem_cons.mp hmem).resolve_left (hold hy)
  intro t y' hy'
  rw [scopes_pushScope] at hy'
  split at hy'
  · cases hy'
    exact hscope
  · obtain ⟨y, hy, rfl⟩ := Option.map_eq_some_iff.mp hy'
    have hbarren' := hbarren hy
    split <;> exact hbarren'

private theorem effect {a : Action} (hb : StaysBarren b) (ha : ∀ n, a ≠ .closeScopes n)
    (h : Effect o b a b') : StaysBarren b' := by
  cases h with
  | openScope kind block strict v =>
    have hpushed : StaysBarren (b.pushScope (b.newScope o kind block strict v)) :=
      hb.pushScope rfl
    split
    · have hnew : (b.pushScope (b.newScope o kind block strict v)).scopes[b.scopes.size]? =
          some (b.newScope o kind block strict v) := by
        rw [scopes_pushScope, if_pos rfl]
      exact hpushed.edited (edited_declareArguments hnew) fun t y => by split <;> exact ⟨rfl, rfl⟩
    · exact hpushed
  | closeScopes n => exact absurd rfl (ha n)
  | beginSite | endSite | needScope => exact hb
  | @declare d s hs =>
    cases hscope : b.scopes[s]? with
    | none => rwa [declareIn_eq_self hscope]
    | some scope =>
      exact hb.edited (edited_declareIn hscope d) fun t y => by split <;> exact ⟨rfl, rfl⟩
  | refer _ _ _ _ _ _ hedited =>
    exact hb.edited hedited fun t y => by split <;> exact ⟨rfl, rfl⟩
  | useThis s =>
    exact hb.edited (edited_modifyScope b s _) fun t y => by split <;> exact ⟨rfl, rfl⟩
  | callEval _ _ _ hedited => exact hb.edited hedited fun t y => ⟨rfl, rfl⟩

/-- Only a global scope makes variables when it is closed. -/
private theorem closeScope {rest : List Nat} (hb : StaysBarren b) (hwell : WellFormed b)
    (hstack : b.stack = s :: rest) (h : b.closeScope o s = .ok b') : StaysBarren b' := by
  intro hopen
  have hclosed := hwell.closed_of_closeScope hstack h
  obtain ⟨scope, left, b₁, hscope, hleft, hsettle, rfl⟩ := closeScope_cases h
  have hwaiting : Kept [] b.vars.size b (b.stopWaiting s) :=
    .modifyScope b s _ (fun _ => rfl) fun _ _ => rfl
  have hsettled := hwaiting.trans (kept_settleAll hsettle)
  have hstays {t : Nat} {y : Scope} (hy : b.scopes[t]? = some y) (hkind : y.kind = .global) :
      t ∈ rest := by
    obtain ⟨y', hy', hsame⟩ := hclosed.exists_kind hy
    have hmem := hopen hy' (hsame.trans hkind)
    have hrest := hclosed.stack
    rw [hstack] at hrest
    rwa [(List.cons.inj hrest).2]
  have hkind : scope.kind ≠ .global := fun hkind => by
    have hnodup := hwell.layout.nodup_of_chained hwell.layout.chained_stack
    rw [hstack] at hnodup
    exact (List.nodup_cons.mp hnodup).1 (hstays hscope hkind)
  have hbarren : b.Barren := hb fun {t y} hy hkind => by
    rw [hstack]
    exact List.mem_cons_of_mem s (hstays hy hkind)
  intro t y' hy'
  simp only [if_neg hkind] at hy'
  obtain ⟨y, hy, hsame, himplicit⟩ := hsettled.exists_scope hy'
  rw [hsame, himplicit List.not_mem_nil]
  exact hbarren hy

end StaysBarren

/-! ## Closing the global scope -/

/-- The global scope is the only one that is open, nothing has been made that nothing declares, and
the scope is closed. -/
structure Last (o : Options) (b b' : Builder) : Prop where
  wellFormed : WellFormed b
  journeys : Journeys b o.optimistic
  stack : b.stack = [0]
  kind : ∃ y, b.scopes[0]? = some y ∧ y.kind = .global
  globalsOpen : GlobalsOpen b
  barren : Barren b
  close : b.closeScope o 0 = .ok b'

private theorem Effects.step_single {a : Action} (h : Effects o b [a] b') :
    step o b a = .ok b' := by
  cases h with
  | cons _ hstep _ hnil =>
    cases hnil
    exact hstep

/-- Closing all open scopes of a node closes the outermost of them last. -/
theorem exists_closeScope_of_step {n : Nat} {τ : List Nat} (hb : WellFormed b)
    (hstack : b.stack = τ ++ [s]) (hstack' : b'.stack = [])
    (h : step o b (.closeScopes n) = .ok b') :
    ∃ b₁, τ.foldlM (Builder.closeScope o) b = .ok b₁ ∧ Moves o True b b₁ ∧ b₁.stack = [s] ∧
      b₁.closeScope o s = .ok b' := by
  have hsplit := openFor_append hb n
  change (b.openFor n).foldlM (Builder.closeScope o) b = .ok b' at h
  have hall : b.openFor n = τ ++ [s] := by
    obtain ⟨b₂, hb₂, -, houtline⟩ := closeAll_spec o True hb hsplit.symm
    cases hb₂.symm.trans h
    have hnil : b.stack.dropWhile (· ∈ b.scopesOf n) = [] :=
      (congrArg Outline.stack houtline).symm.trans hstack'
    rwa [hnil, List.append_nil, hstack] at hsplit
  obtain ⟨b₁, hb₁, hmoves, houtline⟩ := closeAll_spec o True hb hstack
  rw [hall, List.foldlM_append, hb₁] at h
  refine ⟨b₁, hb₁, hmoves, congrArg Outline.stack houtline, ?_⟩
  change b₁.closeScope o s >>= pure = .ok b' at h
  rwa [bind_pure] at h

namespace Last

/-- Closing the global scope settles what is left. -/
theorem closed (h : Last o b b') : Closed o.optimistic 0 b b' :=
  h.wellFormed.closed_of_closeScope h.stack h.close

/-- The global scope is the only one in which references wait. -/
theorem eq_of_mem_pendingOf (h : Last o b b') {r w : Nat} (hr : r ∈ b.pendingOf w) : w = 0 := by
  rw [Analysis.pendingOf] at hr
  cases hy : b.scopes[w]? with
  | none => simp [hy] at hr
  | some y =>
    have hopen : y.frame.isOpen = true := by
      cases hpending : y.pending with
      | none => simp [hy, hpending] at hr
      | some left => simp [Scope.frame, hpending]
    have hmem := (h.wellFormed.layout.isOpen_iff (Analysis.frame?_of_getElem? hy)).mp hopen
    rwa [h.stack, List.mem_singleton] at hmem

/-- Every other scope lies inside the global scope. -/
theorem zero_mem (h : Last o b b') {t : Nat} {f : Frame} (hf : b.frame? t = some f) :
    0 ∈ t :: f.enclosing := by
  by_cases ht : t = 0
  · exact List.mem_cons.mpr (Or.inl ht.symm)
  · have hzero : 0 ∈ b.stack := by simp [h.stack]
    exact List.mem_cons_of_mem t
      (h.wellFormed.layout.mem_enclosing_of_stack hzero hf (Nat.pos_of_ne_zero ht))

/-- A scope that has been closed is not the global scope. -/
theorem ne_zero_of_ruled (h : Last o b b') {name : String} {t : Nat} {d : Verdict}
    (hruled : b.Ruled o.optimistic name t d) : t ≠ 0 := by
  rintro rfl
  obtain ⟨⟨f, hf, hclosed⟩, -⟩ := hruled
  have hopen := (h.wellFormed.layout.isOpen_iff hf).mpr (by simp [h.stack])
  rw [hclosed] at hopen
  cases hopen

/-- The references that wait in the global scope are those that have not been resolved and whose
meaning no other scope has left open. -/
theorem mem_pendingOf_iff (h : Last o b b') {r : Nat} {x : Reference}
    (hx : b.references[r]? = some x) : r ∈ b.pendingOf 0 ↔ x.resolved = none ∧
      ∀ t, b.Inside x.scope t → t ≠ 0 → ∀ verdict, b.verdict? t = some verdict →
        verdict o.optimistic x.name ≠ .unknown := by
  have hinside {f : Frame} (hf : b.frame? x.scope = some f) (t : Nat) :
      b.Inside x.scope t ↔ t ∈ x.scope :: f.enclosing :=
    Analysis.inside_iff h.wellFormed.layout hf
  have hnotMem {lets : List Nat} (hcounted : b.Counted r none lets) : r ∉ b.pendingOf 0 := by
    rw [← List.count_eq_zero, hcounted.pending]
    rfl
  cases h.journeys r x hx with
  | @waiting f passed rest w hf hchain hpassed hresolved hcounted =>
    have hmem : r ∈ b.pendingOf w := by
      rw [← List.count_pos_iff, hcounted.pending, if_pos rfl]
      exact Nat.one_pos
    obtain rfl := h.eq_of_mem_pendingOf hmem
    refine iff_of_true hmem ⟨hresolved, fun t ht hne verdict hverdict => ?_⟩
    have hbefore : t ∈ passed := by
      rw [hinside hf, hchain, List.mem_append, List.mem_cons] at ht
      have hchained : Chained b.frame? (passed ++ 0 :: rest) := by
        rw [← hchain]
        exact .cons hf (h.wellFormed.layout.chained_enclosing hf)
      obtain ⟨g, hg, rfl⟩ := (Chained.of_append passed hchained).frame
      rcases ht with ht | rfl | ht
      · exact ht
      · exact absurd rfl hne
      · exact absurd (h.wellFormed.layout.enclosing_lt hg t ht) (Nat.not_lt_zero t)
    obtain ⟨d, ⟨-, verdict', hverdict', rfl⟩, hpasses⟩ := hpassed t hbefore
    cases hverdict.symm.trans hverdict'
    intro hunknown
    rw [hunknown] at hpasses
    cases hpasses
  | found _ _ _ _ hresolved hcounted =>
    exact iff_of_false (hnotMem hcounted) fun h => by simp [hresolved] at h
  | @lost f passed rest hf hchain hpassed hruled hresolved hcounted =>
    refine iff_of_false (hnotMem hcounted) fun hall => ?_
    have hzero := h.zero_mem hf
    rw [hchain] at hzero
    cases rest with
    | nil =>
      rw [List.append_nil] at hzero
      obtain ⟨d, hd, -⟩ := hpassed 0 hzero
      exact h.ne_zero_of_ruled hd rfl
    | cons w rest =>
      obtain ⟨verdict, hverdict, hunknown⟩ := (hruled w rfl).2
      refine hall.2 w ?_ (h.ne_zero_of_ruled (hruled w rfl)) verdict hverdict hunknown
      rw [hinside hf, hchain]
      exact List.mem_append_right passed List.mem_cons_self

/-- A reference before the global scope is closed. If it has waited in that scope, it may be
resolved to a variable of the scope, and otherwise it stays as it is. -/
theorem exists_reference (h : Last o b b') {r : Nat} {x : Reference}
    (hx : b'.references[r]? = some x) :
    ∃ x₀, b.references[r]? = some x₀ ∧ x.name = x₀.name ∧ x.scope = x₀.scope ∧
      (x.resolved = x₀.resolved ∨
        r ∈ b.pendingOf 0 ∧ ∃ v, x.resolved = some v ∧ b'.variableIn? x.name 0 = some v) := by
  rw [h.closed.references] at hx
  obtain ⟨x₀, hx₀, rfl⟩ := Option.map_eq_some_iff.mp hx
  refine ⟨x₀, hx₀, ?_⟩
  split
  · next hr =>
    refine ⟨Verdict.name_judge _ x₀, Verdict.scope_judge _ x₀, ?_⟩
    obtain ⟨y, hy, -⟩ := h.kind
    have hfate : b.fate o.optimistic 0 r = y.verdict o.optimistic x₀.name :=
      fate_eq (by rw [Analysis.verdict?, hy]; rfl) hx₀
    rw [hfate, Verdict.name_judge]
    cases hverdict : y.verdict o.optimistic x₀.name with
    | bound v =>
      refine Or.inr ⟨hr, v, rfl, ?_⟩
      rw [h.closed.variableIn?, Analysis.variableIn?_eq, hy]
      exact Scope.find?_of_verdict_eq_bound hverdict
    | unbound | hidden | unknown => exact Or.inl rfl
  · exact ⟨rfl, rfl, Or.inl rfl⟩

/-- The references that have waited in the global scope are those that are not resolved and whose
meaning no other scope leaves open, and those that are resolved to a variable of the scope. -/
theorem mem_pendingOf_iff_closed (h : Last o b b') {r : Nat} {x : Reference}
    (hx : b'.references[r]? = some x) :
    r ∈ b.pendingOf 0 ↔ (x.resolved = none ∧ b'.Surfaces o.optimistic x.scope) ∨
      ∃ v, x.resolved = some v ∧ b'.variableIn? x.name 0 = some v := by
  obtain ⟨x₀, hx₀, hname, hscope, hresolved⟩ := h.exists_reference hx
  rw [b'.surfaces_iff o.optimistic x.scope x.name, h.closed.inside, h.closed.verdict?]
  have hwaits := h.mem_pendingOf_iff hx₀
  rw [← hname, ← hscope] at hwaits
  rcases hresolved with hsame | ⟨hr, hbound⟩
  · rw [hsame, hwaits]
    refine ⟨Or.inl, fun hcases => hcases.resolve_right ?_⟩
    -- a reference that has been resolved before is resolved to a variable of another scope
    rintro ⟨v, hv, hzero⟩
    rw [h.closed.variableIn?] at hzero
    cases h.journeys r x₀ hx₀ with
    | waiting _ _ _ hnone => cases hnone.symm.trans hv
    | lost _ _ _ _ hnone => cases hnone.symm.trans hv
    | found _ _ _ hruled hfound =>
      cases hfound.symm.trans hv
      obtain ⟨-, z, hz, hzscope, -⟩ := hruled.exists_variable h.wellFormed
      obtain ⟨z', hz', hz'scope, -⟩ := h.wellFormed.variable_eq hzero
      cases hz.symm.trans hz'
      exact h.ne_zero_of_ruled hruled (hzscope.symm.trans hz'scope)
  · exact iff_of_true hr (Or.inr hbound)

/-- Which references wait in the global scope, of those whose names it does not declare. -/
theorem waits_iff (h : Last o b b') {r : Nat} {x : Reference} (hx : b'.references[r]? = some x)
    (hname : b'.variableIn? x.name 0 = none) :
    r ∈ b.pendingOf 0 ↔ x.resolved = none ∧ b'.Surfaces o.optimistic x.scope := by
  rw [h.mem_pendingOf_iff_closed hx, or_iff_left]
  rintro ⟨v, -, hv⟩
  cases hname.symm.trans hv

/-- What waits in the global scope are references. -/
theorem exists_reference_of_mem (h : Last o b b') {r : Nat} (hr : r ∈ b.pendingOf 0) :
    ∃ x, b'.references[r]? = some x := by
  have hlt := h.wellFormed.pending_lt 0 r hr
  rw [h.closed.references, Array.getElem?_eq_getElem hlt]
  exact ⟨_, rfl⟩

/-- No reference waits twice in the global scope. -/
theorem nodup_pendingOf (h : Last o b b') : (b.pendingOf 0).Nodup := by
  refine List.nodup_iff_count_le_one.mpr fun r => ?_
  by_cases hr : r ∈ b.pendingOf 0
  · have hlt := h.wellFormed.pending_lt 0 r hr
    obtain ⟨x, hx⟩ : ∃ x, b.references[r]? = some x := ⟨_, Array.getElem?_eq_getElem hlt⟩
    have hcount {waits : Option Nat} {lets : List Nat} (hcounted : b.Counted r waits lets) :
        (b.pendingOf 0).count r ≤ 1 := by
      rw [hcounted.pending]
      split
      · exact Nat.le_refl 1
      · exact Nat.zero_le 1
    cases h.journeys r x hx with
    | waiting _ _ _ _ hcounted => exact hcount hcounted
    | found _ _ _ _ _ hcounted => exact hcount hcounted
    | lost _ _ _ _ _ hcounted => exact hcount hcounted
  · rw [List.count_eq_zero.mpr hr]
    exact Nat.zero_le 1

end Last

end Builder

/-- Every program closes its global scope last. -/
theorem Program.exists_last {o : Options} {p : Program} {a : Analysis}
    (hids : (Tree.ids p).Nodup) (h : Program.analyze o p = .ok a) :
    ∃ b b' : Builder, b'.toAnalysis = a ∧ Builder.Last o b b' := by
  obtain ⟨b', rfl, heffects⟩ := Program.exists_effects h
  have hstack' : b'.stack = [] := Program.stack_eq_nil (heffects.ran .empty).outline
  have horderly := Program.orderly_actions o hids
  have hglobal : OneGlobal b'.openings := by
    rw [heffects.openings]
    exact Program.oneGlobal_actions o p
  obtain ⟨strict, M, A, hactions, hmarks, I, hcount, hA⟩ := Program.actions_eq o p
  rw [Tree.ids, hmarks] at hids
  obtain ⟨hI, hroot⟩ := nodup_of_count_le hids hcount
  rw [hactions] at heffects horderly
  obtain ⟨b₂, hbefore, hclose⟩ := heffects.exists_of_append
  have hsound := hbefore.sound
  obtain ⟨τ, hstack⟩ : ∃ τ, b₂.stack = τ ++ [0] := by
    obtain ⟨b₁, hopen, hmiddle⟩ := hbefore.exists_of_append
    have hfirst := Outline.run_openScope_empty (hopen.ran .empty).outline
    have hrun := (hmiddle.ran hmiddle.start.wellFormed).outline
    rw [hfirst] at hrun
    obtain ⟨τ, hleaves⟩ := (hA.balanced hI hroot (Outline.admits_first hroot)).2 _ hrun
    exact ⟨τ, hleaves.stack⟩
  obtain ⟨b, hb, hmoves, hzero, hlast⟩ :=
    Builder.exists_closeScope_of_step hsound.wellFormed hstack hstack' hclose.step_single
  have hwell := hmoves.wellFormed hsound.wellFormed
  have hj₂ : Builder.Journeys b₂ o.optimistic :=
    ((hbefore.ran .empty).moves.mono fun _ : True => horderly.of_append).journeys .empty
      fun r x hx => by simp at hx
  have hstays : Builder.StaysBarren b := by
    refine Builder.closeAll_induction (fun hwell _ hstack hclose hb =>
      hb.closeScope hwell hstack hclose) hsound.wellFormed hj₂ hstack hb ?_
    exact hbefore.induction (fun hwell _ hstack hclose hb => hb.closeScope hwell hstack hclose)
      (fun _ ha heffect hb => hb.effect ha heffect) horderly.of_append
      (fun r x hx => by simp at hx) .empty
  have hclosed := hwell.closed_of_closeScope hzero hlast
  have hopen : b.GlobalsOpen := by
    intro t y hy hkind
    obtain ⟨y', hy', hsame⟩ := hclosed.exists_kind hy
    have hopening : b'.openings[t]? = some (.global, y'.block.id) := by
      rw [Analysis.getElem?_openings, hy', ← hkind, ← hsame]
      rfl
    rw [hglobal t _ hopening, hzero]
    exact List.mem_singleton_self 0
  refine ⟨b, b', rfl, hwell, hmoves.journeys hsound.wellFormed hj₂, hzero, ?_, hopen,
    hstays hopen, hlast⟩
  obtain ⟨y, -, hy, -⟩ := Builder.exists_pending hwell.layout hzero
  obtain ⟨y', hy', hsame⟩ := hclosed.exists_kind hy
  obtain ⟨c, hc, hfinished⟩ := Program.exists_finished h
  obtain ⟨f, hf, hglobalKind⟩ := hfinished.zero
  rw [hc] at hf
  cases (Analysis.frame?_of_getElem? hy').symm.trans hf
  exact ⟨y, hy, hsame.symm.trans hglobalKind⟩

end EcmaScope
