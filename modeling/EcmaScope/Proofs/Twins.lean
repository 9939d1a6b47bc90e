import EcmaScope.Proofs.Agreement
import EcmaScope.Proofs.Definitions
import EcmaScope.Proofs.Openings

/-!
# Two analyses side by side

What is settled when a scope is closed has no bearing on what the actions after it put into the
tables. So two builders that carry out the same actions, each with its own way of settling
references, stay even in everything that lasts. They part only when the global scope is closed: the
variables that nothing declares are made then, and these depend on what has been settled.

## Main definitions

* `Analysis.Alike`: two analyses that are the same in everything that lasts.
* `Builder.Even`: two builders that are the same in everything that lasts.
* `Builder.Twins`: even builders, or alike ones that have come to their end.

## Main results

* `Builder.Even.step`: builders stay even as long as no scope is closed.
* `Builder.Even.closeScopes`: what becomes of even builders when scopes are closed.
* `Builder.Twins.run`: twins stay twins, or they fail for the same reason.
-/

namespace EcmaScope

/-- The analyses have the same scopes, the same references and the same declared variables, apart
from what is settled when scopes are closed. -/
structure Analysis.Alike (a a' : Analysis) : Prop where
  scopes : a'.scopes.map Scope.lasting = a.scopes.map Scope.lasting
  references : a'.references.map Reference.lasting = a.references.map Reference.lasting
  vars : ∀ {name : String} {s v : Nat}, a.variableIn? name s = some v →
    ∃ x x' : Variable, a.vars[v]? = some x ∧ a'.vars[v]? = some x' ∧ x'.lasting = x.lasting

namespace Builder

variable {b b' c c' : Builder} {o o' : Options} {s n : Nat}

/-! ## Even builders -/

/-- The builders are the same, apart from what is settled when scopes are closed. -/
structure Even (b b' : Builder) : Prop where
  scopes : Rows (fun y y' => y'.lasting = y.lasting) b.scopes b'.scopes
  references : Rows (fun x x' => x'.lasting = x.lasting) b.references b'.references
  vars : Rows (fun x x' => x'.lasting = x.lasting) b.vars b'.vars
  stack : b'.stack = b.stack
  sites : b'.sites = b.sites

namespace Even

theorem refl (b : Builder) : Even b b :=
  ⟨Rows.iff_map.2 fun _ => rfl, Rows.iff_map.2 fun _ => rfl, Rows.iff_map.2 fun _ => rfl, rfl, rfl⟩

theorem current (h : Even b b') : b'.current = b.current := by
  unfold Builder.current current?
  rw [h.stack]

theorem variableScope (h : Even b b') : b'.variableScope = b.variableScope := by
  ext s
  unfold Builder.variableScope
  rcases h.scopes.cases s with ⟨hs, hs'⟩ | ⟨y, y', hs, hs', hy⟩
  · rw [hs, hs']
  · rw [hs, hs']
    exact (congrArg Scope.variableScope hy :)

theorem isStrict (h : Even b b') : b'.isStrict = b.isStrict := by
  ext s
  unfold Builder.isStrict
  rcases h.scopes.cases s with ⟨hs, hs'⟩ | ⟨y, y', hs, hs', hy⟩
  · rw [hs, hs']
  · rw [hs, hs']
    exact (congrArg Scope.isStrict hy :)

theorem openFor (h : Even b b') (n : Nat) : b'.openFor n = b.openFor n := by
  have hblock : (fun s : Nat => b'.scopes[s]?.any (·.block.id = n)) =
      fun s : Nat => b.scopes[s]?.any (·.block.id = n) := by
    ext s
    rcases h.scopes.cases s with ⟨hs, hs'⟩ | ⟨y, y', hs, hs', hy⟩
    · rw [hs, hs']
    · have hid : y'.block.id = y.block.id := (congrArg (fun z : Scope => z.block.id) hy :)
      rw [hs, hs', Option.any_some, Option.any_some, hid]
  unfold Builder.openFor
  rw [h.stack, hblock]

theorem openings (h : Even b b') : b'.openings = b.openings := by
  have hlasting (b : Builder) :
      b.openings = (b.scopes.map Scope.lasting).toList.map Scope.opening := by
    rw [Array.toList_map, List.map_map]
    rfl
  rw [hlasting b', hlasting b, h.scopes.map_eq]

/-! ## Changing the tables -/

/-- A change of a scope that does not depend on what is settled. -/
theorem modifyScope (h : Even b b') (s : Nat) (f : Scope → Scope)
    (hf : ∀ y, (f y).lasting = (f y.lasting).lasting) :
    Even (b.modifyScope s f) (b'.modifyScope s f) :=
  { h with scopes := h.scopes.modify s fun y y' hy => by rw [hf y, hf y', hy] }

theorem ensure (h : Even b b') (B : Bindings) (s : Nat) (name : String) :
    Even (b.ensure B s name).1 (b'.ensure B s name).1 ∧
      (b'.ensure B s name).2.1 = (b.ensure B s name).2.1 ∧
      (b'.ensure B s name).2.2 = (b.ensure B s name).2.2 := by
  unfold Builder.ensure
  cases B.find? name with
  | some v => exact ⟨h, rfl, rfl⟩
  | none =>
    dsimp only
    rw [h.vars.size_eq]
    exact ⟨{ h with vars := h.vars.push rfl }, rfl, rfl⟩

theorem define (h : Even b b') (v : Nat) (d : Definition) :
    Even (b.define v d) (b'.define v d) where
  scopes s := by
    rw [scopes_define, scopes_define]
    exact h.scopes s
  references := by
    rw [references_define, references_define]
    exact h.references
  vars := by
    rw [vars_define, vars_define]
    refine h.vars.modify v fun x x' hx => ?_
    exact congrArg (fun z : Variable =>
      { z with defs := z.defs.push d, identifiers := z.identifiers.push d.name }) hx
  stack := by rw [(edited_define b' v d).stack, (edited_define b v d).stack, h.stack]
  sites := by rw [(edited_define b' v d).sites, (edited_define b v d).sites, h.sites]

theorem declareIn (h : Even b b') (s : Nat) (d : Definition) :
    Even (b.declareIn s d) (b'.declareIn s d) := by
  unfold Builder.declareIn
  rcases h.scopes.cases s with ⟨hs, hs'⟩ | ⟨y, y', hs, hs', hy⟩
  · rw [hs, hs']
    exact h
  · have hbindings : y'.bindings = y.bindings := (congrArg Scope.bindings hy :)
    obtain ⟨heven, hB, hv⟩ := h.ensure y.bindings s d.name.name
    rw [hs, hs']
    dsimp only
    rw [hbindings, hB, hv]
    exact (heven.modifyScope s _ fun _ => rfl).define _ d

theorem declareArguments (h : Even b b') (s : Nat) :
    Even (b.declareArguments s) (b'.declareArguments s) := by
  unfold Builder.declareArguments
  rcases h.scopes.cases s with ⟨hs, hs'⟩ | ⟨y, y', hs, hs', hy⟩
  · rw [hs, hs']
    exact h
  · have hbindings : y'.bindings = y.bindings := (congrArg Scope.bindings hy :)
    obtain ⟨heven, hB, -⟩ := h.ensure y.bindings s "arguments"
    rw [hs, hs']
    dsimp only
    rw [hbindings, hB]
    exact heven.modifyScope s _ fun _ => rfl

/-! ## Open scopes -/

theorem pushScope (h : Even b b') {y y' : Scope} (hy : y'.lasting = y.lasting) :
    Even (b.pushScope y) (b'.pushScope y') := by
  have hsize : b'.scopes.size = b.scopes.size := h.scopes.size_eq
  unfold Builder.pushScope current?
  rw [h.stack, hsize]
  cases b.stack.head? with
  | none =>
    exact { h with scopes := h.scopes.push hy, stack := congrArg (b.scopes.size :: ·) h.stack }
  | some upper =>
    have hupper := h.modifyScope upper
      (fun z => { z with children := z.children.push b.scopes.size }) fun _ => rfl
    exact { hupper with
      scopes := hupper.scopes.push hy, stack := congrArg (b.scopes.size :: ·) h.stack }

theorem openScope (h : Even b b') (ho : o'.hasStrictMode = o.hasStrictMode) (kind : ScopeKind)
    (block : Anchor) (strict : Bool) :
    Agree Even (b.openScope o kind block strict) (b'.openScope o' kind block strict) := by
  rw [openScope_eq_bind, openScope_eq_bind, h.current, h.variableScope, h.scopes.size_eq]
  refine (Agree.refl _).bind ?_
  rintro v _ rfl
  have hnew : (b'.newScope o' kind block strict v).lasting =
      (b.newScope o kind block strict v).lasting := by
    unfold newScope current?
    rw [ho, h.isStrict, h.stack]
  split
  · exact .ok ((h.pushScope hnew).declareArguments b.scopes.size)
  · exact .ok (h.pushScope hnew)

/-- Both builders are in the same scope. -/
theorem bind_current (h : Even b b') {f f' : Nat → Except AnalysisError Builder}
    (hf : ∀ s rest, b.stack = s :: rest → Agree Even (f s) (f' s)) :
    Agree Even (b.current >>= f) (b'.current >>= f') := by
  cases hstack : b.stack with
  | nil =>
    rw [current_bind_of_nil hstack, current_bind_of_nil (h.stack.trans hstack)]
    exact .error _
  | cons s rest =>
    rw [current_bind_of_cons hstack, current_bind_of_cons (h.stack.trans hstack)]
    exact hf s rest hstack

theorem refer (h : Even b b') (hb : WellFormed b) (hb' : WellFormed b') (i : Identifier) (use : Use)
    (creator : Option Anchor) : Agree Even (b.refer i use creator) (b'.refer i use creator) := by
  refine h.bind_current fun s rest hstack => ?_
  obtain ⟨y, pending, hs, hpending⟩ := exists_pending hb.layout hstack
  obtain ⟨y', pending', hs', hpending'⟩ := exists_pending hb'.layout (h.stack.trans hstack)
  rw [hs, hs', Option.bind_some, Option.bind_some, hpending, hpending']
  dsimp only
  rw [h.references.size_eq, h.isStrict]
  -- other references may wait in the two scopes, but that does not last
  refine .ok { h with
    scopes := h.scopes.modify s fun z z' hz => ?_
    references := h.references.push rfl }
  exact (congrArg (fun z : Scope =>
    { z with references := z.references.push b.references.size }) hz :)

theorem useThis (h : Even b b') : Agree Even b.useThis b'.useThis := by
  refine h.bind_current fun s rest _ => ?_
  rw [h.variableScope]
  exact .ok (h.modifyScope _ _ fun _ => rfl)

theorem callEval (h : Even b b') : Agree Even b.callEval b'.callEval := by
  refine h.bind_current fun s rest _ => ?_
  rw [h.variableScope, h.stack]
  have hcaller := h.modifyScope (b.variableScope s) (fun z => { z with directEval := true })
    fun _ => rfl
  exact .ok (foldl_rel (fun _ _ h t => h.modifyScope t _ fun _ => rfl) _ hcaller)

/-- Builders stay even as long as no scope is closed. -/
theorem step {a : Action} (h : Even b b') (ho : o'.hasStrictMode = o.hasStrictMode)
    (hb : WellFormed b) (hb' : WellFormed b') (ha : ∀ n, a ≠ .closeScopes n) :
    Agree Even (step o b a) (step o' b' a) := by
  cases a with
  | openScope kind block strict => exact h.openScope ho kind block strict
  | closeScopes n => exact absurd rfl (ha n)
  | beginSite reach =>
    cases reach with
    | innermost =>
      refine h.bind_current fun s rest _ => ?_
      exact .ok { h with sites := congrArg (s :: ·) h.sites }
    | variableScope =>
      refine h.bind_current fun s rest _ => ?_
      rw [h.variableScope]
      exact .ok { h with sites := congrArg (b.variableScope s :: ·) h.sites }
  | endSite => exact .ok { h with sites := congrArg List.tail h.sites }
  | declare d =>
    unfold Builder.step
    rw [h.sites]
    cases b.sites with
    | nil => exact .error _
    | cons s rest => exact .ok (h.declareIn s d)
  | refer i use creator => exact h.refer hb hb' i use creator
  | needScope => exact h.bind_current fun s rest _ => .ok h
  | useThis => exact h.useThis
  | callEval => exact h.callEval
  | refuseImport loc => exact .error _

end Even

/-! ## Closing scopes -/

/-- Only the global scope is given variables when it is closed. -/
theorem kept_closeScope_of_ne_global {y : Scope} (hs : b.scopes[s]? = some y)
    (hkind : y.kind ≠ .global) (h : b.closeScope o s = .ok c) : Kept [] n b c := by
  obtain ⟨y', left, b₁, hs', -, hsettle, rfl⟩ := closeScope_cases h
  cases hs.symm.trans hs'
  have hwaiting : Kept [] n b (b.stopWaiting s) :=
    .modifyScope b s _ (fun _ => rfl) fun _ _ => rfl
  have hkept : Kept [] n b b₁ := hwaiting.trans (kept_settleAll hsettle)
  rw [if_neg hkind]
  exact ⟨hkept.scopes, hkept.implicit, hkept.references, hkept.vars, hkept.le_size⟩

private theorem kept_closeAll_of_ne_global {l : List Nat}
    (hl : ∀ s ∈ l, ∀ y, b.scopes[s]? = some y → y.kind ≠ .global)
    (h : l.foldlM (closeScope o) b = .ok c) : Kept [] n b c := by
  refine foldlM_keeps (P := Kept [] n b) (fun {c c' s} hs hclose hkept => ?_) h (.refl b)
  obtain ⟨y, -, -, hy, -⟩ := closeScope_cases hclose
  refine hkept.trans (kept_closeScope_of_ne_global hy ?_ hclose)
  have hlasting := hkept.scopes s
  rw [hy] at hlasting
  obtain ⟨y₀, hy₀, heq⟩ := Option.map_eq_some_iff.mp hlasting.symm
  have hkind : y₀.kind = y.kind := (congrArg Scope.kind heq :)
  rw [← hkind]
  exact hl s hs y₀ hy₀

/-- The only global scope is the last one to be closed. As long as scopes remain open, nothing makes
variables. -/
theorem kept_closeAll_of_oneGlobal {l : List (ScopeKind × Nat)} {rest : List Nat}
    (hb : WellFormed b) (hone : OneGlobal (b.openings ++ l))
    (hstack : b.stack = b.openFor n ++ rest) (hrest : b.openFor n ≠ [] → rest ≠ [])
    (h : b.closeScopes o n = .ok c) (k : Nat) : Kept [] k b c := by
  refine kept_closeAll_of_ne_global (fun s hs y hy hkind => ?_) h
  have hopening : b.openings[s]? = some (.global, y.block.id) := by
    rw [Analysis.getElem?_openings, hy, ← hkind]
    rfl
  have hzero : s = 0 := by
    refine hone s y.block.id ?_
    rw [List.getElem?_append_left (List.getElem?_eq_some_iff.mp hopening).1, hopening]
  obtain ⟨u, hu⟩ := List.exists_mem_of_ne_nil rest (hrest (List.ne_nil_of_mem hs))
  have hpairwise := hb.layout.pairwise_of_chained hb.layout.chained_stack
  rw [hstack] at hpairwise
  have hlt : s > u := (List.pairwise_append.mp hpairwise).2.2 s hs u hu
  omega

namespace Even

theorem scopes_of_kept {S T : List Nat} {m : Nat} (h : Even b b') (hc : Kept S n b c)
    (hc' : Kept T m b' c') : Rows (fun y y' => y'.lasting = y.lasting) c.scopes c'.scopes :=
  Rows.iff_map.2 fun t => by rw [hc'.scopes, hc.scopes, Rows.iff_map.1 h.scopes t]

theorem references_of_kept {S T : List Nat} {m : Nat} (h : Even b b') (hc : Kept S n b c)
    (hc' : Kept T m b' c') :
    Rows (fun x x' => x'.lasting = x.lasting) c.references c'.references :=
  Rows.iff_map.2 fun r => by rw [hc'.references, hc.references, Rows.iff_map.1 h.references r]

/-- If no variables are made, the builders stay even. -/
theorem kept (h : Even b b') (hc : ∀ n, Kept [] n b c) (hc' : ∀ n, Kept [] n b' c')
    (hstack : c'.stack = c.stack) (hsites : c'.sites = c.sites) : Even c c' where
  scopes := h.scopes_of_kept (hc 0) (hc' 0)
  references := h.references_of_kept (hc 0) (hc' 0)
  vars := Rows.iff_map.2 fun v => by
    rw [(hc' (v + 1)).vars v (Nat.lt_succ_self v), (hc (v + 1)).vars v (Nat.lt_succ_self v),
      Rows.iff_map.1 h.vars v]
  stack := hstack
  sites := hsites

/-- Whatever variables are made, the declared ones are those that have been there. -/
theorem alike_of_kept {S T : List Nat} (h : Even b b') (hb : WellFormed b)
    (hc : Kept S b.vars.size b c) (hc' : Kept T b'.vars.size b' c') :
    c.toAnalysis.Alike c'.toAnalysis where
  scopes := (h.scopes_of_kept hc hc').map_eq
  references := (h.references_of_kept hc hc').map_eq
  vars {name s v} hv := by
    rw [hc.variableIn?] at hv
    obtain ⟨x, hx, -⟩ := hb.variable_eq hv
    have hlt : v < b.vars.size := (Array.getElem?_eq_some_iff.mp hx).1
    have hold := hc.vars v hlt
    have hold' := hc'.vars v (h.vars.size_eq ▸ hlt)
    rw [Rows.iff_map.1 h.vars v, hx] at hold'
    rw [hx] at hold
    obtain ⟨z, hz, hlasting⟩ := Option.map_eq_some_iff.mp hold
    obtain ⟨z', hz', hlasting'⟩ := Option.map_eq_some_iff.mp hold'
    exact ⟨z, z', hz, hz', hlasting'.trans hlasting.symm⟩

end Even

/-! ## Twins -/

/-- The builders are even, or all scopes of both have been closed. -/
inductive Twins (b b' : Builder) : Prop
  | even (h : Even b b') : Twins b b'
  | ended (h : b.toAnalysis.Alike b'.toAnalysis) (hstack : b.stack = []) (hstack' : b'.stack = [])
      (hsize : b.scopes.size ≠ 0) : Twins b b'

theorem Twins.alike (h : Twins b b') (hb : WellFormed b) : b.toAnalysis.Alike b'.toAnalysis := by
  cases h with
  | even h => exact h.alike_of_kept hb (.refl b : Kept [] _ b b) (.refl b' : Kept [] _ b' b')
  | ended h => exact h

/-- When scopes are closed, even builders stay even, unless these are the last ones. -/
theorem Even.closeScopes {l : List (ScopeKind × Nat)} (h : Even b b') (hb : Sound b)
    (hb' : Sound b') (hone : OneGlobal (b.openings ++ l)) (n : Nat) :
    Agree Twins (b.closeScopes o n) (b'.closeScopes o' n) := by
  have hopenFor := h.openFor n
  obtain ⟨rest, hstack⟩ : ∃ rest, b.stack = b.openFor n ++ rest :=
    ⟨_, (openFor_append hb.wellFormed n).symm⟩
  have hstack' : b'.stack = b'.openFor n ++ rest := by rw [h.stack, hopenFor, hstack]
  obtain ⟨c, hc, -, houtline⟩ := closeAll_spec o True hb.wellFormed hstack
  obtain ⟨c', hc', -, houtline'⟩ := closeAll_spec o' True hb'.wellFormed hstack'
  have hrest : c.stack = rest := congrArg Outline.stack houtline
  have hrest' : c'.stack = rest := congrArg Outline.stack houtline'
  have hsites : c'.sites = c.sites :=
    (congrArg Outline.sites houtline').trans (h.sites.trans (congrArg Outline.sites houtline).symm)
  unfold Builder.closeScopes
  rw [hc, hc']
  refine .ok ?_
  by_cases hlast : b.openFor n ≠ [] → rest ≠ []
  · have hlast' : b'.openFor n ≠ [] → rest ≠ [] := by rwa [hopenFor]
    have hone' : OneGlobal (b'.openings ++ l) := by rwa [h.openings]
    exact .even (h.kept (kept_closeAll_of_oneGlobal hb.wellFormed hone hstack hlast hc)
      (kept_closeAll_of_oneGlobal hb'.wellFormed hone' hstack' hlast' hc')
      (hrest'.trans hrest.symm) hsites)
  · push Not at hlast
    obtain ⟨hne, hnil⟩ := hlast
    have hkept := (kept_closeAll hb.wellFormed hb.unsettled hstack hc).1
    have hkept' := (kept_closeAll hb'.wellFormed hb'.unsettled hstack' hc').1
    refine .ended (h.alike_of_kept hb.wellFormed hkept hkept') (hrest.trans hnil)
      (hrest'.trans hnil) ?_
    have hsize : c.scopes.size = b.scopes.size := congrArg Outline.size houtline
    obtain ⟨s, hs⟩ := List.exists_mem_of_ne_nil _ hne
    have hlt : s < b.scopes.size :=
      hb.wellFormed.layout.stack_lt (hstack ▸ List.mem_append_left rest hs)
    omega

private theorem closeScopes_of_nil (hstack : b.stack = []) (o : Options) (n : Nat) :
    b.closeScopes o n = .ok b := by
  unfold closeScopes openFor
  rw [hstack]
  rfl

namespace Twins

/-- An action that finds what it needs keeps twins what they are. -/
theorem step {l : List (ScopeKind × Nat)} {a : Action} (h : Twins b b')
    (ho : o'.hasStrictMode = o.hasStrictMode) (hb : Sound b) (hb' : Sound b')
    (hpermits : b.outline.Permits a) (hone : OneGlobal (b.openings ++ l)) :
    Agree Twins (step o b a) (step o' b' a) := by
  cases h with
  | even h =>
    by_cases ha : ∃ n, a = .closeScopes n
    · obtain ⟨n, rfl⟩ := ha
      exact h.closeScopes hb hb' hone n
    · exact (h.step ho hb.wellFormed hb'.wellFormed fun n hn => ha ⟨n, hn⟩).mono fun _ _ => .even
  | ended h hstack hstack' hsize =>
    cases a with
    | closeScopes n =>
      show Agree Twins (b.closeScopes o n) (b'.closeScopes o' n)
      rw [closeScopes_of_nil hstack, closeScopes_of_nil hstack']
      exact .ok (.ended h hstack hstack' hsize)
    | endSite => exact .ok (.ended h hstack hstack' hsize)
    | refuseImport loc => exact .error _
    | openScope kind block strict => exact absurd (hpermits.1 hstack).1 hsize
    | declare d =>
      obtain ⟨s, -, hs : s ∈ b.stack⟩ := hpermits
      rw [hstack] at hs
      cases hs
    | beginSite | refer | needScope | useThis | callEval => exact absurd hstack hpermits

/-- Twins stay twins as long as every action finds what it needs. -/
theorem run {A : List Action} (h : Twins b b') (ho : o'.hasStrictMode = o.hasStrictMode)
    (hb : Sound b) (hb' : Sound b') (horderly : b.outline.Orderly A)
    (hone : OneGlobal (b.openings ++ A.flatMap Action.openings)) :
    Agree Twins (run o b A) (run o' b' A) := by
  induction A generalizing b b' with
  | nil => exact .ok h
  | cons a A ih =>
    rw [run_cons, run_cons]
    refine (h.step ho hb hb' horderly.1 hone).bind_of_ok fun c c' hc hc' htwins => ?_
    obtain ⟨heffect, hsound⟩ := hb.step hc
    have hspec := step_spec o hb.wellFormed a
    rw [hc] at hspec
    cases hspec with
    | done hstepped =>
      refine ih htwins hsound (hb'.step hc').2 (horderly.2 _ hstepped.outline) ?_
      rwa [heffect.openings, List.append_assoc, ← List.flatMap_cons]

end Twins

end Builder

end EcmaScope
