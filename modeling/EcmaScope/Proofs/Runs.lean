import EcmaScope.Proofs.Balance
import EcmaScope.Proofs.Closing
import Mathlib.Logic.Relation

/-!
# Runs of the builder

Every action is carried out by moves: a scope is opened, a reference is made, a scope is closed, or
neither scopes nor references come or go. What is true of the tables after every move is true after
every run.

An action fails if it is an import that is not allowed, or if it needs an open scope and there is
none. It never fails because a scope has been closed too early.

## Main definitions

* `Builder.outline`: the outline of a builder.
* `Builder.WellFormed`: what is true of the tables after every run.
* `Builder.Move`, `Builder.Moves`: the moves that make up actions and runs.

## Main results

* `Builder.step_spec`: what an action does, and when it fails.
* `Builder.run_spec`: the same for actions one after the other.
* `Program.analyze_spec`: the same for programs.
-/

namespace EcmaScope

/-! ## Well-formed tables -/

/-- From a scope outwards to the one that binds what `var` declares inside. -/
theorem Layout.variableScope_induction {frame? : Nat → Option Frame} {size : Nat}
    {stack : List Nat} {owned : Nat → List Nat} (h : Layout frame? size stack owned)
    {P : Nat → Frame → Prop}
    (hself : ∀ {s f}, frame? s = some f → f.kind.isVariableScope = true → f.variableScope = s →
      P s f)
    (hupper : ∀ {s f u g}, frame? s = some f → f.kind.isVariableScope = false →
      frame? u = some g → f.enclosing = u :: g.enclosing → f.variableScope = g.variableScope →
      P u g → P s f)
    {s : Nat} {f : Frame} (hf : frame? s = some f) : P s f := by
  induction s using Nat.strongRecOn generalizing f with
  | ind s ih =>
    cases hkind : f.kind.isVariableScope with
    | true => exact hself hf hkind (h.variableScope_self hf hkind)
    | false =>
      obtain ⟨u, g, hu, hg, hvar⟩ := h.variableScope_upper hf hkind
      obtain ⟨rest, hrest⟩ := List.head?_eq_some_iff.mp hu
      have hlt : u < s := h.enclosing_lt hf u (List.mem_of_head? hu)
      have hchained := h.chained_enclosing hf
      rw [hrest] at hchained
      rw [← hchained.enclosing_eq hg] at hrest
      exact hupper hf hkind hg hrest hvar (ih u hlt hg)

/-- What `var` declares inside a scope is bound by the scope or by a scope around it. -/
theorem Layout.variableScope_mem {frame? : Nat → Option Frame} {size : Nat} {stack : List Nat}
    {owned : Nat → List Nat} (h : Layout frame? size stack owned) {s : Nat} {f : Frame}
    (hf : frame? s = some f) : f.variableScope ∈ s :: f.enclosing := by
  refine h.variableScope_induction (P := fun s f => f.variableScope ∈ s :: f.enclosing)
    (fun _ _ hvar => ?_) (fun _ _ _ henclosing hvar ih => ?_) hf
  · rw [hvar]
    exact List.mem_cons_self
  · rw [hvar, henclosing]
    exact List.mem_cons_of_mem _ ih

namespace Builder

variable {b b' b'' : Builder}

private theorem size_eq_of_layout {size : Nat} {stack : List Nat} {owned : Nat → List Nat}
    (h : Layout b.frame? size stack owned) : size = b.scopes.size := by
  have hiff (t : Nat) : t < size ↔ t < b.scopes.size := by rw [h.lt_size_iff, frame?_isSome]
  have hle := (hiff size).not
  have hge := (hiff b.scopes.size).not
  omega

private theorem Quiet.layout {T : List Nat} (h : Quiet T b b')
    (hb : Layout b.frame? b.scopes.size b.stack b.scopesOf) :
    Layout b'.frame? b.scopes.size b'.stack b'.scopesOf := by
  rwa [h.frame?, h.stack, scopesOf_eq h.owned]

private theorem Referred.layout {x : Reference} (h : Referred x b b')
    (hb : Layout b.frame? b.scopes.size b.stack b.scopesOf) :
    Layout b'.frame? b.scopes.size b'.stack b'.scopesOf := by
  rwa [h.frame?, h.stack, scopesOf_eq h.owned]

private theorem Opened.layout {g : Frame} (h : Opened g b b')
    (hb : Layout b.frame? b.scopes.size b.stack b.scopesOf) :
    Layout b'.frame? (b.scopes.size + 1) b'.stack b'.scopesOf := by
  have hscopes : b'.scopesOf = fun n =>
      b.scopesOf n ++ if g.block.id = n then [b.scopes.size] else [] := funext h.scopesOf
  rw [h.frame?, h.stack, hscopes]
  exact hb.push h.enclosing h.isOpen h.children h.variableScope_self h.variableScope_upper

private theorem Closed.layout {optimistic : Bool} {s : Nat} (h : Closed optimistic s b b')
    (hb : Layout b.frame? b.scopes.size b.stack b.scopesOf) :
    Layout b'.frame? b.scopes.size b'.stack b'.scopesOf := by
  rw [h.stack] at hb
  rw [h.frame?, scopesOf_eq h.owned]
  exact hb.close

/-- What is true of the tables, whatever has been done. -/
structure WellFormed (b : Builder) : Prop where
  layout : Layout b.frame? b.scopes.size b.stack b.scopesOf
  pending_lt : ∀ t, ∀ r ∈ b.pendingOf t, r < b.references.size
  through_lt : ∀ t, ∀ r ∈ b.throughOf t, r < b.references.size
  /-- What a scope binds under a name is a variable of the scope with that name. -/
  variable_eq : ∀ {name t v}, b.variableIn? name t = some v →
    ∃ x : Variable, b.vars[v]? = some x ∧ x.scope = t ∧ x.name = name

namespace WellFormed

theorem of_layout (size : Nat) (hlayout : Layout b.frame? size b.stack b.scopesOf)
    (hpending : ∀ t, ∀ r ∈ b.pendingOf t, r < b.references.size)
    (hthrough : ∀ t, ∀ r ∈ b.throughOf t, r < b.references.size)
    (hvariable : ∀ {name t v}, b.variableIn? name t = some v →
      ∃ x : Variable, b.vars[v]? = some x ∧ x.scope = t ∧ x.name = name) : WellFormed b := by
  refine ⟨?_, hpending, hthrough, hvariable⟩
  rwa [size_eq_of_layout hlayout] at hlayout

theorem empty : WellFormed {} where
  layout := by
    have hframe : ({} : Builder).frame? = fun _ => none := by
      funext t
      simp [Analysis.frame?]
    rw [hframe]
    exact Layout.empty
  pending_lt t r hr := by simp [Analysis.pendingOf] at hr
  through_lt t r hr := by simp [Analysis.throughOf] at hr
  variable_eq h := by simp [Analysis.variableIn?] at h

/-- Variables stay what they are. -/
theorem keepsVariables (hb : WellFormed b) (h : b.KeepsVariables b') {name : String} {t v : Nat}
    (hv : b.variableIn? name t = some v) :
    ∃ x : Variable, b'.vars[v]? = some x ∧ x.scope = t ∧ x.name = name := by
  obtain ⟨x, hx, hscope, hname⟩ := hb.variable_eq hv
  obtain ⟨x', hx', hscope', hname'⟩ := h v x hx
  exact ⟨x', hx', hscope'.trans hscope, hname'.trans hname⟩

theorem quiet {T : List Nat} (hb : WellFormed b) (h : Quiet T b b') : WellFormed b' := by
  refine of_layout b.scopes.size ?_ ?_ ?_ ?_
  · exact h.layout hb.layout
  · rw [h.pendingOf, h.references]
    exact hb.pending_lt
  · rw [h.throughOf, h.references]
    exact hb.through_lt
  · intro name t v hv
    rcases h.variableIn? hv with hold | hnew
    · exact hb.keepsVariables h.vars hold
    · exact hnew

theorem opened {g : Frame} (hb : WellFormed b) (h : Opened g b b') : WellFormed b' := by
  refine of_layout (b.scopes.size + 1) ?_ ?_ ?_ ?_
  · exact h.layout hb.layout
  · rw [h.pendingOf, h.references]
    exact hb.pending_lt
  · rw [h.throughOf, h.references]
    exact hb.through_lt
  · intro name t v hv
    rw [h.variableIn?] at hv
    exact hb.keepsVariables h.vars hv

theorem referred {x : Reference} (hb : WellFormed b) (h : Referred x b b') : WellFormed b' := by
  refine of_layout b.scopes.size ?_ ?_ ?_ ?_
  · exact h.layout hb.layout
  · intro t r hr
    rw [h.references, Array.size_push]
    rw [h.pendingOf] at hr
    rcases List.mem_append.mp hr with hr | hr
    · exact Nat.lt_succ_of_lt (hb.pending_lt t r hr)
    · split at hr
      · rw [List.mem_singleton.mp hr]
        exact Nat.lt_succ_self _
      · cases hr
  · rw [h.throughOf, h.references, Array.size_push]
    exact fun t r hr => Nat.lt_succ_of_lt (hb.through_lt t r hr)
  · intro name t v hv
    rw [h.variableIn?] at hv
    exact hb.keepsVariables h.vars hv

theorem closed {optimistic : Bool} {s : Nat} (hb : WellFormed b) (h : Closed optimistic s b b') :
    WellFormed b' := by
  have hsize : b'.references.size = b.references.size := size_eq_of_getElem?_map h.references
  refine of_layout b.scopes.size ?_ ?_ ?_ ?_
  · exact h.layout hb.layout
  · intro t r hr
    rw [h.pendingOf] at hr
    rw [hsize]
    rcases List.mem_append.mp hr with hr | hr
    · split at hr
      · cases hr
      · exact hb.pending_lt t r hr
    · exact hb.pending_lt s r (List.mem_filter.mp hr).1
  · intro t r hr
    rw [h.throughOf] at hr
    rw [hsize]
    rcases List.mem_append.mp hr with hr | hr
    · exact hb.through_lt t r hr
    · exact hb.pending_lt s r (List.mem_filter.mp hr).1
  · intro name t v hv
    rw [h.variableIn?] at hv
    exact hb.keepsVariables h.vars hv

end WellFormed

/-! ## Moves -/

/-- The outline of a builder. -/
def outline (b : Builder) : Outline :=
  ⟨b.scopes.size, b.stack, b.sites, b.scopesOf⟩

theorem WellFormed.outline_quiet {T : List Nat} (hb : WellFormed b) (h : Quiet T b b') :
    b'.outline = b.outline := by
  rw [outline, outline, ← size_eq_of_layout (h.layout hb.layout), h.stack, h.sites,
    scopesOf_eq h.owned]

theorem WellFormed.outline_referred {x : Reference} (hb : WellFormed b) (h : Referred x b b') :
    b'.outline = b.outline := by
  rw [outline, outline, ← size_eq_of_layout (h.layout hb.layout), h.stack, h.sites,
    scopesOf_eq h.owned]

theorem WellFormed.outline_closed {optimistic : Bool} {s : Nat} (hb : WellFormed b)
    (h : Closed optimistic s b b') : b'.outline = { b.outline with stack := b'.stack } := by
  rw [outline, outline, ← size_eq_of_layout (h.layout hb.layout), h.sites, scopesOf_eq h.owned]

theorem WellFormed.outline_opened {g : Frame} (hb : WellFormed b) (h : Opened g b b') :
    b'.outline =
      { b.outline with
        size := b.outline.size + 1
        stack := b.outline.size :: b.outline.stack
        scopesOf := fun n =>
          b.outline.scopesOf n ++ if g.block.id = n then [b.outline.size] else [] } := by
  rw [outline, ← size_eq_of_layout (h.layout hb.layout), h.stack, h.sites]
  congr 1
  exact funext h.scopesOf

/-- The moves of the builder. If things are `orderly`, scopes are opened inside each other, and no
closed scope changes what it says of names. -/
inductive Move (o : Options) (orderly : Prop) (b b' : Builder) : Prop
  | opened {g : Frame} (h : Opened g b b') (hempty : orderly → b.stack = [] → b.scopes.size = 0)
      (hlast : orderly → ∀ t, (b.scopesOf g.block.id).getLast? = some t → b.stack.head? = some t)
  | referred {x : Reference} (h : Referred x b b')
  | closed {s : Nat} (h : Closed o.optimistic s b b')
  | quiet {T : List Nat} (h : Quiet T b b') (hT : orderly → ∀ t ∈ T, t ∈ b.stack)
  | sited (sites : List Nat) (h : b' = { b with sites := sites })

/-- Moves one after the other. -/
def Moves (o : Options) (orderly : Prop) : Builder → Builder → Prop :=
  Relation.ReflTransGen (Move o orderly)

variable {o : Options} {orderly : Prop}

private theorem Move.wellFormed (h : Move o orderly b b') (hb : WellFormed b) : WellFormed b' := by
  cases h with
  | opened h => exact hb.opened h
  | referred h => exact hb.referred h
  | closed h => exact hb.closed h
  | quiet h => exact hb.quiet h
  | sited sites h =>
    subst h
    exact ⟨hb.layout, hb.pending_lt, hb.through_lt, hb.variable_eq⟩

theorem Moves.wellFormed (h : Moves o orderly b b') (hb : WellFormed b) : WellFormed b' := by
  induction h with
  | refl => exact hb
  | tail _ hmove ih => exact hmove.wellFormed ih

/-- Moves that are orderly under a condition are so under a stronger one. -/
private theorem Move.mono {orderly' : Prop} (h : Move o orderly b b') (hle : orderly' → orderly) :
    Move o orderly' b b' := by
  cases h with
  | opened h hempty hlast => exact .opened h (fun ho => hempty (hle ho)) fun ho => hlast (hle ho)
  | referred h => exact .referred h
  | closed h => exact .closed h
  | quiet h hT => exact .quiet h fun ho => hT (hle ho)
  | sited sites h => exact .sited sites h

theorem Moves.mono {orderly' : Prop} (h : Moves o orderly b b') (hle : orderly' → orderly) :
    Moves o orderly' b b' := by
  induction h with
  | refl => exact .refl
  | tail _ hmove ih => exact .tail ih (hmove.mono hle)

/-! ## Closing the scopes of a node -/

theorem mem_scopesOf_iff (hb : WellFormed b) (s n : Nat) :
    s ∈ b.scopesOf n ↔ ∃ f, b.frame? s = some f ∧ f.block.id = n := by
  rw [hb.layout.owned_eq, List.mem_filter, List.mem_range, Option.any_eq_true]
  constructor
  · rintro ⟨-, f, hf, hn⟩
    exact ⟨f, hf, of_decide_eq_true hn⟩
  · rintro ⟨f, hf, hn⟩
    exact ⟨hb.layout.lt_size hf, f, hf, decide_eq_true hn⟩

/-- The stack is split by what is closed for a node. -/
theorem openFor_append (hb : WellFormed b) (n : Nat) :
    b.openFor n ++ b.stack.dropWhile (· ∈ b.scopesOf n) = b.stack := by
  have hsame : (fun s => b.scopes[s]?.any (·.block.id = n)) =
      fun s => decide (s ∈ b.scopesOf n) := by
    funext s
    rw [Bool.eq_iff_iff, decide_eq_true_iff, mem_scopesOf_iff hb, Option.any_eq_true]
    constructor
    · rintro ⟨y, hy, hn⟩
      exact ⟨_, Analysis.frame?_of_getElem? hy, of_decide_eq_true hn⟩
    · rintro ⟨f, hf, hn⟩
      obtain ⟨y, hy, rfl⟩ := Analysis.frame?_eq_some hf
      exact ⟨y, hy, decide_eq_true hn⟩
  rw [openFor, hsame]
  exact List.takeWhile_append_dropWhile

/-- Scopes at the top of the stack can be closed one after the other. -/
theorem closeAll_spec (o : Options) (orderly : Prop) {l rest : List Nat} (hb : WellFormed b)
    (hstack : b.stack = l ++ rest) :
    ∃ b', l.foldlM (closeScope o) b = .ok b' ∧ Moves o orderly b b' ∧
      b'.outline = { b.outline with stack := rest } := by
  induction l generalizing b with
  | nil =>
    refine ⟨b, rfl, .refl, ?_⟩
    rw [outline, hstack]
    rfl
  | cons s l ih =>
    obtain ⟨b₁, hb₁, hclosed⟩ := closeScope_spec hb.layout hstack (hb.pending_lt s)
    obtain ⟨b', hb', hmoves, houtline⟩ := ih (hb.closed hclosed) (hclosed.stack_eq hstack)
    refine ⟨b', ?_, .head (.closed hclosed) hmoves, ?_⟩
    · rw [List.foldlM_cons, hb₁]
      exact hb'
    · rw [houtline, hb.outline_closed hclosed]

/-- Closing scopes at the top of the stack keeps what closing each of them keeps. -/
theorem closeAll_keeps {P : Builder → Prop} {l rest : List Nat}
    (hclose : ∀ {b b' : Builder} {s : Nat}, s ∈ l → WellFormed b → Closed o.optimistic s b b' →
      b.closeScope o s = .ok b' → P b → P b')
    (hb : WellFormed b) (hstack : b.stack = l ++ rest) (h : l.foldlM (closeScope o) b = .ok b')
    (hP : P b) : P b' := by
  induction l generalizing b with
  | nil =>
    cases h
    exact hP
  | cons s l ih =>
    obtain ⟨b₁, hb₁, hclosed⟩ := closeScope_spec hb.layout hstack (hb.pending_lt s)
    rw [List.foldlM_cons, hb₁] at h
    exact ih (fun hs => hclose (List.mem_cons_of_mem s hs)) (hb.closed hclosed)
      (hclosed.stack_eq hstack) h (hclose List.mem_cons_self hb hclosed hb₁ hP)

/-! ## Actions -/

/-- What may come of actions: what they are meant to do, or an import that is not allowed, or, if
they are not `permitted`, the lack of an open scope. -/
inductive Outcome (permitted : Prop) (done : Builder → Prop) : Except AnalysisError Builder → Prop
  | done {b : Builder} (h : done b) : Outcome permitted done (.ok b)
  | refused (loc : Loc) : Outcome permitted done (.error (.importOutsideModule loc))
  | lacking (h : ¬ permitted) : Outcome permitted done (.error .noOpenScope)

/-- An action has been carried out. -/
structure Stepped (o : Options) (a : Action) (b b' : Builder) : Prop where
  moves : Moves o (b.outline.Permits a) b b'
  outline : Outline.Step b.outline a b'.outline

theorem WellFormed.stepped_quiet {T : List Nat} {a : Action} (hb : WellFormed b)
    (h : Quiet T b b') (hT : b.outline.Permits a → ∀ t ∈ T, t ∈ b.stack)
    (ha : Outline.Step b.outline a b.outline) : Stepped o a b b' :=
  ⟨.single (.quiet h hT), by rwa [hb.outline_quiet h]⟩

/-- What needs an open scope fails only for the lack of one. -/
theorem outcome_of_stack {permitted : Prop} {done : Builder → Prop}
    {x : Except AnalysisError Builder} (hpermitted : permitted → b.stack ≠ [])
    (hnil : b.stack = [] → x = .error .noOpenScope)
    (hcons : ∀ s rest, b.stack = s :: rest → ∃ b', x = .ok b' ∧ done b') :
    Outcome permitted done x := by
  cases hstack : b.stack with
  | nil =>
    rw [hnil hstack]
    exact .lacking fun hp => hpermitted hp hstack
  | cons s rest =>
    obtain ⟨b', hb', hdone⟩ := hcons s rest hstack
    rw [hb']
    exact .done hdone

theorem current_bind_of_nil {α : Type} (h : b.stack = []) (f : Nat → Except AnalysisError α) :
    b.current >>= f = .error .noOpenScope := by
  rw [current_of_stack_nil h]
  rfl

theorem current_bind_of_cons {α : Type} {s : Nat} {rest : List Nat} (h : b.stack = s :: rest)
    (f : Nat → Except AnalysisError α) : b.current >>= f = f s := by
  rw [current_of_stack h]
  rfl

theorem WellFormed.variableScope_mem (hb : WellFormed b) {s : Nat} {rest : List Nat}
    (hstack : b.stack = s :: rest) : b.variableScope s ∈ b.stack := by
  have hchained := hb.layout.chained_stack
  rw [hstack] at hchained ⊢
  obtain ⟨f, hf, henclosing⟩ := hchained.frame
  obtain ⟨y, hy, rfl⟩ := Analysis.frame?_eq_some hf
  rw [variableScope, hy, ← henclosing]
  exact hb.layout.variableScope_mem hf

/-- What an action does, and when it fails. -/
theorem step_spec (o : Options) (hb : WellFormed b) (a : Action) :
    Outcome (b.outline.Permits a) (Stepped o a b) (step o b a) := by
  cases a with
  | openScope kind block strict =>
    have hsome : ∀ u ∈ b.stack, (b.frame? u).isSome := fun u hu =>
      (hb.layout.lt_size_iff u).mp (hb.layout.stack_lt hu)
    rcases openScope_spec o hsome kind block strict with ⟨hnil, hkind, herror⟩ |
      ⟨g, b₁, b', rfl, rfl, hok, hopened, hquiet⟩
    · rw [step, herror]
      refine .lacking fun hp => ?_
      rw [(hp.1 hnil).2] at hkind
      cases hkind
    · rw [step, hok]
      refine .done ⟨.tail (.single (.opened hopened ?_ ?_)) (.quiet hquiet ?_), ?_⟩
      · exact fun hp hnil => (hp.1 hnil).1
      · exact fun hp => hp.2
      · intro _ t ht
        rw [List.mem_singleton.mp ht, hopened.stack]
        exact List.mem_cons_self
      · rw [(hb.opened hopened).outline_quiet hquiet, hb.outline_opened hopened]
        exact .openScope b.outline g.kind g.block strict
  | closeScopes n =>
    obtain ⟨b', hb', hmoves, houtline⟩ := closeAll_spec o (b.outline.Permits (.closeScopes n)) hb
      (openFor_append hb n).symm
    rw [step, closeScopes, hb']
    refine .done ⟨hmoves, ?_⟩
    rw [houtline]
    exact .closeScopes b.outline n
  | beginSite reach =>
    cases reach with
    | innermost =>
      refine outcome_of_stack id (fun h => current_bind_of_nil h _) fun s rest hstack =>
        ⟨_, current_bind_of_cons hstack _, .single (.sited _ rfl), ?_⟩
      have hs : s ∈ b.stack := List.mem_of_head? (by rw [hstack]; rfl)
      exact .beginSite b.outline _ hs
    | variableScope =>
      refine outcome_of_stack id (fun h => current_bind_of_nil h _) fun s rest hstack =>
        ⟨_, current_bind_of_cons hstack _, .single (.sited _ rfl), ?_⟩
      exact .beginSite b.outline _ (hb.variableScope_mem hstack)
  | endSite => exact .done ⟨.single (.sited _ rfl), .endSite b.outline⟩
  | declare d =>
    rw [step]
    cases hsites : b.sites with
    | nil =>
      refine .lacking ?_
      rintro ⟨s, hs, -⟩
      rw [outline, hsites] at hs
      cases hs
    | cons s rest =>
      refine .done (hb.stepped_quiet (quiet_declareIn b s d) ?_ (.declare b.outline d))
      rintro ⟨t, ht, hmem⟩ u hu
      rw [outline, hsites] at ht
      cases ht
      rwa [List.mem_singleton.mp hu]
  | refer identifier use creator =>
    refine outcome_of_stack id (fun h => current_bind_of_nil h _) fun s rest hstack => ?_
    obtain ⟨scope, pending, hs, hpending⟩ := exists_pending hb.layout hstack
    obtain ⟨b', hb', hreferences, -, hedited⟩ :=
      refer_of_stack hstack hs hpending identifier use creator
    have hreferred := referred_of_edited hedited hstack hs hpending rfl rfl rfl hreferences
    refine ⟨b', hb', .single (.referred hreferred), ?_⟩
    rw [hb.outline_referred hreferred]
    exact .plain b.outline rfl
  | needScope =>
    refine outcome_of_stack id (fun h => current_bind_of_nil h _) fun s rest hstack =>
      ⟨b, current_bind_of_cons hstack _, .refl, ?_⟩
    exact .plain b.outline rfl
  | useThis =>
    refine outcome_of_stack id (fun h => current_bind_of_nil h _) fun s rest hstack =>
      ⟨_, useThis_of_stack hstack, ?_⟩
    refine hb.stepped_quiet (quiet_useThis [] b _) (fun _ t ht => ?_) (.plain b.outline rfl)
    cases ht
  | callEval =>
    refine outcome_of_stack id (fun h => current_bind_of_nil h _) fun s rest hstack => ?_
    have hnodup := hb.layout.nodup_of_chained hb.layout.chained_stack
    obtain ⟨b', hb', hreferences, -, hedited⟩ := callEval_of_stack hstack hnodup
    refine ⟨b', hb', hb.stepped_quiet (quiet_evalEdit hedited hreferences) (fun _ t ht => ?_)
      (.plain b.outline rfl)⟩
    exact (List.dropWhile_sublist _).subset ht
  | refuseImport loc => exact .refused loc

/-! ## Runs -/

/-- Actions have been carried out one after the other. -/
structure Ran (o : Options) (A : List Action) (b b' : Builder) : Prop where
  moves : Moves o (b.outline.Orderly A) b b'
  outline : Outline.Run b.outline A b'.outline

/-- What actions do one after the other, and when they fail. -/
theorem run_spec (o : Options) (hb : WellFormed b) (A : List Action) :
    Outcome (b.outline.Orderly A) (Ran o A b) (run o b A) := by
  induction A generalizing b with
  | nil => exact .done ⟨.refl, .nil b.outline⟩
  | cons a A ih =>
    have hrun : run o b (a :: A) = step o b a >>= fun b' => run o b' A := List.foldlM_cons
    rw [hrun]
    have hstep := step_spec o hb a
    generalize step o b a = x at hstep
    cases hstep with
    | refused loc => exact .refused loc
    | lacking h => exact .lacking fun horderly => h horderly.1
    | @done b₁ hfirst =>
      have hrest := ih (hfirst.moves.wellFormed hb)
      change Outcome _ _ (run o b₁ A)
      generalize run o b₁ A = y at hrest
      cases hrest with
      | refused loc => exact .refused loc
      | lacking h => exact .lacking fun horderly => h (horderly.2 _ hfirst.outline)
      | done hrest =>
        refine .done ⟨(hfirst.moves.mono ?_).trans (hrest.moves.mono ?_), .cons hfirst.outline
          hrest.outline⟩
        · exact fun horderly => horderly.1
        · exact fun horderly => horderly.2 _ hfirst.outline

/-- A scope may be given children and be closed; nothing else in its frame changes. -/
private theorem Move.exists_frame (h : Move o orderly b b') (hb : WellFormed b) {t : Nat}
    {f : Frame} (hf : b.frame? t = some f) :
    ∃ children isOpen, b'.frame? t = some { f with children := children, isOpen := isOpen } := by
  cases h with
  | opened h => exact ⟨_, _, (congrFun h.frame? t).trans (hb.layout.pushed_of_eq_some hf)⟩
  | referred h => exact ⟨_, _, by rw [h.frame?, hf]⟩
  | closed h => exact ⟨_, _, (congrFun h.frame? t).trans (Layout.closed_of_eq_some hf)⟩
  | quiet h => exact ⟨_, _, by rw [h.frame?, hf]⟩
  | sited sites h =>
    subst h
    exact ⟨_, _, hf⟩

theorem Moves.exists_frame (h : Moves o orderly b b') (hb : WellFormed b) {t : Nat} {f : Frame}
    (hf : b.frame? t = some f) :
    ∃ children isOpen, b'.frame? t = some { f with children := children, isOpen := isOpen } := by
  induction h with
  | refl => exact ⟨_, _, hf⟩
  | tail hmoves hmove ih =>
    obtain ⟨_, _, hf₁⟩ := ih
    obtain ⟨children, isOpen, hf'⟩ := hmove.exists_frame (Moves.wellFormed hmoves hb) hf₁
    exact ⟨children, isOpen, hf'⟩

/-- The scope that is opened first has number zero. -/
theorem exists_frame_zero {kind : ScopeKind} {block : Anchor} {strict : Bool} {A : List Action}
    (h : run o {} (.openScope kind block strict :: A) = .ok b) :
    ∃ f, b.frame? 0 = some f ∧ f.kind = kind := by
  have hrun : run o {} (.openScope kind block strict :: A) =
      openScope o {} kind block strict >>= fun b' => run o b' A := List.foldlM_cons
  rw [hrun] at h
  rcases openScope_spec (b := {}) o (fun u hu => by cases hu) kind block strict with
    ⟨-, -, herror⟩ | ⟨g, b₁, b₂, rfl, rfl, hok, hopened, hquiet⟩
  · rw [herror] at h
    cases h
  · have hb₁ : WellFormed b₁ := WellFormed.empty.opened hopened
    have hzero : b₂.frame? 0 = some g := by
      rw [hquiet.frame?, hopened.frame?]
      exact Layout.pushed_size _ _ _ g
    rw [hok] at h
    change run o b₂ A = .ok b at h
    have hrest := run_spec o (hb₁.quiet hquiet) A
    rw [h] at hrest
    cases hrest with
    | done hran =>
      obtain ⟨children, isOpen, hf⟩ := hran.moves.exists_frame (hb₁.quiet hquiet) hzero
      exact ⟨_, hf, rfl⟩

end Builder

/-! ## Programs -/

/-- What is known of a builder that has carried out all actions of a program. -/
structure Builder.Finished (o : Options) (orderly : Prop) (b : Builder) : Prop where
  wellFormed : b.WellFormed
  moves : Builder.Moves o orderly {} b
  stack : b.stack = []
  zero : ∃ f, b.frame? 0 = some f ∧ f.kind = .global

/-- What the analysis of a program gives, and when it fails. -/
theorem Program.analyze_spec (o : Options) (p : Program) :
    (∃ b : Builder, Program.analyze o p = .ok b.toAnalysis ∧
        b.Finished o (Tree.ids p).Nodup) ∨
      (∃ loc, Program.analyze o p = .error (.importOutsideModule loc)) ∨
      (Program.analyze o p = .error .noOpenScope ∧ ¬ (Tree.ids p).Nodup) := by
  have hrun := Builder.run_spec o .empty (Program.actions o p)
  unfold Program.analyze
  cases hresult : Builder.run o {} (Program.actions o p) with
  | error e =>
    rw [hresult] at hrun
    cases hrun with
    | refused loc => exact Or.inr (Or.inl ⟨loc, rfl⟩)
    | lacking h => exact Or.inr (Or.inr ⟨rfl, fun hids => h (Program.orderly_actions o hids)⟩)
  | ok b =>
    rw [hresult] at hrun
    cases hrun with
    | done hran =>
      have hstack : b.stack = [] := Program.stack_eq_nil hran.outline
      refine Or.inl ⟨b, ?_, hran.moves.wellFormed .empty, hran.moves.mono ?_, hstack, ?_⟩
      · simp only [bind, Except.bind, hstack]
        rfl
      · exact fun hids => Program.orderly_actions o hids
      · obtain ⟨strict, M, A, hactions, -⟩ := Program.actions_eq o p
        rw [hactions] at hresult
        exact Builder.exists_frame_zero hresult

/-- An analysis that has been given is that of a builder which has carried out all actions. -/
theorem Program.exists_finished {o : Options} {p : Program} {a : Analysis}
    (h : Program.analyze o p = .ok a) :
    ∃ b : Builder, b.toAnalysis = a ∧ b.Finished o (Tree.ids p).Nodup := by
  rcases Program.analyze_spec o p with ⟨b, hb, hfinished⟩ | ⟨loc, herror⟩ | ⟨herror, -⟩
  · rw [h] at hb
    cases hb
    exact ⟨b, rfl, hfinished⟩
  · rw [h] at herror
    cases herror
  · rw [h] at herror
    cases herror

/-- The program `for (let x of function f() { x });` with the numbers that `id` gives to its nodes.
The scope in which the loop's `x` is not initialized, that of the name `f`, and that of the function
all belong to the node `5`. -/
def Program.loopOverFunction (id : Nat → Nat) : Program :=
  let mark (n : Nat) : Mark := ⟨id n, ⟨n, n⟩⟩
  .program (mark 0) (.cons (.iterationStatement .forOf (mark 1)
    (.targetDeclaration (.declaration (mark 2) .letKind
      (.cons (.declarator (mark 3) (.identifierPattern ⟨mark 4, "x"⟩) .absent) .nil)))
    (.functionExpression (.function .expression (mark 5) (some ⟨mark 6, "f"⟩) .nil
      (.blockBody (.block (mark 7) (.cons (.expressionStatement (mark 8)
        (.identifier ⟨mark 9, "x"⟩) none) .nil))) false false false))
    (.emptyStatement (mark 10)) false) .nil)

/-- Whatever the numbers of the nodes are, no scope is closed too early, and none is left open: an
analysis that is given has closed all its scopes, and the first one is the global scope. If the
nodes are distinct, only an import that is not allowed can stop the analysis. -/
theorem Program.analyze_closes_scopes (o : Options) (p : Program) :
    (∀ s, Program.analyze o p ≠ .error (.scopeClosed s)) ∧
      (∀ s, Program.analyze o p ≠ .error (.unclosedScope s)) ∧
      (∀ a, Program.analyze o p = .ok a →
        (∀ (s : Nat) (y : Scope), a.scopes[s]? = some y → y.isClosed = true) ∧
          ∃ y, a.scopes[0]? = some y ∧ y.kind = .global) ∧
      ((Tree.ids p).Nodup → ∀ e, Program.analyze o p = .error e →
        ∃ loc, e = .importOutsideModule loc) := by
  refine ⟨fun s h => ?_, fun s h => ?_, fun a h => ?_, fun hids e h => ?_⟩
  · rcases Program.analyze_spec o p with ⟨b, hb, -⟩ | ⟨loc, hb⟩ | ⟨hb, -⟩ <;>
      cases h.symm.trans hb
  · rcases Program.analyze_spec o p with ⟨b, hb, -⟩ | ⟨loc, hb⟩ | ⟨hb, -⟩ <;>
      cases h.symm.trans hb
  · obtain ⟨b, rfl, hb⟩ := Program.exists_finished h
    constructor
    · intro s y hy
      have hopen := hb.wellFormed.layout.isOpen_iff (Analysis.frame?_of_getElem? hy)
      rw [hb.stack] at hopen
      simpa [Scope.frame, Scope.isClosed] using hopen
    · obtain ⟨f, hf, hkind⟩ := hb.zero
      obtain ⟨y, hy, rfl⟩ := Analysis.frame?_eq_some hf
      exact ⟨y, hy, hkind⟩
  · rcases Program.analyze_spec o p with ⟨b, hb, -⟩ | ⟨loc, hb⟩ | ⟨-, hdistinct⟩
    · cases h.symm.trans hb
    · exact ⟨loc, Except.error.inj (h.symm.trans hb)⟩
    · exact absurd hids hdistinct

/-- Also where nearly all nodes have the same number, all scopes are closed. -/
theorem Program.analyze_closes_scopes_loop :
    ∃ a, Program.analyze .es6 (.loopOverFunction fun n => if n = 5 then 5 else 0) = .ok a ∧
      (∀ (s : Nat) (y : Scope), a.scopes[s]? = some y → y.isClosed = true) ∧
      ∃ y, a.scopes[0]? = some y ∧ y.kind = .global := by
  have hok : (Program.analyze .es6 (.loopOverFunction fun n => if n = 5 then 5 else 0)).isOk =
    true := by decide +kernel
  cases h : Program.analyze .es6 (.loopOverFunction fun n => if n = 5 then 5 else 0) with
  | error e =>
    rw [h] at hok
    cases hok
  | ok a => exact ⟨a, rfl, (Program.analyze_closes_scopes _ _).2.2.1 a h⟩

end EcmaScope
