import EcmaScope.Proofs.Layout

/-!
# The moves of the builder

What happens to the scopes and to the references while a program is analyzed is made up of four
moves: a scope is opened, a reference is made, a scope is closed, or neither scopes nor references
come or go. This module is about all of them but the closing of scopes.

A move is described by what it does to a few views of the tables: the frames of the scopes, the
references that wait in a scope and those that it lets through, and the verdicts of the scopes on
names.

## Main definitions

* `Verdict`, `Scope.verdict`: what a scope says of a name.
* `Analysis.throughOf`, `Analysis.pendingOf`, `Analysis.verdict?`: the views.
* `Builder.Quiet`, `Builder.Opened`, `Builder.Referred`: the moves.

## Main results

* `Builder.openScope_spec`: scopes are opened by a move that adds them and a quiet one.
* `Builder.quiet_declareIn`, `Builder.quiet_useThis`, `Builder.quiet_evalEdit`,
  `Builder.referred_of_edited`: the moves of other actions.
-/

namespace EcmaScope

/-! ## Verdicts -/

/-- What a scope says of a name. -/
inductive Verdict where
  /-- The name means a variable of the scope. -/
  | bound (v : Nat)
  /-- The scope does not bind the name. -/
  | unbound
  /-- The name means a property of an object, or what it means around the scope. -/
  | hidden
  /-- What the name means cannot be known, neither here nor around the scope. -/
  | unknown

namespace Verdict

/-- The name is looked for around the scope. -/
def passes : Verdict → Bool
  | .unbound | .hidden => true
  | .bound _ | .unknown => false

/-- Of a scope `s` and the scopes around it, those that let a reference through. -/
def lets (s : Nat) (enclosing : List Nat) : Verdict → List Nat
  | .bound _ => []
  | .unbound | .hidden => [s]
  | .unknown => s :: enclosing

/-- The scope in which a reference waits next. -/
def next? (enclosing : List Nat) : Verdict → Option Nat
  | .unbound | .hidden => enclosing.head?
  | .bound _ | .unknown => none

/-- What becomes of a reference. -/
def judge : Verdict → Reference → Reference
  | .bound v, x => { x with resolved := some v }
  | .hidden, x => { x with tainted := true }
  | .unbound, x | .unknown, x => x

theorem mem_of_mem_lets {s t : Nat} {enclosing : List Nat} {d : Verdict}
    (h : t ∈ d.lets s enclosing) : t ∈ s :: enclosing := by
  cases d with
  | bound v => cases h
  | unbound | hidden =>
    rw [List.mem_singleton.mp h]
    exact List.mem_cons_self
  | unknown => exact h

theorem name_judge (d : Verdict) (x : Reference) : (d.judge x).name = x.name := by
  cases d <;> rfl

theorem judge_judge (d : Verdict) (x : Reference) : d.judge (d.judge x) = d.judge x := by
  cases d <;> rfl

end Verdict

/-- What a scope says of a name: if the name may get other meanings while the program runs, an
optimist goes by the variables of the scope all the same. -/
def Scope.verdict (y : Scope) (optimistic : Bool) (name : String) : Verdict :=
  if y.isStatic || optimistic then
    match y.find? name with
    | some v => .bound v
    | none => .unbound
  else if y.kind = .withStatement then .hidden
  else .unknown

theorem Scope.verdict_eq {y z : Scope} (hkind : y.kind = z.kind) (hdynamic : y.dynamic = z.dynamic)
    (hbindings : y.bindings = z.bindings) : y.verdict = z.verdict := by
  funext optimistic name
  unfold verdict isStatic find?
  rw [hkind, hdynamic, hbindings]

/-! ## Views -/

namespace Analysis

/-- The references that a scope lets through. -/
def throughOf (a : Analysis) (t : Nat) : List Nat :=
  ((a.scopes[t]?).map fun y => y.through.toList).getD []

/-- The references that wait in a scope. -/
def pendingOf (a : Analysis) (t : Nat) : List Nat :=
  ((a.scopes[t]?).map fun y => (y.pending.getD #[]).toList).getD []

/-- What a scope says of names. -/
def verdict? (a : Analysis) (t : Nat) : Option (Bool → String → Verdict) :=
  (a.scopes[t]?).map Scope.verdict

theorem variableIn?_eq (a : Analysis) (name : String) (t : Nat) :
    a.variableIn? name t = ((a.scopes[t]?).map (·.find? name)).join := by
  unfold variableIn?
  cases a.scopes[t]? <;> rfl

end Analysis

namespace Builder

variable {b b' b'' : Builder}

/-- An edit that keeps what `g` looks at. -/
theorem Edited.map_eq {α : Type} {edit : Nat → Scope → Scope} (h : Edited edit b b')
    (g : Scope → α) {t : Nat} (hg : ∀ y, b.scopes[t]? = some y → g (edit t y) = g y) :
    (b'.scopes[t]?).map g = (b.scopes[t]?).map g := by
  rw [h.scopes]
  cases hy : b.scopes[t]? with
  | none => rfl
  | some y => exact congrArg some (hg y hy)

theorem scopesOf_eq (h : b'.owned = b.owned) : b'.scopesOf = b.scopesOf := by
  funext n
  rw [Analysis.scopesOf, h]
  rfl

theorem frame?_isSome (b : Builder) (t : Nat) : (b.frame? t).isSome ↔ t < b.scopes.size := by
  rw [Analysis.frame?, Option.isSome_map]
  simp

/-! ## Moves without coming and going -/

/-- No scopes and no references come or go; only scopes of `T` may change what they say of
names. -/
structure Quiet (T : List Nat) (b b' : Builder) : Prop where
  frame? : b'.frame? = b.frame?
  stack : b'.stack = b.stack
  sites : b'.sites = b.sites
  owned : b'.owned = b.owned
  references : b'.references = b.references
  throughOf : b'.throughOf = b.throughOf
  pendingOf : b'.pendingOf = b.pendingOf
  vars : b.KeepsVariables b'
  verdict? : ∀ t, t ∉ T → b'.verdict? t = b.verdict? t
  /-- What a scope binds it has bound before, or it is a new variable. -/
  variableIn? : ∀ {name t v}, b'.variableIn? name t = some v → b.variableIn? name t = some v ∨
    ∃ x : Variable, b'.vars[v]? = some x ∧ x.scope = t ∧ x.name = name

namespace Quiet

variable {T : List Nat}

theorem refl (T : List Nat) (b : Builder) : Quiet T b b :=
  ⟨rfl, rfl, rfl, rfl, rfl, rfl, rfl, .refl b, fun _ _ => rfl, Or.inl⟩

theorem of_edited {edit : Nat → Scope → Scope} (h : Edited edit b b')
    (hreferences : b'.references = b.references)
    (hkeep : ∀ t y, (edit t y).frame = y.frame ∧ (edit t y).through = y.through ∧
      (edit t y).pending = y.pending)
    (hverdict : ∀ t y, t ∉ T → (edit t y).verdict = y.verdict)
    (hfind : ∀ {name t y v}, b.scopes[t]? = some y → (edit t y).find? name = some v →
      y.find? name = some v ∨
        ∃ x : Variable, b'.vars[v]? = some x ∧ x.scope = t ∧ x.name = name) :
    Quiet T b b' where
  frame? := funext fun t => h.map_eq Scope.frame fun y _ => (hkeep t y).1
  stack := h.stack
  sites := h.sites
  owned := h.owned
  references := hreferences
  throughOf := funext fun t => by
    rw [Analysis.throughOf, h.map_eq _ fun y _ => by rw [(hkeep t y).2.1], Analysis.throughOf]
  pendingOf := funext fun t => by
    rw [Analysis.pendingOf, h.map_eq _ fun y _ => by rw [(hkeep t y).2.2], Analysis.pendingOf]
  vars := h.vars
  verdict? t ht := h.map_eq Scope.verdict fun y _ => hverdict t y ht
  variableIn? := by
    intro name t v hv
    obtain ⟨y', hy', hv⟩ := Option.bind_eq_some_iff.mp hv
    rw [h.scopes] at hy'
    obtain ⟨y, hy, rfl⟩ := Option.map_eq_some_iff.mp hy'
    rcases hfind hy hv with hold | hnew
    · exact Or.inl (Option.bind_eq_some_iff.mpr ⟨y, hy, hold⟩)
    · exact Or.inr hnew

end Quiet

/-- An edit that keeps the variables of all scopes. -/
theorem Edited.quiet {T : List Nat} {edit : Nat → Scope → Scope} (h : Edited edit b b')
    (hreferences : b'.references = b.references)
    (hkeep : ∀ t y, (edit t y).frame = y.frame ∧ (edit t y).through = y.through ∧
      (edit t y).pending = y.pending ∧ (edit t y).bindings = y.bindings)
    (hdynamic : ∀ t y, t ∉ T → (edit t y).dynamic = y.dynamic) : Quiet T b b' := by
  refine .of_edited h hreferences (fun t y => ?_) (fun t y ht => ?_) fun {name t y v} _ hv => ?_
  · exact ⟨(hkeep t y).1, (hkeep t y).2.1, (hkeep t y).2.2.1⟩
  · exact Scope.verdict_eq (congrArg Frame.kind (hkeep t y).1) (hdynamic t y ht) (hkeep t y).2.2.2
  · left
    rwa [Scope.find?, (hkeep t y).2.2.2] at hv

/-- Giving a scope the variable of a name is quiet. -/
theorem quiet_ensure {s : Nat} {scope : Scope} {name : String}
    (taints : Scope → Std.TreeSet String)
    (h : Edited (fun t y => if t = s then
      { y with bindings := (b.ensure scope.bindings s name).2.1, taints := taints y } else y) b b')
    (hs : b.scopes[s]? = some scope) (hreferences : b'.references = b.references)
    (hvars : (b.ensure scope.bindings s name).1.KeepsVariables b') : Quiet [s] b b' := by
  refine .of_edited h hreferences (fun t y => ?_) (fun t y ht => ?_) fun {n t y v} hy hv => ?_
  · by_cases ht : t = s <;> simp [ht, Scope.frame]
  · rw [if_neg (by simpa using ht)]
  · by_cases ht : t = s
    · subst ht
      rw [hs] at hy
      cases hy
      rw [if_pos rfl] at hv
      rcases find?_ensure hv with hold | ⟨rfl, x, hx, hscope, hname⟩
      · exact Or.inl hold
      · obtain ⟨x', hx', hscope', hname'⟩ := hvars v x hx
        exact Or.inr ⟨x', hx', hscope'.trans hscope, hname'.trans hname⟩
    · rw [if_neg ht] at hv
      exact Or.inl hv

theorem quiet_declareIn (b : Builder) (s : Nat) (d : Definition) :
    Quiet [s] b (b.declareIn s d) := by
  cases hs : b.scopes[s]? with
  | none =>
    rw [declareIn_eq_self hs]
    exact .refl _ b
  | some scope =>
    refine quiet_ensure (·.taints) (edited_declareIn hs d) hs (references_declareIn b s d) ?_
    simp only [declareIn, hs]
    refine .trans ?_ (edited_define _ _ _).vars
    exact .of_eq rfl

private theorem quiet_declareArguments (b : Builder) (s : Nat) :
    Quiet [s] b (b.declareArguments s) := by
  cases hs : b.scopes[s]? with
  | none =>
    simp only [declareArguments, hs]
    exact .refl _ b
  | some scope =>
    refine quiet_ensure (·.taints.insert "arguments") (edited_declareArguments hs) hs
      (references_declareArguments b s) ?_
    simp only [declareArguments, hs]
    exact .of_eq rfl

theorem quiet_useThis (T : List Nat) (b : Builder) (s : Nat) :
    Quiet T b (b.modifyScope s fun x => { x with thisFound := true }) := by
  refine (edited_modifyScope b s _).quiet rfl (fun t y => ?_) fun t y _ => ?_
  · by_cases ht : t = s <;> simp [ht, Scope.frame]
  · by_cases ht : t = s <;> simp [ht]

theorem quiet_evalEdit {f : Nat} {around : List Nat} (h : Edited (evalEdit f around) b b')
    (hreferences : b'.references = b.references) : Quiet around b b' := by
  refine h.quiet hreferences (fun t y => ⟨rfl, rfl, rfl, rfl⟩) fun t y ht => ?_
  simp [evalEdit, ht]

/-! ## Making a reference -/

/-- The reference `x` is made in the innermost open scope, where it waits. -/
structure Referred (x : Reference) (b b' : Builder) : Prop where
  frame? : b'.frame? = b.frame?
  stack : b'.stack = b.stack
  sites : b'.sites = b.sites
  owned : b'.owned = b.owned
  head : b.stack.head? = some x.scope
  resolved : x.resolved = none
  tainted : x.tainted = false
  references : b'.references = b.references.push x
  throughOf : b'.throughOf = b.throughOf
  pendingOf : ∀ t, b'.pendingOf t =
    b.pendingOf t ++ if t = x.scope then [b.references.size] else []
  vars : b.KeepsVariables b'
  verdict? : b'.verdict? = b.verdict?
  variableIn? : b'.variableIn? = b.variableIn?

theorem referred_of_edited {s : Nat} {rest : List Nat} {scope : Scope} {pending : Array Nat}
    {x : Reference} (h : Edited (fun t y => if t = s then
      { y with
        references := y.references.push b.references.size
        pending := some (pending.push b.references.size) } else y) b b')
    (hstack : b.stack = s :: rest) (hs : b.scopes[s]? = some scope)
    (hpending : scope.pending = some pending) (hscope : x.scope = s) (hresolved : x.resolved = none)
    (htainted : x.tainted = false) (hreferences : b'.references = b.references.push x) :
    Referred x b b' where
  frame? := funext fun t => h.map_eq Scope.frame fun y hy => by
    by_cases ht : t = s
    · subst ht
      rw [hs] at hy
      cases hy
      simp [Scope.frame, hpending]
    · rw [if_neg ht]
  stack := h.stack
  sites := h.sites
  owned := h.owned
  head := by rw [hstack, hscope]; rfl
  resolved := hresolved
  tainted := htainted
  references := hreferences
  throughOf := funext fun t => by
    rw [Analysis.throughOf, h.map_eq _ fun y _ => by split <;> rfl, Analysis.throughOf]
  pendingOf t := by
    rw [Analysis.pendingOf, Analysis.pendingOf, h.scopes, hscope]
    by_cases ht : t = s
    · subst ht
      simp [hs, hpending]
    · simp [ht]
  vars := h.vars
  verdict? := funext fun t => h.map_eq Scope.verdict fun y _ => by split <;> rfl
  variableIn? := by
    funext name t
    rw [Analysis.variableIn?_eq, h.map_eq _ fun y _ => by split <;> rfl, Analysis.variableIn?_eq]

/-! ## Opening a scope -/

/-- A scope with the frame `g` is opened. -/
structure Opened (g : Frame) (b b' : Builder) : Prop where
  enclosing : g.enclosing = b.stack
  isOpen : g.isOpen = true
  children : g.children = []
  variableScope_self : g.kind.isVariableScope = true → g.variableScope = b.scopes.size
  variableScope_upper : g.kind.isVariableScope = false → ∃ u f, b.stack.head? = some u ∧
    b.frame? u = some f ∧ g.variableScope = f.variableScope
  frame? : b'.frame? = Layout.pushed b.frame? b.scopes.size b.stack g
  stack : b'.stack = b.scopes.size :: b.stack
  sites : b'.sites = b.sites
  scopesOf : ∀ n, b'.scopesOf n =
    b.scopesOf n ++ if g.block.id = n then [b.scopes.size] else []
  references : b'.references = b.references
  throughOf : b'.throughOf = b.throughOf
  pendingOf : b'.pendingOf = b.pendingOf
  vars : b.KeepsVariables b'
  verdict? : ∀ t, t ≠ b.scopes.size → b'.verdict? t = b.verdict? t
  variableIn? : b'.variableIn? = b.variableIn?

/-- The scope that is opened in the innermost open one. -/
def newScope (o : Options) (b : Builder) (kind : ScopeKind) (block : Anchor) (strict : Bool)
    (variableScope : Nat) : Scope :=
  { kind := kind
    block := block
    isStrict := o.hasStrictMode && (b.current?.any b.isStrict || strict)
    enclosing := b.stack
    variableScope := variableScope
    dynamic := kind.isDynamic
    implicit := if kind = .global then some {} else none }

/-- Puts a scope into the innermost open one. -/
def pushScope (b : Builder) (scope : Scope) : Builder :=
  let b' := match b.current? with
    | some upper =>
      b.modifyScope upper fun x => { x with children := x.children.push b.scopes.size }
    | none => b
  { b' with
    scopes := b'.scopes.push scope
    owned := b'.owned.insert scope.block.id
      ((b'.owned.getD scope.block.id #[]).push b.scopes.size)
    stack := b.scopes.size :: b'.stack }

/-- Opening a scope, once it is known which scope binds what is declared by `var` inside. -/
theorem openScope_eq {o : Options} {kind : ScopeKind} {variableScope : Nat}
    (hself : kind.isVariableScope = true → variableScope = b.scopes.size)
    (hupper : kind.isVariableScope = false → ∃ u, b.current = .ok u ∧
      variableScope = b.variableScope u) (block : Anchor) (strict : Bool) :
    b.openScope o kind block strict =
      .ok (if kind = .function && !block.isArrow then
        (b.pushScope (b.newScope o kind block strict variableScope)).declareArguments b.scopes.size
      else b.pushScope (b.newScope o kind block strict variableScope)) := by
  cases hkind : kind.isVariableScope with
  | true =>
    rw [hself hkind]
    simp only [openScope, hkind, if_true]
    rfl
  | false =>
    obtain ⟨u, hcurrent, rfl⟩ := hupper hkind
    simp only [openScope, hkind, hcurrent, if_neg Bool.false_ne_true]
    rfl

/-- Opening a scope fails only if it has to look for the scope that binds what `var` declares. -/
theorem openScope_eq_bind (o : Options) (b : Builder) (kind : ScopeKind) (block : Anchor)
    (strict : Bool) :
    b.openScope o kind block strict =
      (if kind.isVariableScope then pure b.scopes.size else b.variableScope <$> b.current) >>=
        fun v => .ok (if kind = .function && !block.isArrow then
          (b.pushScope (b.newScope o kind block strict v)).declareArguments b.scopes.size
        else b.pushScope (b.newScope o kind block strict v)) := by
  unfold openScope
  cases kind.isVariableScope with
  | true => rfl
  | false =>
    cases b.current with
    | error e => rfl
    | ok s => rfl

theorem scopes_pushScope (b : Builder) (scope : Scope) (t : Nat) :
    (b.pushScope scope).scopes[t]? = if t = b.scopes.size then some scope
      else (b.scopes[t]?).map fun y => if b.stack.head? = some t then
        { y with children := y.children.push b.scopes.size } else y := by
  unfold pushScope current?
  cases b.stack with
  | nil =>
    simp [Array.getElem?_push]
  | cons s rest =>
    have hedited := edited_modifyScope b s fun x =>
      { x with children := x.children.push b.scopes.size }
    simp only [List.head?_cons, Array.getElem?_push, hedited.size_scopes, hedited.scopes]
    by_cases ht : t = s
    · simp [ht]
    · simp [ht, Ne.symm ht]

/-- What does not look at children is the same in the scopes that were there. -/
theorem map_pushScope {α : Type} (b : Builder) (scope : Scope) (g : Scope → α)
    (hg : ∀ y children, g { y with children := children } = g y) {t : Nat}
    (ht : t ≠ b.scopes.size) :
    ((b.pushScope scope).scopes[t]?).map g = (b.scopes[t]?).map g := by
  rw [scopes_pushScope, if_neg ht, Option.map_map]
  congr 1
  funext y
  simp only [Function.comp_apply]
  split
  · exact hg y _
  · rfl

theorem vars_pushScope (b : Builder) (scope : Scope) : (b.pushScope scope).vars = b.vars := by
  unfold pushScope
  cases b.current? <;> rfl

theorem references_pushScope (b : Builder) (scope : Scope) :
    (b.pushScope scope).references = b.references := by
  unfold pushScope
  cases b.current? <;> rfl

/-- A scope without variables changes no look-up. -/
theorem variableIn?_pushScope (b : Builder) {scope : Scope}
    (hscope : ∀ name, scope.find? name = none) :
    (b.pushScope scope).variableIn? = b.variableIn? := by
  funext name t
  by_cases ht : t = b.scopes.size
  · rw [Analysis.variableIn?, scopes_pushScope, if_pos ht, Analysis.variableIn?, ht]
    simp [hscope]
  · rw [Analysis.variableIn?_eq, map_pushScope b _ _ (fun _ _ => rfl) ht, Analysis.variableIn?_eq]

theorem find?_newScope (o : Options) (b : Builder) (kind : ScopeKind) (block : Anchor)
    (strict : Bool) (v : Nat) (name : String) :
    (b.newScope o kind block strict v).find? name = none := by
  simp [newScope, Scope.find?, Bindings.find?]

private theorem scopesOf_pushScope (b : Builder) (scope : Scope) (n : Nat) :
    (b.pushScope scope).scopesOf n =
      b.scopesOf n ++ if scope.block.id = n then [b.scopes.size] else [] := by
  have howned : (b.pushScope scope).owned =
      b.owned.insert scope.block.id ((b.owned.getD scope.block.id #[]).push b.scopes.size) := by
    unfold pushScope
    cases b.current? <;> rfl
  rw [Analysis.scopesOf, howned, Std.TreeMap.getD_insert]
  by_cases hn : scope.block.id = n
  · subst hn
    simp [Analysis.scopesOf]
  · simp [Analysis.scopesOf, hn]

private theorem opened_pushScope (o : Options) {kind : ScopeKind} {variableScope : Nat}
    (block : Anchor) (strict : Bool)
    (hself : kind.isVariableScope = true → variableScope = b.scopes.size)
    (hupper : kind.isVariableScope = false → ∃ u f, b.stack.head? = some u ∧
      b.frame? u = some f ∧ variableScope = f.variableScope) :
    Opened (b.newScope o kind block strict variableScope).frame b
      (b.pushScope (b.newScope o kind block strict variableScope)) where
  enclosing := rfl
  isOpen := rfl
  children := rfl
  variableScope_self := hself
  variableScope_upper := hupper
  frame? := by
    funext t
    rw [Analysis.frame?, scopes_pushScope, Layout.pushed]
    by_cases ht : t = b.scopes.size
    · rw [if_pos ht, if_pos ht]
      rfl
    · rw [if_neg ht, if_neg ht, Analysis.frame?, Option.map_map, Option.map_map]
      congr 1
      funext y
      by_cases hhead : b.stack.head? = some t <;> simp [hhead, Scope.frame]
  stack := by
    unfold pushScope
    cases b.current? <;> rfl
  sites := by
    unfold pushScope
    cases b.current? <;> rfl
  scopesOf n := scopesOf_pushScope b _ n
  references := references_pushScope b _
  throughOf := by
    funext t
    by_cases ht : t = b.scopes.size
    · rw [Analysis.throughOf, scopes_pushScope, if_pos ht, Analysis.throughOf, ht]
      simp [newScope]
    · rw [Analysis.throughOf, map_pushScope b _ _ (fun _ _ => rfl) ht]
      rfl
  pendingOf := by
    funext t
    by_cases ht : t = b.scopes.size
    · rw [Analysis.pendingOf, scopes_pushScope, if_pos ht, Analysis.pendingOf, ht]
      simp [newScope]
    · rw [Analysis.pendingOf, map_pushScope b _ _ (fun _ _ => rfl) ht]
      rfl
  vars := .of_eq (vars_pushScope b _)
  verdict? t ht := map_pushScope b _ _ (fun _ _ => rfl) ht
  variableIn? := variableIn?_pushScope b (find?_newScope o b kind block strict variableScope)

/-- Where it is clear which scope binds what is declared by `var`, a scope is opened, and a function
is then given its `arguments`. -/
theorem openScope_of_variableScope (o : Options) {kind : ScopeKind} {v : Nat} (block : Anchor)
    (strict : Bool) (hself : kind.isVariableScope = true → v = b.scopes.size)
    (hupper : kind.isVariableScope = false → ∃ u f, b.stack.head? = some u ∧
      b.frame? u = some f ∧ v = f.variableScope) :
    ∃ g b₁ b', g.kind = kind ∧ g.block = block ∧ b.openScope o kind block strict = .ok b' ∧
      Opened g b b₁ ∧ Quiet [b.scopes.size] b₁ b' := by
  refine ⟨_, _, _, rfl, rfl, openScope_eq hself (fun hkind => ?_) block strict,
    opened_pushScope o block strict hself hupper, ?_⟩
  · obtain ⟨u, f, hu, hf, hv⟩ := hupper hkind
    obtain ⟨y, hy, rfl⟩ := Analysis.frame?_eq_some hf
    refine ⟨u, by simp [current, current?, hu], ?_⟩
    rw [hv, variableScope, hy]
    rfl
  · split
    · exact quiet_declareArguments _ _
    · exact .refl _ _

/-- Opening a scope works unless it needs a scope around it and there is none. -/
theorem openScope_spec (o : Options) (hb : ∀ u ∈ b.stack, (b.frame? u).isSome) (kind : ScopeKind)
    (block : Anchor) (strict : Bool) :
    (b.stack = [] ∧ kind.isVariableScope = false ∧
        b.openScope o kind block strict = .error .noOpenScope) ∨
      ∃ g b₁ b', g.kind = kind ∧ g.block = block ∧ b.openScope o kind block strict = .ok b' ∧
        Opened g b b₁ ∧ Quiet [b.scopes.size] b₁ b' := by
  cases hkind : kind.isVariableScope with
  | true =>
    right
    exact openScope_of_variableScope o block strict (fun _ => rfl) fun h => by simp [hkind] at h
  | false =>
    cases hstack : b.stack with
    | nil =>
      left
      refine ⟨rfl, rfl, ?_⟩
      simp only [openScope, hkind, current_of_stack_nil hstack, if_neg Bool.false_ne_true]
      rfl
    | cons u rest =>
      right
      have hu : u ∈ b.stack := by
        rw [hstack]
        exact List.mem_cons_self
      obtain ⟨f, hf⟩ := Option.isSome_iff_exists.mp (hb u hu)
      refine openScope_of_variableScope o block strict (fun h => ?_) fun _ => ⟨u, f, ?_, hf, rfl⟩
      · simp [hkind] at h
      · rw [hstack]
        rfl

end Builder

end EcmaScope
