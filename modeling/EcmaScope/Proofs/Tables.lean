import EcmaScope.Builder

/-!
# What the operations of the builder change

Apart from opening and closing scopes, the operations of the builder change entries of its tables
one by one: every scope `t` is replaced by `edit t` of it, for a function `edit` that tells which
fields the operation is about. Variables keep the scope and the name that they were made with.

## Main definitions

* `Builder.KeepsVariables`: the variables are still there.
* `Builder.Edited`: the scopes have been edited, and no scope was opened or closed.

## Main results

* `Builder.edited_declareIn`, `Builder.refer_of_stack`, `Builder.useThis_of_stack`,
  `Builder.callEval_of_stack`: the edits of the actions that neither open nor close scopes.
-/

namespace EcmaScope

/-- A table whose entries are changed one by one keeps its size. -/
theorem size_eq_of_getElem?_map {α β : Type} {xs : Array α} {ys : Array β} {f : Nat → α → β}
    (h : ∀ i, ys[i]? = (xs[i]?).map (f i)) : ys.size = xs.size := by
  have hiff (i : Nat) : ys.size ≤ i ↔ xs.size ≤ i := by
    rw [← Array.getElem?_eq_none_iff, h, Option.map_eq_none_iff, Array.getElem?_eq_none_iff]
  exact Nat.le_antisymm ((hiff _).mpr (Nat.le_refl _)) ((hiff _).mp (Nat.le_refl _))

namespace Builder

variable {b b' b'' : Builder}

/-! ## Edits -/

/-- Every variable is still there, with its scope and its name. -/
def KeepsVariables (b b' : Builder) : Prop :=
  ∀ (v : Nat) (x : Variable), b.vars[v]? = some x →
    ∃ x' : Variable, b'.vars[v]? = some x' ∧ x'.scope = x.scope ∧ x'.name = x.name

theorem KeepsVariables.refl (b : Builder) : b.KeepsVariables b :=
  fun _ x hx => ⟨x, hx, rfl, rfl⟩

theorem KeepsVariables.of_eq (h : b'.vars = b.vars) : b.KeepsVariables b' :=
  fun _ x hx => ⟨x, by rw [h, hx], rfl, rfl⟩

theorem KeepsVariables.trans (h : b.KeepsVariables b') (h' : b'.KeepsVariables b'') :
    b.KeepsVariables b'' := by
  intro v x hx
  obtain ⟨x', hx', hscope, hname⟩ := h v x hx
  obtain ⟨x'', hx'', hscope', hname'⟩ := h' v x' hx'
  exact ⟨x'', hx'', hscope'.trans hscope, hname'.trans hname⟩

theorem KeepsVariables.modify {v : Nat} {f : Variable → Variable}
    (hvars : b'.vars = b.vars.modify v f) (hf : ∀ x, (f x).scope = x.scope ∧ (f x).name = x.name) :
    b.KeepsVariables b' := by
  intro u x hx
  rw [hvars, Array.getElem?_modify, hx]
  split
  · exact ⟨f x, rfl, hf x⟩
  · exact ⟨x, rfl, rfl, rfl⟩

/-- Every scope `t` has been changed by `edit t`, none has been opened or closed, and the variables
are still there. -/
structure Edited (edit : Nat → Scope → Scope) (b b' : Builder) : Prop where
  scopes (t : Nat) : b'.scopes[t]? = (b.scopes[t]?).map (edit t)
  vars : b.KeepsVariables b'
  owned : b'.owned = b.owned
  stack : b'.stack = b.stack
  sites : b'.sites = b.sites

namespace Edited

variable {edit edit' : Nat → Scope → Scope}

/-- Tables other than that of the scopes have been changed. -/
theorem of_scopes_eq (hscopes : b'.scopes = b.scopes) (hvars : b.KeepsVariables b')
    (howned : b'.owned = b.owned) (hstack : b'.stack = b.stack) (hsites : b'.sites = b.sites) :
    Edited (fun _ y => y) b b' :=
  ⟨fun t => by rw [hscopes, Option.map_id'], hvars, howned, hstack, hsites⟩

theorem refl (b : Builder) : Edited (fun _ y => y) b b :=
  of_scopes_eq rfl (.refl b) rfl rfl rfl

theorem trans (h : Edited edit b b') (h' : Edited edit' b' b'') :
    Edited (fun t y => edit' t (edit t y)) b b'' where
  scopes t := by rw [h'.scopes, h.scopes, Option.map_map]; rfl
  vars := h.vars.trans h'.vars
  owned := h'.owned.trans h.owned
  stack := h'.stack.trans h.stack
  sites := h'.sites.trans h.sites

/-- Only what the edit does to the scopes that are there matters. -/
theorem congr (h : Edited edit b b')
    (heq : ∀ t y, b.scopes[t]? = some y → edit t y = edit' t y) : Edited edit' b b' where
  scopes t := by
    rw [h.scopes]
    cases hy : b.scopes[t]? with
    | none => rfl
    | some y => exact congrArg some (heq t y hy)
  vars := h.vars
  owned := h.owned
  stack := h.stack
  sites := h.sites

theorem size_scopes (h : Edited edit b b') : b'.scopes.size = b.scopes.size :=
  size_eq_of_getElem?_map h.scopes

end Edited

theorem edited_modifyScope (b : Builder) (s : Nat) (f : Scope → Scope) :
    Edited (fun t y => if t = s then f y else y) b (b.modifyScope s f) where
  scopes t := by
    simp only [modifyScope, Array.getElem?_modify]
    by_cases h : s = t
    · subst h
      simp
    · have h' : ¬ t = s := fun e => h e.symm
      simp [h, h']
  vars := .of_eq rfl
  owned := rfl
  stack := rfl
  sites := rfl

/-! ## Declaring names -/

theorem edited_ensure (b : Builder) (bindings : Bindings) (s : Nat) (name : String) :
    Edited (fun _ y => y) b (b.ensure bindings s name).1 := by
  unfold ensure
  split
  · exact .refl b
  · refine .of_scopes_eq rfl (fun v x hx => ⟨x, ?_, rfl, rfl⟩) rfl rfl rfl
    have hlt := (Array.getElem?_eq_some_iff.mp hx).1
    rw [Array.getElem?_push, if_neg (Nat.ne_of_lt hlt)]
    exact hx

private theorem edited_noteDeclared (b : Builder) (node v : Nat) :
    Edited (fun _ y => y) b (b.noteDeclared node v) := by
  unfold noteDeclared
  dsimp only
  split
  · exact .refl b
  · exact .of_scopes_eq rfl (.of_eq rfl) rfl rfl rfl

private theorem edited_modifyVariable (b : Builder) (v : Nat) (f : Variable → Variable)
    (hf : ∀ x, (f x).scope = x.scope ∧ (f x).name = x.name) :
    Edited (fun _ y => y) b { b with vars := b.vars.modify v f } :=
  .of_scopes_eq rfl (.modify rfl hf) rfl rfl rfl

theorem edited_define (b : Builder) (v : Nat) (d : Definition) :
    Edited (fun _ y => y) b (b.define v d) := by
  have hnode := edited_noteDeclared b d.node.id v
  unfold define
  cases d.kind.parent? with
  | none => exact hnode.trans (edited_modifyVariable _ v _ fun _ => ⟨rfl, rfl⟩)
  | some parent =>
    dsimp only
    exact (hnode.trans (edited_noteDeclared _ parent.id v)).trans
      (edited_modifyVariable _ v _ fun _ => ⟨rfl, rfl⟩)

theorem edited_declareIn {s : Nat} {scope : Scope} (hs : b.scopes[s]? = some scope)
    (d : Definition) :
    Edited (fun t y => if t = s then
      { y with bindings := (b.ensure scope.bindings s d.name.name).2.1 } else y)
      b (b.declareIn s d) := by
  simp only [declareIn, hs]
  exact ((edited_ensure b _ _ _).trans (edited_modifyScope _ _ _)).trans (edited_define _ _ _)

theorem declareIn_eq_self {s : Nat} (hs : b.scopes[s]? = none) (d : Definition) :
    b.declareIn s d = b := by
  simp only [declareIn, hs]

theorem edited_declareImplicit (b : Builder) (s : Nat) (d : Definition) :
    ∃ implicit, Edited (fun t y => if t = s then { y with implicit := implicit } else y)
      b (b.declareImplicit s d) := by
  unfold declareImplicit
  split
  · next hs =>
    exact ⟨none, (Edited.refl b).congr fun t y hy => by
      rw [if_neg]
      rintro rfl
      simp [hs] at hy⟩
  · next scope hs =>
    split
    · next hi =>
      exact ⟨none, (Edited.refl b).congr fun t y hy => by
        split
        · subst t
          rw [hs] at hy
          cases hy
          rw [← hi]
        · rfl⟩
    · exact ⟨_, ((edited_ensure b _ _ _).trans (edited_modifyScope _ _ _)).trans
        (edited_define _ _ _)⟩

theorem edited_declareArguments {s : Nat} {scope : Scope} (hs : b.scopes[s]? = some scope) :
    Edited (fun t y => if t = s then
      { y with
        bindings := (b.ensure scope.bindings s "arguments").2.1
        taints := y.taints.insert "arguments" } else y)
      b (b.declareArguments s) := by
  simp only [declareArguments, hs]
  exact (edited_ensure b _ _ _).trans (edited_modifyScope _ _ _)

/-- Declaring a name leaves the references alone. -/
theorem references_ensure (b : Builder) (bindings : Bindings) (s : Nat) (name : String) :
    (b.ensure bindings s name).1.references = b.references := by
  unfold ensure
  split <;> rfl

private theorem references_noteDeclared (b : Builder) (node v : Nat) :
    (b.noteDeclared node v).references = b.references := by
  unfold noteDeclared
  dsimp only
  split <;> rfl

theorem references_define (b : Builder) (v : Nat) (d : Definition) :
    (b.define v d).references = b.references := by
  unfold define
  cases d.kind.parent? with
  | none => exact references_noteDeclared b d.node.id v
  | some parent =>
    dsimp only
    rw [references_noteDeclared, references_noteDeclared]

theorem references_declareIn (b : Builder) (s : Nat) (d : Definition) :
    (b.declareIn s d).references = b.references := by
  unfold declareIn
  split
  · rfl
  · exact (references_define _ _ _).trans (references_ensure _ _ _ _)

theorem references_declareImplicit (b : Builder) (s : Nat) (d : Definition) :
    (b.declareImplicit s d).references = b.references := by
  unfold declareImplicit
  split
  · rfl
  split
  · rfl
  · exact (references_define _ _ _).trans (references_ensure _ _ _ _)

theorem references_declareArguments (b : Builder) (s : Nat) :
    (b.declareArguments s).references = b.references := by
  unfold declareArguments
  split
  · rfl
  · exact references_ensure _ _ _ _

/-- A name that `ensure` finds was bound before, or it is the given name, bound to a new variable of
the given scope. -/
theorem find?_ensure {bindings : Bindings} {s v : Nat} {name n : String}
    (h : (b.ensure bindings s name).2.1.find? n = some v) :
    bindings.find? n = some v ∨ n = name ∧ ∃ x : Variable,
      (b.ensure bindings s name).1.vars[v]? = some x ∧ x.scope = s ∧ x.name = name := by
  unfold ensure at h ⊢
  split at h
  · exact Or.inl h
  · by_cases hn : name = n
    · subst hn
      right
      simp only [Bindings.find?, Bindings.add, Std.TreeMap.getElem?_insert_self,
        Option.some.injEq] at h
      exact ⟨rfl, { name := name, scope := s }, by simp [← h], rfl, rfl⟩
    · left
      simpa [Bindings.find?, Bindings.add, Std.TreeMap.getElem?_insert, hn] using h

/-! ## Referring to names -/

theorem current_of_stack {s : Nat} {rest : List Nat} (h : b.stack = s :: rest) :
    b.current = .ok s := by
  simp [current, current?, h]

theorem current_of_stack_nil (h : b.stack = []) : b.current = .error .noOpenScope := by
  simp [current, current?, h]

/-- The reference that is made in the scope `s`. -/
def newReference (b : Builder) (s : Nat) (identifier : Identifier) (use : Use)
    (creator : Option Anchor) : Reference :=
  { identifier := identifier
    scope := s
    use := use
    implicit := if b.isStrict s then none else creator }

theorem refer_of_stack {s : Nat} {rest : List Nat} {scope : Scope} {pending : Array Nat}
    (hstack : b.stack = s :: rest) (hs : b.scopes[s]? = some scope)
    (hpending : scope.pending = some pending) (identifier : Identifier) (use : Use)
    (creator : Option Anchor) :
    ∃ b', b.refer identifier use creator = .ok b' ∧
      b'.references = b.references.push (b.newReference s identifier use creator) ∧
      b'.vars = b.vars ∧ Edited (fun t y => if t = s then
        { y with
          references := y.references.push b.references.size
          pending := some (pending.push b.references.size) } else y) b b' := by
  let b₁ := b.modifyScope s fun x =>
    { x with
      references := x.references.push b.references.size
      pending := some (pending.push b.references.size) }
  have hrefer : b.refer identifier use creator =
      .ok { b₁ with
        references := b.references.push (b.newReference s identifier use creator) } := by
    simp only [refer, current_of_stack hstack, bind, Except.bind, hs, Option.bind_some, hpending]
    rfl
  have hedited : Edited (fun _ y => y) b₁
      { b₁ with references := b.references.push (b.newReference s identifier use creator) } :=
    .of_scopes_eq rfl (.of_eq rfl) rfl rfl rfl
  exact ⟨_, hrefer, rfl, rfl, (edited_modifyScope b s _).trans hedited⟩

theorem useThis_of_stack {s : Nat} {rest : List Nat} (hstack : b.stack = s :: rest) :
    b.useThis = .ok (b.modifyScope (b.variableScope s) fun x => { x with thisFound := true }) := by
  simp only [useThis, current_of_stack hstack]
  rfl

/-- The same edit of several scopes. -/
theorem edited_foldl_modifyScope (f : Scope → Scope) (l : List Nat) (hl : l.Nodup) (b : Builder) :
    Edited (fun t y => if t ∈ l then f y else y) b
      (l.foldl (fun b s => b.modifyScope s f) b) := by
  induction l generalizing b with
  | nil => exact (Edited.refl b).congr fun t y _ => by simp
  | cons s l ih =>
    have hnotMem : s ∉ l := (List.nodup_cons.mp hl).1
    refine ((edited_modifyScope b s f).trans (ih (List.nodup_cons.mp hl).2 _)).congr fun t y _ => ?_
    by_cases ht : t = s
    · subst ht
      simp [hnotMem]
    · simp [ht]

theorem references_foldl_modifyScope (f : Scope → Scope) (l : List Nat) (b : Builder) :
    (l.foldl (fun b s => b.modifyScope s f) b).references = b.references := by
  induction l generalizing b with
  | nil => rfl
  | cons s l ih => exact ih _

private theorem vars_foldl_modifyScope (f : Scope → Scope) (l : List Nat) (b : Builder) :
    (l.foldl (fun b s => b.modifyScope s f) b).vars = b.vars := by
  induction l generalizing b with
  | nil => rfl
  | cons s l ih => exact ih _

/-- The edit of a call of `eval`: `f` calls it, and all scopes of `around` become dynamic. -/
def evalEdit (f : Nat) (around : List Nat) (t : Nat) (y : Scope) : Scope :=
  { y with
    directEval := y.directEval || decide (t = f)
    dynamic := y.dynamic || decide (t ∈ around) }

private theorem edited_evalEdit (b : Builder) (f : Nat) {around : List Nat}
    (hnodup : around.Nodup) :
    Edited (evalEdit f around) b (around.foldl
      (fun b s => b.modifyScope s fun x => { x with dynamic := true })
      (b.modifyScope f fun x => { x with directEval := true })) := by
  refine ((edited_modifyScope b f _).trans
    (edited_foldl_modifyScope _ around hnodup _)).congr fun t y _ => ?_
  by_cases hf : t = f
  · subst hf
    by_cases ht : t ∈ around <;> simp [evalEdit, ht]
  · by_cases ht : t ∈ around <;> simp [evalEdit, hf, ht]

theorem callEval_of_stack {s : Nat} {rest : List Nat} (hstack : b.stack = s :: rest)
    (hnodup : b.stack.Nodup) :
    ∃ b', b.callEval = .ok b' ∧ b'.references = b.references ∧ b'.vars = b.vars ∧
      Edited (evalEdit (b.variableScope s) (b.stack.dropWhile (· ≠ b.variableScope s))) b b' := by
  have hcall : b.callEval = .ok ((b.stack.dropWhile (· ≠ b.variableScope s)).foldl
      (fun b s => b.modifyScope s fun x => { x with dynamic := true })
      (b.modifyScope (b.variableScope s) fun x => { x with directEval := true })) := by
    simp only [callEval, current_of_stack hstack, bind, Except.bind]
    rfl
  exact ⟨_, hcall, references_foldl_modifyScope _ _ _, vars_foldl_modifyScope _ _ _,
    edited_evalEdit b _ (hnodup.sublist (List.dropWhile_sublist _))⟩

end Builder

end EcmaScope
