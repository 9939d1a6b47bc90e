import EcmaScope.Proofs.Lasting

/-!
# The definitions of variables

A variable of a scope is defined by the declarations of its name for which the scope was the
declaration site, one after the other. Everything else leaves its definitions alone: scopes that are
closed, references that are resolved, and the variables that are made where nothing declares a name.

## Main definitions

* `Builder.declarations`: the declarations among actions, with the states in which they are made.
* `Builder.definitionsIn`: those of a name at a site.
* `Builder.Records`: the definitions of variables are those of declarations.
* `Builder.Listed`: scopes list the variables that they bind.

## Main results

* `Builder.Effects.mem_declarations`: what the declarations among actions are.
* `Builder.Effects.records`: every declaration is recorded with the variable of its name at its
  site.
* `Builder.Effects.listed`: no variable of a scope is missing from its list, and none is left over.
-/

namespace EcmaScope

/-- The variables in order are those by name. -/
def Bindings.Listed (b : Bindings) : Prop :=
  ∀ v, v ∈ b.vars ↔ ∃ name, b.find? name = some v

private theorem Bindings.Listed.empty : Listed {} := by
  intro v
  simp [find?]

private theorem Bindings.Listed.add {b : Bindings} (h : b.Listed) {name : String}
    (hname : b.find? name = none) (v : Nat) : (b.add name v).Listed := by
  intro u
  have hvars : u ∈ (b.add name v).vars ↔ u ∈ b.vars ∨ u = v := Array.mem_push
  rw [hvars, h u]
  simp only [find?_add]
  constructor
  · rintro (⟨n, hn⟩ | rfl)
    · exact ⟨n, by rw [if_neg (fun heq => by simp [heq, hname] at hn), hn]⟩
    · exact ⟨name, if_pos rfl⟩
  · rintro ⟨n, hn⟩
    split at hn
    · exact .inr (Option.some.inj hn).symm
    · exact .inl ⟨n, hn⟩

/-- The definition that an action adds. -/
def Action.definitions : Action → List Definition
  | .declare d => [d]
  | _ => []

namespace Builder

variable {b b' b'' : Builder} {o : Options} {l : List (Builder × Definition)}

/-! ## Declarations -/

/-- The declarations among actions, each with the state in which it is made. -/
def declarations (o : Options) (b : Builder) : List Action → List (Builder × Definition)
  | [] => []
  | a :: A => a.definitions.map (b, ·) ++
    match step o b a with
    | .ok b' => declarations o b' A
    | .error _ => []

theorem declarations_cons {a : Action} (h : step o b a = .ok b') (A : List Action) :
    declarations o b (a :: A) = a.definitions.map (b, ·) ++ declarations o b' A := by
  rw [declarations, h]

theorem Effects.declarations_append {A : List Action} (h : Effects o b A b') (B : List Action) :
    declarations o b (A ++ B) = declarations o b A ++ declarations o b' B := by
  induction h with
  | nil => rfl
  | cons _ hstep _ _ ih =>
    rw [List.cons_append, declarations_cons hstep, ih, declarations_cons hstep, List.append_assoc]

/-- What is declared is declared in the state that the actions before lead to. -/
theorem Effects.mem_declarations {A : List Action} (h : Effects o b A b') {c : Builder}
    {d : Definition} (hmem : (c, d) ∈ declarations o b A) :
    ∃ B C, A = B ++ .declare d :: C ∧ Effects o b B c ∧ Effects o c (.declare d :: C) b' := by
  induction h with
  | nil => cases hmem
  | @cons b b₁ _ a A hb hstep heffect hA ih =>
    rw [declarations_cons hstep] at hmem
    rcases List.mem_append.mp hmem with hfirst | hrest
    · obtain ⟨e, he, heq⟩ := List.mem_map.mp hfirst
      cases heq
      cases a with
      | declare d' =>
        cases List.mem_singleton.mp he
        exact ⟨[], A, rfl, .nil hb, .cons hb hstep heffect hA⟩
      | _ => cases he
    · obtain ⟨B, C, rfl, hB, hC⟩ := ih hrest
      exact ⟨a :: B, C, rfl, .cons hb hstep heffect hB, hC⟩

theorem mem_declarations_of_append {B C : List Action} {c : Builder} {d : Definition}
    (hB : Effects o b B c) (hC : Effects o c (.declare d :: C) b') :
    (c, d) ∈ declarations o b (B ++ .declare d :: C) := by
  rw [hB.declarations_append]
  cases hC with
  | cons _ hstep _ _ =>
    rw [declarations_cons hstep]
    exact List.mem_append_right _ List.mem_cons_self

theorem declarations_eq_nil {A : List Action} (h : ∀ a ∈ A, a.definitions = []) (b : Builder) :
    declarations o b A = [] := by
  induction A generalizing b with
  | nil => rfl
  | cons a A ih =>
    obtain ⟨ha, hA⟩ := List.forall_mem_cons.mp h
    rw [declarations, ha]
    split
    · exact ih hA _
    · rfl

/-! ## Recorded definitions -/

/-- Of declarations, those of a name at a site. -/
def definitionsIn (l : List (Builder × Definition)) (s : Nat) (name : String) : List Definition :=
  (l.filter fun e => e.1.sites.head? = some s ∧ e.2.name.name = name).map (·.2)

private theorem definitionsIn_concat (l : List (Builder × Definition)) {c : Builder} {s : Nat}
    (hs : c.sites.head? = some s) (d : Definition) (t : Nat) (name : String) :
    definitionsIn (l ++ [(c, d)]) t name =
      definitionsIn l t name ++ if t = s ∧ name = d.name.name then [d] else [] := by
  rw [definitionsIn, List.filter_append, List.map_append, ← definitionsIn]
  by_cases h : t = s ∧ name = d.name.name
  · obtain ⟨rfl, rfl⟩ := h
    simp [hs]
  · rw [if_neg h, List.filter_cons_of_neg]
    · rfl
    · simp only [hs, Option.some.injEq, decide_eq_true_eq]
      exact fun h' => h ⟨h'.1.symm, h'.2.symm⟩

theorem mem_definitionsIn {s : Nat} {name : String} {d : Definition} :
    d ∈ definitionsIn l s name ↔
      ∃ c : Builder, (c, d) ∈ l ∧ c.sites.head? = some s ∧ d.name.name = name := by
  simp [definitionsIn]

/-- The definitions of the variables of scopes are those of the declarations `l`. -/
structure Records (l : List (Builder × Definition)) (b : Builder) : Prop where
  bound : ∀ {name s v}, b.variableIn? name s = some v → ∃ x : Variable, b.vars[v]? = some x ∧
    x.defs.toList = definitionsIn l s name ∧
    x.identifiers.toList = (definitionsIn l s name).map (·.name)
  unbound : ∀ {name s}, b.variableIn? name s = none → definitionsIn l s name = []

theorem Records.empty : Records [] {} where
  bound h := by simp [Analysis.variableIn?] at h
  unbound _ := rfl

theorem Records.lt_size (h : Records l b) {name : String} {s v : Nat}
    (hv : b.variableIn? name s = some v) : v < b.vars.size := by
  obtain ⟨x, hx, -⟩ := h.bound hv
  exact (Array.getElem?_eq_some_iff.mp hx).1

/-- What leaves alone what scopes bind and what lasts of variables leaves the definitions alone. -/
theorem Records.of_lasting (h : Records l b) (hvariable : b'.variableIn? = b.variableIn?)
    (hvars : ∀ v < b.vars.size,
      (b'.vars[v]?).map Variable.lasting = (b.vars[v]?).map Variable.lasting) : Records l b' where
  bound hv := by
    rw [hvariable] at hv
    obtain ⟨x, hx, hdefs, hidentifiers⟩ := h.bound hv
    have hlasting := hvars _ (h.lt_size hv)
    rw [hx] at hlasting
    obtain ⟨x', hx', heq⟩ := Option.map_eq_some_iff.mp hlasting
    have hdefs' : x'.defs = x.defs := (congrArg Variable.defs heq :)
    have hidentifiers' : x'.identifiers = x.identifiers := (congrArg Variable.identifiers heq :)
    exact ⟨x', hx', by rw [hdefs', hdefs], by rw [hidentifiers', hidentifiers]⟩
  unbound hv := h.unbound (by rwa [hvariable] at hv)

theorem Records.of_vars_eq (h : Records l b) (hvariable : b'.variableIn? = b.variableIn?)
    (hvars : b'.vars = b.vars) : Records l b' :=
  h.of_lasting hvariable fun v _ => by rw [hvars]

/-- A variable that is made has no definitions, and its name had none before. -/
theorem Records.ensure {s : Nat} {scope : Scope} {name : String}
    (taints : Scope → Std.TreeSet String) (h : Records l b) (hs : b.scopes[s]? = some scope)
    (hedited : Edited (fun t y => if t = s then
      { y with bindings := (b.ensure scope.bindings s name).2.1, taints := taints y } else y) b b')
    (hvars : b'.vars = (b.ensure scope.bindings s name).1.vars) :
    Records l b' ∧ b'.variableIn? name s = some (b.ensure scope.bindings s name).2.2 := by
  have hfind (n : String) : b.variableIn? n s = scope.bindings.find? n := by
    rw [Analysis.variableIn?, hs]
    rfl
  have hself (n : String) :
      b'.variableIn? n s = (b.ensure scope.bindings s name).2.1.find? n := by
    rw [Analysis.variableIn?, hedited.scopes, hs]
    simp [Scope.find?]
  have hother (n : String) {t : Nat} (ht : t ≠ s) : b'.variableIn? n t = b.variableIn? n t := by
    rw [Analysis.variableIn?, hedited.scopes, Analysis.variableIn?]
    simp [ht]
  rcases b.ensure_cases scope.bindings s name with ⟨v, hv, heq⟩ | ⟨hnone, heq⟩
  · rw [heq] at hvars hself ⊢
    refine ⟨h.of_vars_eq ?_ hvars, by rw [hself, hv]⟩
    funext n t
    by_cases ht : t = s
    · rw [ht, hself, hfind]
    · exact hother n ht
  · rw [heq] at hvars hself ⊢
    simp only [Bindings.find?_add] at hself
    refine ⟨⟨fun {n t v} hv => ?_, fun {n t} hv => ?_⟩, by rw [hself, if_pos rfl]⟩
    · by_cases hnew : t = s ∧ n = name
      · obtain ⟨rfl, rfl⟩ := hnew
        rw [hself, if_pos rfl] at hv
        cases hv
        have hempty := h.unbound ((hfind n).trans hnone)
        exact ⟨{ name := n, scope := t }, by rw [hvars]; simp, by rw [hempty], by rw [hempty]; rfl⟩
      · have hold : b.variableIn? n t = some v := by
          by_cases ht : t = s
          · subst ht
            rw [hself, if_neg fun hn => hnew ⟨rfl, hn⟩] at hv
            rw [hfind, hv]
          · rw [← hv, hother n ht]
        obtain ⟨x, hx, hdefs⟩ := h.bound hold
        refine ⟨x, ?_, hdefs⟩
        rw [hvars, Array.getElem?_push, if_neg (Nat.ne_of_lt (h.lt_size hold)), hx]
    · by_cases ht : t = s
      · subst ht
        rw [hself] at hv
        split at hv
        · cases hv
        · exact h.unbound ((hfind n).trans hv)
      · exact h.unbound (by rw [← hv, hother n ht])

/-- A definition is added to the variable of its name. -/
theorem Records.define {c : Builder} {s v : Nat} {d : Definition} (h : Records l b)
    (hb : WellFormed b) (hs : c.sites.head? = some s)
    (hv : b.variableIn? d.name.name s = some v) : Records (l ++ [(c, d)]) (b.define v d) := by
  have hvariable : (b.define v d).variableIn? = b.variableIn? := by
    funext name t
    rw [Analysis.variableIn?, scopes_define, Analysis.variableIn?]
  refine ⟨fun {name t u} hu => ?_, fun {name t} hu => ?_⟩
  · rw [hvariable] at hu
    obtain ⟨x, hx, hdefs, hidentifiers⟩ := h.bound hu
    rw [definitionsIn_concat l hs, vars_define, Array.getElem?_modify]
    by_cases huv : v = u
    · subst huv
      obtain ⟨y, hy, rfl, rfl⟩ := hb.variable_eq hu
      obtain ⟨z, hz, hscope, hname⟩ := hb.variable_eq hv
      cases hy.symm.trans hz
      rw [if_pos rfl, if_pos ⟨hscope, hname⟩, hx]
      exact ⟨_, rfl, by simp [hdefs], by simp [hidentifiers]⟩
    · have hne : ¬ (t = s ∧ name = d.name.name) := by
        rintro ⟨rfl, rfl⟩
        exact huv (Option.some.inj (hv.symm.trans hu))
      rw [if_neg huv, if_neg hne, List.append_nil]
      exact ⟨x, hx, hdefs, hidentifiers⟩
  · rw [hvariable] at hu
    rw [definitionsIn_concat l hs, h.unbound hu, if_neg]
    · rfl
    · rintro ⟨rfl, rfl⟩
      rw [hv] at hu
      cases hu

private theorem Edited.variableIn? {edit : Nat → Scope → Scope} (h : Edited edit b b')
    (hedit : ∀ t y, (edit t y).bindings = y.bindings) : b'.variableIn? = b.variableIn? := by
  funext name t
  rw [Analysis.variableIn?_eq, h.map_eq (·.find? name) fun y _ => by rw [Scope.find?, hedit]; rfl,
    Analysis.variableIn?_eq]

theorem Kept.variableIn? {S : List Nat} {n : Nat} (h : Kept S n b b') :
    b'.variableIn? = b.variableIn? := by
  funext name t
  have hfind := congrArg (Option.map (·.find? name)) (h.scopes t)
  rw [Option.map_map, Option.map_map] at hfind
  rw [Analysis.variableIn?_eq, Analysis.variableIn?_eq]
  exact congrArg Option.join hfind

private theorem Effect.records {a : Action} (h : Effect o b a b') (hb : Sound b)
    (hl : Records l b) : Records (l ++ a.definitions.map (b, ·)) b' := by
  have hsame (ha : a.definitions = []) (hr : Records l b') :
      Records (l ++ a.definitions.map (b, ·)) b' := by rwa [ha, List.map_nil, List.append_nil]
  cases h with
  | openScope kind block strict v =>
    refine hsame rfl ?_
    have hpushed : Records l (b.pushScope (b.newScope o kind block strict v)) :=
      hl.of_vars_eq (variableIn?_pushScope b (find?_newScope o b kind block strict v))
        (vars_pushScope b _)
    split
    · have hnew : (b.pushScope (b.newScope o kind block strict v)).scopes[b.scopes.size]? =
          some (b.newScope o kind block strict v) := by
        rw [scopes_pushScope, if_pos rfl]
      refine (hpushed.ensure (·.taints.insert "arguments") hnew
        (edited_declareArguments hnew) ?_).1
      simp only [declareArguments, hnew]
      rfl
    · exact hpushed
  | closeScopes n h => exact hsame rfl (hl.of_lasting h.variableIn? h.vars)
  | beginSite | endSite => exact hsame rfl ⟨hl.bound, hl.unbound⟩
  | needScope => exact hsame rfl hl
  | @declare d s hs =>
    have hlt := hb.sites_lt s (List.mem_of_head? hs)
    have hscope := Array.getElem?_eq_getElem hlt
    generalize b.scopes[s] = scope at hscope
    let bound := (b.ensure scope.bindings s d.name.name).1.modifyScope s fun x =>
      { x with bindings := (b.ensure scope.bindings s d.name.name).2.1 }
    have hedited : Edited (fun t y => if t = s then
        { y with bindings := (b.ensure scope.bindings s d.name.name).2.1 } else y) b bound :=
      (edited_ensure b scope.bindings s d.name.name).trans (edited_modifyScope _ s _)
    obtain ⟨hbound, hv⟩ := hl.ensure (·.taints) hscope hedited rfl
    have hwell : WellFormed bound := hb.wellFormed.quiet
      (quiet_ensure (·.taints) hedited hscope (references_ensure b _ _ _) (.of_eq rfl))
    have hdeclare : b.declareIn s d =
        bound.define (b.ensure scope.bindings s d.name.name).2.2 d := by
      simp only [declareIn, hscope]
      rfl
    rw [hdeclare]
    exact hbound.define hwell hs hv
  | refer _ _ _ _ _ hvars hedited =>
    exact hsame rfl (hl.of_vars_eq (hedited.variableIn? fun t y => by split <;> rfl) hvars)
  | useThis s =>
    exact hsame rfl (hl.of_vars_eq
      ((edited_modifyScope b s _).variableIn? fun t y => by split <;> rfl) rfl)
  | callEval _ _ hvars hedited =>
    exact hsame rfl (hl.of_vars_eq (hedited.variableIn? fun t y => rfl) hvars)

/-- Every declaration is recorded with the variable of its name at its site. -/
theorem Effects.records {A : List Action} (h : Effects o b A b') (hl : Records l b) :
    Records (l ++ declarations o b A) b' := by
  induction h generalizing l with
  | nil => rwa [declarations, List.append_nil]
  | cons hb hstep h _ ih =>
    rw [declarations_cons hstep, ← List.append_assoc]
    exact ih (h.records hb hl)

/-! ## The variables of scopes in order -/

/-- Every scope lists the variables that it binds. -/
def Listed (b : Builder) : Prop :=
  ∀ (t : Nat) (y : Scope), b.scopes[t]? = some y → y.bindings.Listed

private theorem listed_ensure {bindings : Bindings} (h : bindings.Listed) (b : Builder) (s : Nat)
    (name : String) : (b.ensure bindings s name).2.1.Listed := by
  rcases b.ensure_cases bindings s name with ⟨v, -, heq⟩ | ⟨hnone, heq⟩
  · rwa [heq]
  · rw [heq]
    exact h.add hnone _

private theorem Edited.listed {edit : Nat → Scope → Scope} (h : Edited edit b b')
    (hedit : ∀ t y, b.scopes[t]? = some y → (edit t y).bindings.Listed) : Listed b' := by
  intro t y' hy'
  rw [h.scopes] at hy'
  obtain ⟨y, hy, rfl⟩ := Option.map_eq_some_iff.mp hy'
  exact hedit t y hy

private theorem Effect.listed {a : Action} (h : Effect o b a b') (hb : Sound b)
    (hlisted : Listed b) : Listed b' := by
  cases h with
  | openScope kind block strict v =>
    have hpushed : Listed (b.pushScope (b.newScope o kind block strict v)) := by
      intro t y' hy'
      rw [scopes_pushScope] at hy'
      split at hy'
      · cases hy'
        exact .empty
      · obtain ⟨y, hy, rfl⟩ := Option.map_eq_some_iff.mp hy'
        split <;> exact (hlisted t y hy :)
    split
    · have hnew : (b.pushScope (b.newScope o kind block strict v)).scopes[b.scopes.size]? =
          some (b.newScope o kind block strict v) := by
        rw [scopes_pushScope, if_pos rfl]
      refine (edited_declareArguments hnew).listed fun t y hy => ?_
      split
      · exact listed_ensure (hpushed _ _ hnew) _ b.scopes.size "arguments"
      · exact hpushed t y hy
    · exact hpushed
  | closeScopes n h =>
    intro t y' hy'
    have hlasting := h.scopes t
    rw [hy'] at hlasting
    obtain ⟨y, hy, heq⟩ := Option.map_eq_some_iff.mp hlasting.symm
    have hbindings : y.bindings = y'.bindings := (congrArg Scope.bindings heq :)
    exact hbindings ▸ hlisted t y hy
  | beginSite | endSite | needScope => exact hlisted
  | @declare d s hs =>
    have hlt := hb.sites_lt s (List.mem_of_head? hs)
    have hscope := Array.getElem?_eq_getElem hlt
    generalize b.scopes[s] = scope at hscope
    refine (edited_declareIn hscope d).listed fun t y hy => ?_
    split
    · exact listed_ensure (hlisted s scope hscope) b s _
    · exact hlisted t y hy
  | refer _ _ _ _ _ _ hedited =>
    refine hedited.listed fun t y hy => ?_
    split <;> exact (hlisted t y hy :)
  | useThis s =>
    refine (edited_modifyScope b s _).listed fun t y hy => ?_
    split <;> exact (hlisted t y hy :)
  | callEval _ _ _ hedited => exact hedited.listed fun t y hy => (hlisted t y hy :)

theorem Effects.listed {A : List Action} (h : Effects o b A b') (hlisted : Listed b) :
    Listed b' := by
  induction h with
  | nil => exact hlisted
  | cons hb _ h _ ih => exact ih (h.listed hb hlisted)

/-- The definitions of a variable of a scope are those of its name at the scope. -/
theorem Records.exists_variable (h : Records l b) (hb : WellFormed b) (hlisted : Listed b) {s : Nat}
    {y : Scope} (hy : b.scopes[s]? = some y) {v : Nat} (hv : v ∈ y.bindings.vars) :
    ∃ x, b.vars[v]? = some x ∧ y.find? x.name = some v ∧
      x.defs.toList = definitionsIn l s x.name ∧
      x.identifiers.toList = (definitionsIn l s x.name).map (·.name) := by
  obtain ⟨name, hname⟩ := (hlisted s y hy v).mp hv
  have hbound : b.variableIn? name s = some v := by
    rw [Analysis.variableIn?, hy]
    exact hname
  obtain ⟨x, hx, hdefs, hidentifiers⟩ := h.bound hbound
  obtain ⟨z, hz, -, rfl⟩ := hb.variable_eq hbound
  cases hx.symm.trans hz
  exact ⟨x, hx, hname, hdefs, hidentifiers⟩

/-- What is declared at a scope is a definition of a variable of the scope. -/
theorem Records.exists_definition (h : Records l b) (hlisted : Listed b) {s : Nat} {y : Scope}
    (hy : b.scopes[s]? = some y) {name : String} {d : Definition}
    (hd : d ∈ definitionsIn l s name) :
    ∃ v ∈ y.bindings.vars, ∃ x : Variable, b.vars[v]? = some x ∧ d ∈ x.defs := by
  cases hv : b.variableIn? name s with
  | none =>
    rw [h.unbound hv] at hd
    cases hd
  | some v =>
    obtain ⟨x, hx, hdefs, -⟩ := h.bound hv
    rw [Analysis.variableIn?, hy] at hv
    refine ⟨v, (hlisted s y hy v).mpr ⟨name, hv⟩, x, hx, ?_⟩
    rwa [← Array.mem_toList_iff, hdefs]

end Builder

end EcmaScope
