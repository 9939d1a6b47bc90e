import EcmaScope.Proofs.Consistency
import EcmaScope.Proofs.Deeds
import EcmaScope.Proofs.Definitions
import EcmaScope.Proofs.LastScope

/-!
# Variables that nothing declares

An assignment to a name that nothing declares makes a global variable, unless the code is strict.
Whether something declares the name is known when the global scope is closed. The references that
are left over then are gone through one after the other, and those that may create a variable add a
definition to the variable of their name in a table of its own, which is empty before.

## Main definitions

* `Analysis.creation?`: the definition that a reference adds, if any.
* `Builder.Created`: the variables of the table have the given definitions.
* `Analysis.CreatesGlobal`: a reference that makes a global variable if its name is not declared.
* `Program.Assigns`: a construct of the program assigns to the name that is defined.

## Main results

* `Builder.Last.created`: what has been made when the global scope is closed.
* `Program.implicit_spec`: which references may create variables, and by which constructs.
* `Program.implicits_exact`: the table has the variables that it should have, and nothing else has.
-/

namespace EcmaScope

/-! ## Which references may create variables -/

namespace Builder

variable {b b' : Builder} {o : Options} {s : Nat}

/-- Scopes stay as strict as they are. -/
theorem Effects.isStrict_eq {A : List Action} (h : Effects o b A b') (hs : s < b.scopes.size) :
    b'.isStrict s = b.isStrict s := by
  have hwell := h.start.wellFormed
  obtain ⟨f, hf⟩ := hwell.layout.exists_frame hs
  obtain ⟨children, isOpen, hf'⟩ := (h.ran hwell).moves.exists_frame hwell hf
  obtain ⟨y, hy, rfl⟩ := Analysis.frame?_eq_some hf
  obtain ⟨y', hy', hframe⟩ := Analysis.frame?_eq_some hf'
  have hstrict : y'.isStrict = y.isStrict := congrArg Frame.isStrict hframe
  rw [isStrict, hy', isStrict, hy, Option.any_some, Option.any_some, hstrict]

/-- A reference has been made by using its name, and it may create a variable if the use may and
its scope is not strict. -/
theorem Effects.mem_record {A : List Action} (h : Effects o b A b') {x : Reference}
    (hx : x ∈ b'.record) : x ∈ b.record ∨ ∃ creator, .refer x.identifier x.use creator ∈ A ∧
      x.implicit = if b'.isStrict x.scope then none else creator := by
  induction h with
  | nil => exact Or.inl hx
  | @cons b b₁ b' a A hb hstep heffect hA ih =>
    rcases ih hx with hx₁ | ⟨creator, hmem, himplicit⟩
    · rcases heffect.record_cases with ⟨-, heq⟩ | ⟨i, use, creator, s, rfl, hs, heq⟩
      · exact Or.inl (heq ▸ hx₁)
      · rw [heq, List.mem_append, List.mem_singleton] at hx₁
        refine hx₁.imp_right fun hnew => ⟨creator, ?_, ?_⟩
        · rw [hnew]
          exact List.mem_cons_self
        · have hlt : s < b.scopes.size := hb.wellFormed.layout.stack_lt (List.mem_of_head? hs)
          have hstrict := (Effects.cons hb hstep heffect hA).isStrict_eq hlt
          rw [hnew, newReference, hstrict]
    · exact Or.inr ⟨creator, List.mem_cons_of_mem a hmem, himplicit⟩

end Builder

/-- A reference that makes a global variable if its name is not declared: it is not resolved, it
assigns to the name, it is not in strict code, and it has come up to the global scope. -/
structure Analysis.CreatesGlobal (a : Analysis) (optimistic : Bool) (x : Reference) : Prop where
  resolved : x.resolved = none
  isWriteOnly : x.isWriteOnly = true
  isInit : x.use.isInit = false
  isStrict : ∃ y, a.scopes[x.scope]? = some y ∧ y.isStrict = false
  surfaces : a.Surfaces optimistic x.scope

/-- The definition `d` is at an assignment or at a loop over a value, where the name that it defines
is a target of the pattern that is assigned to. -/
def Program.Assigns (o : Options) (p : Program) (d : Definition) : Prop :=
  ∃ u ∈ Program.pieces o p, u.role ≠ .skipped ∧ ∃ left, u.tree.assigned? = some (d.node, left) ∧
    ∃ t ∈ Pat.targets left, t.identifier = d.name

/-- A reference is made in a scope. -/
theorem Program.exists_scope_of_reference {o : Options} {p : Program} {a : Analysis}
    (hids : (Tree.ids p).Nodup) (h : Program.analyze o p = .ok a) {r : Nat} {x : Reference}
    (hx : a.references[r]? = some x) : ∃ y, a.scopes[x.scope]? = some y := by
  obtain ⟨b, rfl, hb⟩ := Program.exists_finished h
  obtain ⟨f, -, -, hf, -⟩ := (hb.journeys hids r x hx).ended hb.wellFormed hb.stack
  obtain ⟨y, hy, -⟩ := Analysis.frame?_eq_some hf
  exact ⟨y, hy⟩

/-- Exactly those references may create variables that assign to a name and are not in strict code,
and the construct that creates the variable assigns to the name. -/
theorem Program.implicit_spec {o : Options} {p : Program} {a : Analysis}
    (hids : (Tree.ids p).Nodup) (h : Program.analyze o p = .ok a) {r : Nat} {x : Reference}
    (hx : a.references[r]? = some x) :
    ((∃ creator, x.implicit = some creator) ↔ x.isWriteOnly = true ∧ x.use.isInit = false ∧
        ∃ y, a.scopes[x.scope]? = some y ∧ y.isStrict = false) ∧
      ∀ creator, x.implicit = some creator →
        Program.Assigns o p ⟨.implicitGlobal, x.identifier, creator⟩ := by
  obtain ⟨y, hy⟩ := Program.exists_scope_of_reference hids h hx
  obtain ⟨b, rfl, heffects⟩ := Program.exists_effects h
  have hmem : x.lasting ∈ b.record :=
    List.mem_map_of_mem (Array.mem_toList_iff.mpr (Array.mem_of_getElem? hx))
  obtain ⟨creator, haction, himplicit⟩ :
      ∃ creator, .refer x.identifier x.use creator ∈ Program.actions o p ∧
        x.implicit = if y.isStrict then none else creator := by
    rcases heffects.mem_record hmem with hold | ⟨creator, haction, himplicit⟩
    · cases hold
    · refine ⟨creator, haction, himplicit.trans ?_⟩
      change (if b.isStrict x.scope then none else creator) = _
      rw [Builder.isStrict, hy, Option.any_some]
  obtain ⟨u, hu, hrole, hheeds⟩ := Program.heeds haction
  have hstrict : (∃ z, b.scopes[x.scope]? = some z ∧ z.isStrict = false) ↔ y.isStrict = false := by
    simp [hy]
  rw [hstrict, ← and_assoc, Reference.isWriteOnly, ← Use.assigns_iff, himplicit]
  cases creator with
  | none =>
    have hassigns : x.use.assigns = false := hheeds
    simp [hassigns]
  | some anchor =>
    obtain ⟨hassigns, left, hleft, htarget⟩ := hheeds
    refine ⟨by simp [hassigns], fun creator hcreator => ?_⟩
    split at hcreator
    · cases hcreator
    · cases hcreator
      exact ⟨u, hu, hrole, left, hleft, htarget⟩

/-! ## What is created -/

/-- The definition that a reference adds to a variable of the scope `s` which nothing declares. -/
def Analysis.creation? (a : Analysis) (s r : Nat) : Option Definition :=
  (a.references[r]?).bind fun x => x.implicit.bind fun creator =>
    if (a.variableIn? x.name s).isSome then none
    else some ⟨.implicitGlobal, x.identifier, creator⟩

theorem Analysis.creation?_eq_some_iff {a : Analysis} {s r : Nat} {d : Definition} :
    a.creation? s r = some d ↔ ∃ x creator, a.references[r]? = some x ∧
      x.implicit = some creator ∧ a.variableIn? x.name s = none ∧
      d = ⟨.implicitGlobal, x.identifier, creator⟩ := by
  simp only [creation?, Option.bind_eq_some_iff]
  refine exists_congr fun x => ?_
  rw [← exists_and_left]
  refine exists_congr fun creator => and_congr_right fun _ => and_congr_right fun _ => ?_
  cases a.variableIn? x.name s with
  | none => simp [eq_comm]
  | some v => simp

namespace Builder

variable {b b' : Builder} {o : Options} {s : Nat} {D : List Definition} {bindings : Bindings}

theorem createImplicit_eq (b : Builder) (s r : Nat) :
    b.createImplicit s r = (b.creation? s r).elim b (b.declareImplicit s) := by
  unfold createImplicit Analysis.creation?
  cases b.references[r]? with
  | none => rfl
  | some x =>
    cases hcreator : x.implicit with
    | none => simp [hcreator]
    | some creator =>
      cases hv : b.variableIn? x.name s <;> simp [hcreator, hv]

/-- The variables that nothing declares in the scope `s` are found by `bindings`, and each has those
definitions of `D` that are of its name. -/
structure Created (s : Nat) (D : List Definition) (bindings : Bindings) (b : Builder) : Prop where
  table : b.table? s .implicit = some bindings
  found : ∀ {name : String} {v : Nat}, bindings.find? name = some v →
    ∃ z, b.vars[v]? = some z ∧ z.name = name ∧ z.defs.toList = D.filter (·.name.name = name)
  find?_isSome : ∀ name, (bindings.find? name).isSome = true ↔ ∃ d ∈ D, d.name.name = name

theorem find?_ensure_eq (b : Builder) (bindings : Bindings) (s : Nat) (name n : String) :
    (b.ensure bindings s name).2.1.find? n =
      if n = name then some (b.ensure bindings s name).2.2 else bindings.find? n := by
  rcases b.ensure_cases bindings s name with ⟨v, hv, heq⟩ | ⟨hnone, heq⟩
  · rw [heq]
    split
    · next hn => rw [hn, hv]
    · rfl
  · rw [heq, Bindings.find?_add]

theorem scopes_ensure (b : Builder) (bindings : Bindings) (s : Nat) (name : String) :
    (b.ensure bindings s name).1.scopes = b.scopes := by
  rcases b.ensure_cases bindings s name with ⟨v, -, heq⟩ | ⟨-, heq⟩ <;> rw [heq]

/-- As long as no reference is treated, references create what they did. -/
theorem Treated.creation?_eq {fate : Nat → Verdict} {enclosing : List Nat}
    (h : Treated fate s enclosing [] b b') : b'.creation? s = b.creation? s := by
  funext r
  have hreferences : b'.references[r]? = b.references[r]? := by
    simpa using h.references r
  rw [Analysis.creation?, hreferences, h.variableIn?, Analysis.creation?]

namespace Created

/-- A variable that has to be made has no definitions yet. -/
theorem found_ensure (h : Created s D bindings b) (name : String) {n : String} {u : Nat}
    (hu : (b.ensure bindings s name).2.1.find? n = some u) :
    ∃ z, (b.ensure bindings s name).1.vars[u]? = some z ∧ z.name = n ∧
      z.defs.toList = D.filter (·.name.name = n) := by
  rcases b.ensure_cases bindings s name with ⟨v, -, heq⟩ | ⟨hnone, heq⟩
  · rw [heq] at hu ⊢
    exact h.found hu
  · rw [heq] at hu ⊢
    rw [Bindings.find?_add] at hu
    split at hu
    · next hn =>
      cases hu
      refine ⟨_, by rw [Array.getElem?_push, if_pos rfl], hn.symm,
        (List.filter_eq_nil_iff.mpr ?_).symm⟩
      intro d hd hname
      have hsome := (h.find?_isSome name).mpr ⟨d, hd, (of_decide_eq_true hname).trans hn⟩
      rw [hnone] at hsome
      cases hsome
    · obtain ⟨z, hz, hname, hdefs⟩ := h.found hu
      have hlt := (Array.getElem?_eq_some_iff.mp hz).1
      exact ⟨z, by rw [Array.getElem?_push, if_neg (Nat.ne_of_lt hlt), hz], hname, hdefs⟩

/-- A definition is added to the variable of its name. -/
theorem declareImplicit (h : Created s D bindings b) (d : Definition) :
    ∃ bindings', Created s (D ++ [d]) bindings' (b.declareImplicit s d) := by
  obtain ⟨y, hy, htable⟩ := Option.bind_eq_some_iff.mp h.table
  obtain ⟨i, hi, rfl⟩ := Option.map_eq_some_iff.mp htable
  have hfound {n : String} {u : Nat} := h.found_ensure d.name.name (n := n) (u := u)
  have hfind := b.find?_ensure_eq i.bindings s d.name.name
  have hscopes := b.scopes_ensure i.bindings s d.name.name
  obtain ⟨b₁, bindings, v, hensure⟩ :
    ∃ b₁ bindings v, b.ensure i.bindings s d.name.name = (b₁, bindings, v) := ⟨_, _, _, rfl⟩
  simp only [hensure] at hfound hfind hscopes
  have heq : b.declareImplicit s d = (b₁.modifyScope s fun x =>
      { x with implicit := some { i with bindings := bindings } }).define v d := by
    simp only [Builder.declareImplicit, hy]
    rw [hi]
    simp only [hensure]
  have hvars (u : Nat) : (b.declareImplicit s d).vars[u]? = if v = u then
      (b₁.vars[u]?).map fun z =>
        { z with defs := z.defs.push d, identifiers := z.identifiers.push d.name }
      else b₁.vars[u]? := by
    rw [heq, vars_define, Array.getElem?_modify]
    rfl
  refine ⟨bindings, ?_, fun {n u} hu => ?_, fun n => ?_⟩
  · rw [heq, Analysis.table?, scopes_define, (edited_modifyScope _ s _).scopes, hscopes, hy]
    simp [Scope.table?]
  · obtain ⟨z, hz, rfl, hdefs⟩ := hfound hu
    rw [hfind] at hu
    by_cases hn : z.name = d.name.name
    · rw [if_pos hn] at hu
      have hz' := hvars u
      rw [if_pos (Option.some.inj hu), hz, Option.map_some] at hz'
      refine ⟨_, hz', rfl, ?_⟩
      simp [hdefs, List.filter_append, hn]
    · have hne : v ≠ u := by
        rintro rfl
        obtain ⟨z', hz', hname, -⟩ := hfound ((hfind _).trans (if_pos rfl))
        cases hz.symm.trans hz'
        exact hn hname
      refine ⟨z, by rw [hvars, if_neg hne, hz], rfl, ?_⟩
      simp [hdefs, List.filter_append, Ne.symm hn]
  · rw [hfind]
    by_cases hn : n = d.name.name
    · simp [hn]
    · rw [if_neg hn, h.find?_isSome]
      simp [Ne.symm hn]

/-- The references are gone through one after the other. -/
theorem createImplicit (h : Created s D bindings b) (l : List Nat) :
    ∃ bindings', Created s (D ++ l.filterMap (b.creation? s)) bindings'
      (l.foldl (fun b r => b.createImplicit s r) b) := by
  induction l generalizing b D bindings with
  | nil => exact ⟨bindings, by simpa using h⟩
  | cons r l ih =>
    -- a definition that is added does not change what the other references create
    have hsame : (b.createImplicit s r).creation? s = b.creation? s :=
      (treated_createImplicit (fun _ => .unknown) [] b s r).creation?_eq
    obtain ⟨bindings₁, h₁⟩ : ∃ bindings₁,
        Created s (D ++ (b.creation? s r).toList) bindings₁ (b.createImplicit s r) := by
      rw [createImplicit_eq]
      cases b.creation? s r with
      | none => exact ⟨bindings, by simpa using h⟩
      | some d => exact h.declareImplicit d
    obtain ⟨bindings', h'⟩ := ih h₁
    refine ⟨bindings', ?_⟩
    rw [hsame, List.append_assoc] at h'
    rw [List.filterMap_cons]
    cases hr : b.creation? s r with
    | none => simpa [hr] using h'
    | some d => simpa [hr] using h'

end Created

/-- The references that are left over are kept in the table when all have been gone through. -/
theorem scopes_createImplicits (b : Builder) (s : Nat) (left : Array Nat) :
    (b.createImplicits s left).scopes[s]? =
      ((left.toList.foldl (fun b r => b.createImplicit s r) b).scopes[s]?).map fun x =>
        { x with implicit := x.implicit.map fun i => { i with left := left } } := by
  rw [createImplicits, (edited_modifyScope _ s _).scopes]
  simp only [if_pos]

namespace Last

/-- When the references that are left over are gone through, no variable has been created yet. -/
theorem exists_settled (h : Last o b b') :
    ∃ (left : Array Nat) (b₁ : Builder) (y : Scope), b.pendingOf 0 = left.toList ∧
      b₁.scopes[0]? = some y ∧ y.implicit = some {} ∧
      b' = { b₁.createImplicits 0 left with stack := (b₁.createImplicits 0 left).stack.tail } := by
  obtain ⟨scope, hscope, hkind⟩ := h.kind
  obtain ⟨scope, left, b₁, hscope', hleft, hsettle, rfl⟩ := closeScope_cases h.close
  cases hscope.symm.trans hscope'
  have hwaiting : Kept [] b.vars.size b (b.stopWaiting 0) :=
    .modifyScope b 0 _ (fun _ => rfl) fun _ _ => rfl
  have himplicit := (hwaiting.trans (kept_settleAll hsettle)).implicit 0 List.not_mem_nil
  rw [hscope, Option.map_some, h.barren hscope, if_pos hkind] at himplicit
  obtain ⟨y, hy, hi⟩ := Option.map_eq_some_iff.mp himplicit
  exact ⟨left, b₁, y, by simp [Analysis.pendingOf, hscope, hleft], hy, hi, by rw [if_pos hkind]⟩

/-- When the global scope is closed, its table has what the references that are left over create. -/
theorem created (h : Last o b b') :
    ∃ (y : Scope) (i : ImplicitGlobals), b'.scopes[0]? = some y ∧ y.kind = .global ∧
      y.implicit = some i ∧ i.left.toList = b.pendingOf 0 ∧
      Created 0 ((b.pendingOf 0).filterMap (b'.creation? 0)) i.bindings b' := by
  obtain ⟨scope, hscope, hkind⟩ := h.kind
  obtain ⟨y', hy', hkind'⟩ := h.closed.exists_kind hscope
  obtain ⟨left, b₁, y₁, hpendingOf, hy₁, hi, rfl⟩ := h.exists_settled
  have hempty : Created 0 [] {} b₁ := by
    refine ⟨?_, fun {name v} hv => ?_, fun name => ?_⟩
    · rw [Analysis.table?, hy₁, Option.bind_some, Scope.table?, hi, Option.map_some]
    · simp [Bindings.find?] at hv
    · simp [Bindings.find?]
  obtain ⟨bindings, hcreated⟩ := hempty.createImplicit left.toList
  have hsame : (b₁.createImplicits 0 left).creation? 0 = b₁.creation? 0 :=
    (treated_createImplicits (fun _ => .unknown) 0 [] left b₁).creation?_eq
  obtain ⟨y, hy, htable⟩ := Option.bind_eq_some_iff.mp hcreated.table
  obtain ⟨i, hi, rfl⟩ := Option.map_eq_some_iff.mp htable
  have hscopes := b₁.scopes_createImplicits 0 left
  rw [hy, Option.map_some, hi, Option.map_some] at hscopes
  cases hy'.symm.trans hscopes
  refine ⟨_, { i with left := left }, hscopes, hkind'.trans hkind, rfl, hpendingOf.symm, ?_⟩
  rw [hpendingOf]
  change Created 0 (left.toList.filterMap ((b₁.createImplicits 0 left).creation? 0)) i.bindings _
  rw [hsame]
  refine ⟨?_, hcreated.found, hcreated.find?_isSome⟩
  rw [Analysis.table?]
  change Option.bind ((b₁.createImplicits 0 left).scopes[0]?) _ = _
  exact Option.bind_eq_some_iff.mpr ⟨_, hscopes, rfl⟩

/-- What is created is created by the references that have come up to the global scope, which does
not declare their names. -/
theorem mem_creations_iff (h : Last o b b') {d : Definition} :
    d ∈ (b.pendingOf 0).filterMap (b'.creation? 0) ↔
      ∃ (r : Nat) (x : Reference) (creator : Anchor), b'.references[r]? = some x ∧
        x.implicit = some creator ∧ b'.variableIn? x.name 0 = none ∧
        (x.resolved = none ∧ b'.Surfaces o.optimistic x.scope) ∧
        d = ⟨.implicitGlobal, x.identifier, creator⟩ := by
  simp only [List.mem_filterMap, Analysis.creation?_eq_some_iff]
  constructor
  · rintro ⟨r, hr, x, creator, hx, himplicit, hnone, hd⟩
    exact ⟨r, x, creator, hx, himplicit, hnone, (h.waits_iff hx hnone).mp hr, hd⟩
  · rintro ⟨r, x, creator, hx, himplicit, hnone, hwaits, hd⟩
    exact ⟨r, (h.waits_iff hx hnone).mpr hwaits, x, creator, hx, himplicit, hnone, hd⟩

/-- No other scope is a global one, and no other has a table for variables that nothing declares. -/
theorem implicit_eq_none (h : Last o b b') {t : Nat} {y' : Scope} (hy' : b'.scopes[t]? = some y')
    (ht : t ≠ 0) : y'.kind ≠ .global ∧ y'.implicit = none := by
  have hunsettled : Unsettled b := by
    intro t y i name hy _ hi
    rw [h.barren hy] at hi
    split at hi
    · cases hi
      simp [Bindings.find?]
    · cases hi
  have hkept := kept_closeScope hunsettled h.close
  obtain ⟨y, hy, hsame, himplicit⟩ := hkept.exists_scope hy'
  have hkind : y.kind ≠ .global := fun hkind => by
    have hmem := h.globalsOpen hy hkind
    rw [h.stack, List.mem_singleton] at hmem
    exact ht hmem
  rw [hsame, himplicit (by simpa using ht), h.barren hy, if_neg hkind]
  exact ⟨hkind, rfl⟩

end Last

end Builder

/-! ## The table -/

/-- The tables of an analysis fit. -/
theorem Program.kempt {o : Options} {p : Program} {a : Analysis} (hids : (Tree.ids p).Nodup)
    (h : Program.analyze o p = .ok a) : a.Kempt := by
  obtain ⟨b, rfl, heffects⟩ := Program.exists_effects h
  exact (heffects.writes (Program.orderly_actions o hids) fun r x hx => by simp at hx).kempt
    Builder.kempt_empty

/-- What a scope binds is not a variable that nothing declares. -/
theorem Analysis.Kempt.variableIn?_ne {a : Analysis} (h : a.Kempt) {s t v : Nat} {name : String}
    {bindings : Bindings} (hs : a.table? s .implicit = some bindings) (hv : v ∈ bindings.vars) :
    a.variableIn? name t ≠ some v := by
  intro hbound
  obtain ⟨y, hy, hfind⟩ := Option.bind_eq_some_iff.mp hbound
  have ht : a.table? t .declared = some y.bindings := by
    rw [Analysis.table?, hy]
    rfl
  obtain ⟨hmem, htitle⟩ := (h.shelved.find?_iff ht name v).mp hfind
  obtain ⟨name', htitle'⟩ := h.shelved.titled hs v hv
  cases htitle.symm.trans htitle'
  cases h.shelved.origin_eq hs ht hv hmem

/-- A reference that has been resolved stands for a variable that a scope binds. -/
theorem Program.exists_variableIn? {o : Options} {p : Program} {a : Analysis}
    (hids : (Tree.ids p).Nodup) (h : Program.analyze o p = .ok a) {r v : Nat} {x : Reference}
    (hx : a.references[r]? = some x) (hv : x.resolved = some v) :
    ∃ t, a.variableIn? x.name t = some v := by
  obtain ⟨c, rfl, hc⟩ := Program.exists_finished h
  obtain ⟨z, -, -, -, hbound⟩ :=
    (hc.journeys hids r x hx).exists_variable hc.wellFormed hc.stack hv
  exact ⟨z.scope, hbound⟩

/-- A variable that no reference stands for has no references. -/
theorem Analysis.Kempt.references_eq_empty {a : Analysis} (h : a.Kempt) {v : Nat} {z : Variable}
    (hz : a.vars[v]? = some z)
    (hnone : ∀ (r : Nat) (x : Reference), a.references[r]? = some x → x.resolved ≠ some v) :
    z.references = #[] := by
  have hcredit : a.credit? v = some (z.scope, z.references, z.stack) := by
    rw [Analysis.credit?, hz, Option.map_some]
  refine Array.eq_empty_iff_forall_not_mem.mpr fun r hr => ?_
  obtain ⟨t, hmeaning⟩ := (h.credited.mem_iff hcredit r).mp hr
  obtain ⟨x, hx, -, hresolved⟩ := Analysis.meaning?_eq_some_iff.mp hmeaning
  exact hnone r x hx hresolved

/-- A variable that a scope binds is declared, so no reference has created it. -/
theorem Program.kind_ne_of_variableIn? {o : Options} {p : Program} {a : Analysis}
    (h : Program.analyze o p = .ok a) {name : String} {t v : Nat} {z : Variable}
    (hv : a.variableIn? name t = some v) (hz : a.vars[v]? = some z) {d : Definition}
    (hd : d ∈ z.defs) : d.kind ≠ .implicitGlobal := by
  obtain ⟨b, rfl, heffects⟩ := Program.exists_effects h
  obtain ⟨z', hz', hdefs, -⟩ := (heffects.records .empty).bound hv
  cases hz.symm.trans hz'
  rw [← Array.mem_toList_iff, hdefs] at hd
  obtain ⟨c, hc, -⟩ := Builder.mem_definitionsIn.mp hd
  obtain ⟨B, C, hactions, -⟩ := heffects.mem_declarations hc
  obtain ⟨u, -, -, hheeds⟩ : ∃ u ∈ Program.pieces o p, u.role ≠ .skipped ∧
      (Action.declare d).Heeds u.tree.assigned? :=
    Program.heeds (by rw [hactions]; exact List.mem_append_right B List.mem_cons_self)
  exact hheeds

/-- If the nodes of a program are distinct, its first scope is the global one and has a table of the
variables that nothing declares. These have the names that the scope does not declare and that
references create which have come up to it. They belong to the scope, no reference stands for them,
and they are defined where their names are assigned to. No other variable is defined like this, and
no other scope has such a table. -/
theorem Program.implicits_exact {o : Options} {p : Program} {a : Analysis}
    (hids : (Tree.ids p).Nodup) (h : Program.analyze o p = .ok a) :
    ∃ y i, a.scopes[0]? = some y ∧ y.kind = .global ∧ y.implicit = some i ∧
      (∀ n, (∃ v, i.bindings.find? n = some v) ↔ y.find? n = none ∧
        ∃ (r : Nat) (x : Reference), a.references[r]? = some x ∧ x.name = n ∧
          a.CreatesGlobal o.optimistic x) ∧
      (∀ v ∈ i.bindings.vars, ∃ z, a.vars[v]? = some z ∧ i.bindings.find? z.name = some v ∧
        z.scope = 0 ∧ z.references = #[] ∧
        ∀ d ∈ z.defs, d.kind = .implicitGlobal ∧ d.name.name = z.name ∧ Program.Assigns o p d) ∧
      (∀ (v : Nat) (z : Variable) (d : Definition), a.vars[v]? = some z → d ∈ z.defs →
        d.kind = .implicitGlobal → v ∈ i.bindings.vars) ∧
      ∀ (t : Nat) (z : Scope), a.scopes[t]? = some z → t ≠ 0 →
        z.kind ≠ .global ∧ z.implicit = none := by
  have hkempt := Program.kempt hids h
  obtain ⟨b, b', rfl, hlast⟩ := Program.exists_last hids h
  obtain ⟨y, i, hy, hkind, hi, -, hcreated⟩ := hlast.created
  have hfind (n : String) : b'.variableIn? n 0 = y.find? n := by
    rw [Analysis.variableIn?_eq, hy]
    rfl
  refine ⟨y, i, hy, hkind, hi, fun n => ?_, fun v hv => ?_, fun v z d hz hd hdkind => ?_,
    fun t z hz ht => hlast.implicit_eq_none hz ht⟩
  · rw [← Option.isSome_iff_exists, hcreated.find?_isSome, ← hfind]
    constructor
    · rintro ⟨d, hd, rfl⟩
      obtain ⟨r, x, creator, hx, himplicit, hnone, ⟨hresolved, hsurfaces⟩, rfl⟩ :=
        hlast.mem_creations_iff.mp hd
      obtain ⟨hwrite, hinit, hstrict⟩ :=
        (Program.implicit_spec hids h hx).1.mp ⟨creator, himplicit⟩
      exact ⟨hnone, r, x, hx, rfl, hresolved, hwrite, hinit, hstrict, hsurfaces⟩
    · rintro ⟨hnone, r, x, hx, rfl, hcreates⟩
      obtain ⟨creator, himplicit⟩ := (Program.implicit_spec hids h hx).1.mpr
        ⟨hcreates.isWriteOnly, hcreates.isInit, hcreates.isStrict⟩
      exact ⟨_, hlast.mem_creations_iff.mpr ⟨r, x, creator, hx, himplicit, hnone,
        ⟨hcreates.resolved, hcreates.surfaces⟩, rfl⟩, rfl⟩
  · obtain ⟨name, htitle⟩ := hkempt.shelved.titled hcreated.table v hv
    have hname := (hkempt.shelved.find?_iff hcreated.table name v).mpr ⟨hv, htitle⟩
    obtain ⟨z, hz, rfl, hdefs⟩ := hcreated.found hname
    have hscope := (Analysis.title?_eq_some_iff.mp htitle).1
    rw [hz, Option.map_some] at hscope
    refine ⟨z, hz, hname, Option.some.inj hscope, ?_, fun d hd => ?_⟩
    · refine hkempt.references_eq_empty hz fun r x hx hresolved => ?_
      obtain ⟨t, hbound⟩ := Program.exists_variableIn? hids h hx hresolved
      exact hkempt.variableIn?_ne hcreated.table hv hbound
    · rw [← Array.mem_toList_iff, hdefs, List.mem_filter, decide_eq_true_iff] at hd
      obtain ⟨r, x, creator, hx, himplicit, -, -, rfl⟩ := hlast.mem_creations_iff.mp hd.1
      exact ⟨rfl, hd.2, (Program.implicit_spec hids h hx).2 creator himplicit⟩
  · have htitle : b'.title? v = some (z.scope, z.name) := by
      rw [Analysis.title?, hz, Option.map_some]
    obtain ⟨k, bindings, hbindings, hv⟩ := hkempt.shelved.listed htitle
    obtain ⟨w, hw, hwtable⟩ := Option.bind_eq_some_iff.mp hbindings
    cases k with
    | declared =>
      cases hwtable
      have hbound := (hkempt.shelved.find?_iff hbindings z.name v).mpr ⟨hv, htitle⟩
      have hvariable : b'.variableIn? z.name z.scope = some v :=
        Option.bind_eq_some_iff.mpr ⟨w, hw, hbound⟩
      exact absurd hdkind (Program.kind_ne_of_variableIn? h hvariable hz hd)
    | implicit =>
      by_cases hscope : z.scope = 0
      · rw [hscope] at hbindings
        cases hcreated.table.symm.trans hbindings
        exact hv
      · rw [Scope.table?, (hlast.implicit_eq_none hw hscope).2] at hwtable
        cases hwtable

/-- The program `with (o) for (x of o) y = x;`. -/
def Program.assignInWith : Program :=
  let mark (n : Nat) : Mark := ⟨n, ⟨n, n⟩⟩
  .program (mark 0) (.cons (.withStatement (mark 1) (.identifier ⟨mark 2, "o"⟩)
    (.iterationStatement .forOf (mark 3) (.targetPattern (.identifierPattern ⟨mark 4, "x"⟩))
      (.identifier ⟨mark 5, "o"⟩)
      (.expressionStatement (mark 6) (.assignmentExpression (mark 7) .assign
        (.identifierPattern ⟨mark 8, "y"⟩) (.identifier ⟨mark 9, "x"⟩)) none) false)) .nil)

/-- A loop and an assignment inside a `with` create global variables, since nothing declares their
names. -/
theorem Program.implicits_exact_with : (Tree.ids Program.assignInWith).Nodup ∧
    ∃ a y i z, Program.analyze {} .assignInWith = .ok a ∧ a.scopes[0]? = some y ∧
      y.implicit = some i ∧ i.bindings.vars.toList = [0, 1] ∧
      (∃ (r : Nat) (x : Reference), a.references[r]? = some x ∧ x.name = "y" ∧
        a.CreatesGlobal false x) ∧
      a.vars[1]? = some z ∧ i.bindings.find? z.name = some 1 ∧ z.references = #[] ∧
      ∀ d ∈ z.defs, Program.Assigns {} .assignInWith d := by
  have hids : (Tree.ids Program.assignInWith).Nodup := by decide
  have hvalue : (Program.analyze {} .assignInWith).toOption.bind (fun a =>
      ((a.scopes[0]?).bind (·.implicit)).map fun i =>
        (i.bindings.vars.toList, i.bindings.find? "y")) = some ([0, 1], some 1) := by
    decide +kernel
  cases h : Program.analyze {} .assignInWith with
  | error e =>
    rw [h] at hvalue
    cases hvalue
  | ok a =>
    obtain ⟨y, i, hy, -, hi, hnames, hvars, -⟩ := Program.implicits_exact hids h
    rw [h] at hvalue
    simp only [Except.toOption, Option.bind_some, hy, hi, Option.map_some, Option.some.injEq,
      Prod.mk.injEq] at hvalue
    obtain ⟨z, hz, hfind, -, hreferences, hdefs⟩ :=
      hvars 1 (Array.mem_toList_iff.mp (by rw [hvalue.1]; decide))
    exact ⟨hids, a, y, i, z, rfl, hy, hi, hvalue.1, ((hnames "y").mp ⟨1, hvalue.2⟩).2, hz, hfind,
      hreferences, fun d hd => (hdefs d hd).2.2⟩

end EcmaScope
