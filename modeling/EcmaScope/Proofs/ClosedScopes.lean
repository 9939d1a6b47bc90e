import EcmaScope.Proofs.Consistency
import EcmaScope.Proofs.LastScope

/-!
# Closed scopes

Names are declared in scopes other than the innermost one, `this` and `eval` are noted in the
function around, and references are let through all scopes around the one that is closed. But
whatever an action changes, it changes in scopes that are open, and in variables of such scopes. If
the nodes of a program are distinct, this is also true of declarations, since none of them goes on
after its scope has been closed. So a closed scope is final: neither the scope nor any of its
variables changes any more.

## Main definitions

* `Builder.Spares`: nothing has been changed but some scopes and their variables.
* `Builder.KeepsClosed`: closed scopes and their variables are as they were.

## Main results

* `Builder.spares_closeScope`: closing a scope changes open scopes only.
* `Builder.spares_step`: so does every action.
* `Program.closed_scopes_frozen`: no part of a walk changes what has been closed before.
-/

namespace EcmaScope

/-- Actions that find what they need do so from any point on. -/
theorem Outline.Orderly.of_append_right {w w' : Outline} {A B : List Action}
    (h : w.Orderly (A ++ B)) (hA : Run w A w') : w'.Orderly B := by
  induction hA with
  | nil => exact h
  | cons hstep _ ih => exact ih (h.2 _ hstep)

namespace Builder

variable {b b' b'' : Builder} {o : Options} {S T : List Nat} {s : Nat}

/-! ## Sparing scopes -/

/-- Nothing that was there has been changed, except the scopes `T` and their variables. -/
structure Spares (T : List Nat) (b b' : Builder) : Prop where
  scopes : ∀ {t : Nat} {y : Scope}, b.scopes[t]? = some y → t ∉ T → b'.scopes[t]? = some y
  vars : ∀ {v : Nat} {x : Variable}, b.vars[v]? = some x → x.scope ∉ T → b'.vars[v]? = some x

namespace Spares

private theorem refl (b : Builder) : Spares T b b :=
  ⟨fun hy _ => hy, fun hx _ => hx⟩

private theorem trans (h : Spares T b b') (h' : Spares T b' b'') : Spares T b b'' :=
  ⟨fun hy ht => h'.scopes (h.scopes hy ht) ht, fun hx ht => h'.vars (h.vars hx ht) ht⟩

private theorem mono (h : Spares S b b') (hST : S ⊆ T) : Spares T b b' :=
  ⟨fun hy ht => h.scopes hy fun hs => ht (hST hs), fun hx ht => h.vars hx fun hs => ht (hST hs)⟩

/-- Scopes of `T` are edited, and the variables are as they were. -/
private theorem of_edited {edit : Nat → Scope → Scope} (h : Edited edit b b')
    (hvars : b'.vars = b.vars) (hedit : ∀ t y, t ∉ T → edit t y = y) : Spares T b b' where
  scopes hy ht := by rw [h.scopes, hy, Option.map_some, hedit _ _ ht]
  vars hx _ := by rw [hvars, hx]

private theorem modifyScope (b : Builder) (hs : s ∈ T) (f : Scope → Scope) :
    Spares T b (b.modifyScope s f) := by
  refine of_edited (edited_modifyScope b s f) rfl fun t y ht => if_neg ?_
  rintro rfl
  exact ht hs

/-- Scopes of `T` and a variable of one of them are edited. -/
private theorem of_modify {edit : Nat → Scope → Scope} {v : Nat} {f : Variable → Variable}
    (h : Edited edit b b') (hedit : ∀ t y, t ∉ T → edit t y = y)
    (hvars : b'.vars = b.vars.modify v f) (hv : ∀ x, b.vars[v]? = some x → x.scope ∈ T) :
    Spares T b b' where
  scopes hy ht := by rw [h.scopes, hy, Option.map_some, hedit _ _ ht]
  vars {u x} hx ht := by
    have hne : v ≠ u := fun e => ht (hv x (e ▸ hx))
    rw [hvars, Array.getElem?_modify, if_neg hne, hx]

private theorem foldl {f : Builder → Nat → Builder} {l : List Nat}
    (hf : ∀ b, ∀ r ∈ l, Spares T b (f b r)) (b : Builder) : Spares T b (l.foldl f b) := by
  induction l generalizing b with
  | nil => exact .refl b
  | cons r l ih =>
    exact (hf b r List.mem_cons_self).trans
      (ih (fun b r hr => hf b r (List.mem_cons_of_mem _ hr)) _)

end Spares

/-! ## Declaring names -/

private theorem spares_ensure (b : Builder) (bindings : Bindings) (s : Nat) (name : String) :
    Spares T b (b.ensure bindings s name).1 where
  scopes hy _ := by rw [(edited_ensure b bindings s name).scopes, hy, Option.map_some]
  vars {v x} hx _ := by
    rcases b.ensure_cases bindings s name with ⟨u, -, heq⟩ | ⟨-, heq⟩
    · rw [heq, hx]
    · have hlt := (Array.getElem?_eq_some_iff.mp hx).1
      rw [heq, Array.getElem?_push, if_neg (Nat.ne_of_lt hlt), hx]

private theorem spares_define {v : Nat} (hv : ∀ x, b.vars[v]? = some x → x.scope ∈ T)
    (d : Definition) : Spares T b (b.define v d) :=
  .of_modify (edited_define b v d) (fun _ _ _ => rfl) (vars_define b v d) hv

/-- A definition is added to a variable of the scope `s`, which is made if it is not there. -/
theorem spares_defineIn {bindings : Bindings} {d : Definition}
    (hown : ∀ v x, bindings.find? d.name.name = some v → b.vars[v]? = some x → x.scope = s)
    (f : Scope → Scope) :
    Spares [s] b (((b.ensure bindings s d.name.name).1.modifyScope s f).define
      (b.ensure bindings s d.name.name).2.2 d) := by
  refine ((spares_ensure b bindings s d.name.name).trans
    (.modifyScope _ List.mem_cons_self f)).trans (spares_define (fun x hx => ?_) d)
  change (b.ensure bindings s d.name.name).1.vars[_]? = some x at hx
  refine List.mem_singleton.mpr ?_
  rcases b.ensure_cases bindings s d.name.name with ⟨u, hu, heq⟩ | ⟨-, heq⟩
  · rw [heq] at hx
    exact hown u x hu hx
  · rw [heq, Array.getElem?_push, if_pos rfl] at hx
    cases hx
    rfl

private theorem WellFormed.spares_declareIn (hb : WellFormed b) (s : Nat) (d : Definition) :
    Spares [s] b (b.declareIn s d) := by
  cases hs : b.scopes[s]? with
  | none =>
    rw [declareIn_eq_self hs]
    exact .refl b
  | some scope =>
    simp only [declareIn, hs]
    refine spares_defineIn (fun v x hv hx => ?_) _
    have hvariable : b.variableIn? d.name.name s = some v := by
      rw [Analysis.variableIn?_eq, hs]
      exact hv
    obtain ⟨z, hz, hscope, -⟩ := hb.variable_eq hvariable
    rw [hx] at hz
    cases hz
    exact hscope

/-- A table of a scope has variables of the scope. -/
theorem scope_of_find? {k : Origin} {bindings : Bindings} (hb : b.Kempt)
    (hbindings : b.table? s k = some bindings) {name : String} {v : Nat} {x : Variable}
    (hv : bindings.find? name = some v) (hx : b.vars[v]? = some x) : x.scope = s := by
  have htitle := ((hb.shelved.find?_iff hbindings name v).mp hv).2
  rw [Analysis.title?, hx] at htitle
  exact congrArg Prod.fst (Option.some.inj htitle)

private theorem spares_declareImplicit (hb : b.Kempt) (s : Nat) (d : Definition) :
    Spares [s] b (b.declareImplicit s d) := by
  unfold declareImplicit
  split
  · exact .refl b
  next scope hs =>
  split
  · exact .refl b
  next i hi =>
  have hbindings : b.table? s .implicit = some i.bindings := by
    rw [Analysis.table?, hs]
    simp [Scope.table?, hi]
  exact spares_defineIn (fun v x hv hx => scope_of_find? hb hbindings hv hx) _

private theorem spares_createImplicit (hb : b.Kempt) (s r : Nat) :
    Spares [s] b (b.createImplicit s r) ∧ (b.createImplicit s r).Kempt := by
  unfold createImplicit
  split
  · exact ⟨.refl b, hb⟩
  split
  · exact ⟨.refl b, hb⟩
  split
  · exact ⟨.refl b, hb⟩
  · exact ⟨spares_declareImplicit hb s _, (writes_declareImplicit b s _).kempt hb⟩

private theorem spares_createImplicits (hb : b.Kempt) (s : Nat) (left : Array Nat) :
    Spares [s] b (b.createImplicits s left) := by
  have hall (l : List Nat) {b : Builder} (hb : b.Kempt) :
      Spares [s] b (l.foldl (fun b r => b.createImplicit s r) b) := by
    induction l generalizing b with
    | nil => exact .refl b
    | cons r l ih =>
      obtain ⟨hfirst, hkempt⟩ := spares_createImplicit hb s r
      exact hfirst.trans (ih hkempt)
  exact (hall left.toList hb).trans (.modifyScope _ List.mem_cons_self _)

/-! ## Closing scopes -/

private theorem spares_resolve {r v : Nat} (hv : ∀ x, b.vars[v]? = some x → x.scope = s)
    (reference : Reference) : Spares [s] b (b.resolve s r v reference) := by
  refine .of_modify (edited_resolve b s r v reference) (fun t y ht => if_neg fun h => ?_)
    (vars_resolve b s r v reference) fun x hx => List.mem_singleton.mpr (hv x hx)
  exact ht (List.mem_singleton.mpr h.1)

private theorem spares_passOn {f : Frame} {r : Nat} (hf : b.frame? s = some f)
    (h : b.passOn s r = .ok b') : Spares (s :: f.enclosing) b b' := by
  obtain ⟨y, hy, rfl⟩ := Analysis.frame?_eq_some hf
  have hs : s ∈ s :: y.frame.enclosing := List.mem_cons_self
  simp only [passOn, hy, Option.bind_some] at h
  split at h
  · cases h
    exact .modifyScope b hs _
  · next upper hupper =>
    split at h
    · cases h
    · cases h
      have hmem : upper ∈ s :: y.frame.enclosing :=
        List.mem_cons_of_mem s (List.mem_of_head? hupper)
      exact (Spares.modifyScope b hmem _).trans (.modifyScope _ hs _)

namespace Ready

variable {optimistic : Bool} {scope : Scope} {fate : Nat → Verdict} {r : Nat} {left l : List Nat}

private theorem spares_settle (h : Ready optimistic scope fate s left b) (hb : b.BindsOwn s)
    (hsettle : b.settle s r = .ok b') : Spares (s :: scope.enclosing) b b' := by
  obtain ⟨f, hf, henclosing⟩ := h.frame
  unfold Builder.settle at hsettle
  split at hsettle
  · cases hsettle
    exact .refl b
  next x hx =>
  split at hsettle
  · next v hv =>
    cases hsettle
    refine (spares_resolve (fun z hz => ?_) x).mono (List.cons_subset_cons s (List.nil_subset _))
    obtain ⟨z', hz', hscope⟩ := hb hv
    rw [hz] at hz'
    cases hz'
    exact hscope
  · rw [← henclosing]
    exact spares_passOn hf hsettle

private theorem spares_taint (h : Ready optimistic scope fate s left b)
    (htaint : b.taint s r = .ok b') : Spares (s :: scope.enclosing) b b' := by
  obtain ⟨f, hf, henclosing⟩ := h.frame
  have hpassed : Spares (s :: f.enclosing)
      { b with references := b.references.modify r fun x => { x with tainted := true } } b' :=
    spares_passOn hf htaint
  rw [henclosing] at hpassed
  exact ⟨hpassed.scopes, hpassed.vars⟩

/-- References that are treated one after the other, each one in open scopes. -/
theorem spares_foldlM {treat : Builder → Nat → Except AnalysisError Builder}
    (htreat : ∀ {b : Builder} {r : Nat}, Ready optimistic scope fate s left b → b.BindsOwn s →
      r ∈ left → ∃ b', treat b r = .ok b' ∧ Treated fate s scope.enclosing [r] b b' ∧
        Spares (s :: scope.enclosing) b b')
    (hl : l ⊆ left) (h : Ready optimistic scope fate s left b) (hb : b.BindsOwn s)
    (hfold : l.foldlM treat b = .ok b') : Spares (s :: scope.enclosing) b b' := by
  induction l generalizing b with
  | nil =>
    cases hfold
    exact .refl _
  | cons r l ih =>
    obtain ⟨b₁, hb₁, htreated, hspares⟩ := htreat h hb (hl List.mem_cons_self)
    rw [List.foldlM_cons, hb₁] at hfold
    exact hspares.trans (ih (List.cons_subset.mp hl).2 (h.treated htreated)
      (hb.keeps htreated.variableIn? htreated.vars) hfold)

private theorem spares_settleAll (h : Ready o.optimistic scope fate s left b) (hb : b.BindsOwn s)
    (hsettle : b.settleAll o s scope left = .ok b') : Spares (s :: scope.enclosing) b b' := by
  unfold Builder.settleAll at hsettle
  split at hsettle
  · next hstatic =>
    refine spares_foldlM (fun h hb hr => ?_) (List.Subset.refl _) h hb hsettle
    obtain ⟨b₁, hb₁, htreated⟩ := h.settle hr hstatic
    exact ⟨b₁, hb₁, htreated, h.spares_settle hb hb₁⟩
  split at hsettle
  · next hstatic hkind =>
    refine spares_foldlM (fun h hb hr => ?_) (List.Subset.refl _) h hb hsettle
    obtain ⟨b₁, hb₁, htreated⟩ := h.taint hr hstatic hkind
    exact ⟨b₁, hb₁, htreated, h.spares_taint hb₁⟩
  · cases hsettle
    exact .foldl (fun b r _ => .foldl (fun b t ht => .modifyScope b ht _) b) b

end Ready

/-- Closing the innermost open scope changes nothing but open scopes and their variables. -/
theorem spares_closeScope {rest : List Nat} (hb : WellFormed b) (hj : Journeys b o.optimistic)
    (hkempt : b.Kempt) (hstack : b.stack = s :: rest) (h : b.closeScope o s = .ok b') :
    Spares b.stack b b' := by
  obtain ⟨scope, left, b₁, hsettles, rfl⟩ := exists_settles hb hj hstack h
  have hmem : s ∈ b.stack := hstack ▸ List.mem_cons_self
  have hsettled : Spares b.stack b b₁ := by
    have htreated := hsettles.ready.spares_settleAll hsettles.bindsOwn hsettles.settleAll
    rw [← hsettles.stack] at htreated
    exact (Spares.modifyScope b hmem _).trans htreated
  have hkempt₁ : b₁.Kempt := hsettles.writes.kempt hkempt
  have himplicits : Spares b.stack b
      (if scope.kind = .global then b₁.createImplicits s left else b₁) := by
    split
    · refine hsettled.trans ((spares_createImplicits hkempt₁ s left).mono ?_)
      exact List.cons_subset.mpr ⟨hmem, List.nil_subset _⟩
    · exact hsettled
  exact ⟨himplicits.scopes, himplicits.vars⟩

/-- Closing scopes at the top of the stack changes nothing but open scopes and their variables. -/
theorem spares_closeAll {l rest : List Nat} (hb : WellFormed b) (hj : Journeys b o.optimistic)
    (hkempt : b.Kempt) (hstack : b.stack = l ++ rest) (h : l.foldlM (closeScope o) b = .ok b') :
    Spares b.stack b b' := by
  -- what is open later has been open before
  let P (c : Builder) : Prop := Spares b.stack b c ∧ c.Kempt ∧ c.stack ⊆ b.stack
  suffices hP : P b' from hP.1
  refine closeAll_induction (P := P) ?_ hb hj hstack h ⟨.refl b, hkempt, List.Subset.refl _⟩
  rintro c c' s rest hc hjc hstack hclose ⟨hspares, hkempt, hsubset⟩
  have htail : c'.stack ⊆ c.stack := by
    rw [(hc.closed_of_closeScope hstack hclose).stack]
    exact List.subset_cons_self _ _
  refine ⟨hspares.trans ((spares_closeScope hc hjc hkempt hstack hclose).mono hsubset), ?_, ?_⟩
  · exact (writes_closeScope hc hjc hstack hclose).kempt hkempt
  · exact List.Subset.trans htail hsubset

/-! ## Actions -/

private theorem spares_openScope (o : Options) (b : Builder) (kind : ScopeKind) (block : Anchor)
    (strict : Bool) (v : Nat) : Spares b.stack b
      (if kind = .function && !block.isArrow then
        (b.pushScope (b.newScope o kind block strict v)).declareArguments b.scopes.size
      else b.pushScope (b.newScope o kind block strict v)) := by
  have hne {t : Nat} {y : Scope} (hy : b.scopes[t]? = some y) : t ≠ b.scopes.size :=
    Nat.ne_of_lt (Array.getElem?_eq_some_iff.mp hy).1
  have hpushed : Spares b.stack b (b.pushScope (b.newScope o kind block strict v)) := by
    refine ⟨fun {t y} hy ht => ?_, fun hx _ => by rw [vars_pushScope, hx]⟩
    have hhead : b.stack.head? ≠ some t := fun e => ht (List.mem_of_head? e)
    rw [scopes_pushScope, if_neg (hne hy), hy, Option.map_some, if_neg hhead]
  split
  · have hnew : (b.pushScope (b.newScope o kind block strict v)).scopes[b.scopes.size]? =
        some (b.newScope o kind block strict v) := by
      rw [scopes_pushScope, if_pos rfl]
    refine ⟨fun hy ht => ?_, fun hx ht => ?_⟩
    · rw [(edited_declareArguments hnew).scopes, hpushed.scopes hy ht, Option.map_some,
        if_neg (hne hy)]
    · simp only [declareArguments, hnew]
      exact (spares_ensure (T := b.stack) _ _ _ _).vars (hpushed.vars hx ht) ht
  · exact hpushed

/-- An action changes nothing but open scopes and their variables. -/
theorem spares_step {a : Action} (hb : Sound b) (hj : Journeys b o.optimistic) (hkempt : b.Kempt)
    (hpermits : b.outline.Permits a) (h : step o b a = .ok b') : Spares b.stack b b' := by
  have hwf := hb.wellFormed
  cases a with
  | openScope kind block strict =>
    obtain ⟨v, rfl⟩ := openScope_cases h
    exact spares_openScope o b kind block strict v
  | closeScopes n => exact spares_closeAll hwf hj hkempt (openFor_append hwf n).symm h
  | beginSite reach =>
    cases (hb.step h).1 with
    | beginSite => exact ⟨fun hy _ => hy, fun hx _ => hx⟩
  | endSite =>
    cases h
    exact ⟨fun hy _ => hy, fun hx _ => hx⟩
  | declare d =>
    cases (hb.step h).1 with
    | @declare _ s hs =>
      obtain ⟨t, ht, hmem⟩ := hpermits
      cases hs.symm.trans ht
      exact (hwf.spares_declareIn s d).mono (List.cons_subset.mpr ⟨hmem, List.nil_subset _⟩)
  | refer i use creator =>
    cases (hb.step h).1 with
    | refer _ _ _ hs _ hvars hedited =>
      refine .of_edited hedited hvars fun t y ht => if_neg ?_
      rintro rfl
      exact ht (List.mem_of_head? hs)
  | needScope =>
    cases (hb.step h).1 with
    | needScope => exact .refl b
  | useThis =>
    obtain ⟨s, rest, hstack, -⟩ := step_current h
    cases (useThis_of_stack hstack).symm.trans h
    exact .modifyScope b (hwf.variableScope_mem hstack) _
  | callEval =>
    obtain ⟨s, rest, hstack, -⟩ := step_current h
    have hnodup := hwf.layout.nodup_of_chained hwf.layout.chained_stack
    obtain ⟨b₁, hb₁, -, hvars, hedited⟩ := callEval_of_stack hstack hnodup
    cases hb₁.symm.trans h
    refine .of_edited hedited hvars fun t y ht => ?_
    have hne : t ≠ b.variableScope s := fun e => ht (e ▸ hwf.variableScope_mem hstack)
    have hnotMem : t ∉ b.stack.dropWhile (· ≠ b.variableScope s) := fun hmem =>
      ht ((List.dropWhile_sublist _).subset hmem)
    rw [evalEdit, decide_eq_false hne, decide_eq_false hnotMem, Bool.or_false, Bool.or_false]
  | refuseImport loc => cases h

/-! ## Runs -/

/-- Every scope that had been closed is as it was, and so are all variables that it lists. -/
def KeepsClosed (b b' : Builder) : Prop :=
  ∀ (s : Nat) (y : Scope), b.scopes[s]? = some y → y.isClosed = true →
    b'.scopes[s]? = some y ∧ ∀ bindings ∈ y.tables, ∀ v ∈ bindings.vars,
      ∃ x : Variable, b.vars[v]? = some x ∧ b'.vars[v]? = some x

private theorem KeepsClosed.trans (h : b.KeepsClosed b') (h' : b'.KeepsClosed b'') :
    b.KeepsClosed b'' := by
  intro s y hy hclosed
  obtain ⟨hy', hvars⟩ := h s y hy hclosed
  obtain ⟨hy'', hvars'⟩ := h' s y hy' hclosed
  refine ⟨hy'', fun bindings hbindings v hv => ?_⟩
  obtain ⟨x, hx, hx'⟩ := hvars bindings hbindings v hv
  obtain ⟨z, hz', hz''⟩ := hvars' bindings hbindings v hv
  rw [hx'] at hz'
  cases hz'
  exact ⟨x, hx, hz''⟩

/-- A scope that has been closed is not on the stack. -/
theorem WellFormed.not_mem_stack (hb : WellFormed b) {y : Scope} (hy : b.scopes[s]? = some y)
    (hclosed : y.isClosed = true) : s ∉ b.stack := by
  rw [← hb.layout.isOpen_iff (Analysis.frame?_of_getElem? hy)]
  simpa [Scope.frame, Scope.isClosed] using hclosed

/-- What changes open scopes only keeps the closed ones. -/
private theorem Spares.keepsClosed (h : Spares b.stack b b') (hb : WellFormed b)
    (hkempt : b.Kempt) : b.KeepsClosed b' := by
  intro s y hy hclosed
  have hs := hb.not_mem_stack hy hclosed
  refine ⟨h.scopes hy hs, fun bindings hbindings v hv => ?_⟩
  obtain ⟨k, hk⟩ := Scope.mem_tables.mp hbindings
  have htable : b.table? s k = some bindings := by rw [Analysis.table?, hy, Option.bind_some, hk]
  obtain ⟨name, htitle⟩ := hkempt.shelved.titled htable v hv
  obtain ⟨x, hx, hx'⟩ := Option.map_eq_some_iff.mp htitle
  cases hx'
  exact ⟨x, hx, h.vars hx hs⟩

/-- Actions that find what they need keep the closed scopes. -/
theorem Effects.keepsClosed {A : List Action} (h : Effects o b A b')
    (horderly : b.outline.Orderly A) (hj : Journeys b o.optimistic) (hkempt : b.Kempt) :
    b.KeepsClosed b' := by
  let P (c : Builder) : Prop := b.KeepsClosed c ∧ c.Kempt
  have hstart : P b := ⟨(Spares.refl _).keepsClosed h.start.wellFormed hkempt, hkempt⟩
  refine (h.keeps (P := P) ?_ horderly hj hstart).1
  rintro c c' a hc hj hpermits hstep - ⟨hkeeps, hkempt⟩
  have hspares := spares_step hc hj hkempt hpermits hstep
  exact ⟨hkeeps.trans (hspares.keepsClosed hc.wellFormed hkempt),
    (writes_step hc hj hstep).kempt hkempt⟩

end Builder

/-- If the nodes of a program are distinct, then nothing that is done in its walk changes a scope
that has been closed before, or a variable that such a scope lists. Here `part` is any stretch of
the actions of the program: those of a statement or of an expression anywhere in it, a single action
that closes scopes, or what is done up to an import that is refused. -/
theorem Program.closed_scopes_frozen {o : Options} {p : Program} {before part after : List Action}
    {b b' : Builder} (hids : (Tree.ids p).Nodup)
    (hactions : Program.actions o p = before ++ part ++ after)
    (hbefore : Builder.run o {} before = .ok b) (hpart : Builder.run o b part = .ok b') :
    b.KeepsClosed b' := by
  have horderly : Outline.empty.Orderly (before ++ part) := by
    have hall := Program.orderly_actions o hids
    rw [hactions] at hall
    exact hall.of_append
  have heffects := Builder.Sound.empty.run hbefore
  have hran := heffects.ran .empty
  have hnone : Builder.Journeys {} o.optimistic := fun r x hx => by simp at hx
  have hkempt : b.Kempt := (heffects.writes horderly.of_append hnone).kempt Builder.kempt_empty
  have hmoves := hran.moves.mono fun _ : True => horderly.of_append
  exact (heffects.sound.run hpart).keepsClosed (horderly.of_append_right hran.outline)
    (hmoves.journeys .empty hnone) hkempt

/-- In `for (let x of function f() { x });` the function closes the scope in which `x` is reserved,
together with its own two scopes. What comes after that, beginning with the loop that closes the
scope of `x` once more, leaves the three scopes and their variables as they are. -/
theorem Program.closed_scopes_frozen_loop : (Tree.ids (Program.loopOverFunction id)).Nodup ∧
    ∃ b b' : Builder,
      Builder.run .es6 {} ((Program.actions .es6 (.loopOverFunction id)).take 14) = .ok b ∧
      Builder.run .es6 b ((Program.actions .es6 (.loopOverFunction id)).drop 14) = .ok b' ∧
      b.scopes.toList.map (fun y => (y.isClosed, y.bindings.vars.toList)) =
        [(false, []), (true, [0]), (true, [1]), (true, [2])] ∧
      b'.scopes.size = 5 ∧ b.KeepsClosed b' := by
  have hids : (Tree.ids (Program.loopOverFunction id)).Nodup := by decide
  have hbefore : (Builder.run .es6 {}
      ((Program.actions .es6 (.loopOverFunction id)).take 14)).toOption.map (fun b =>
        b.scopes.toList.map fun y => (y.isClosed, y.bindings.vars.toList)) =
      some [(false, []), (true, [0]), (true, [1]), (true, [2])] := by decide +kernel
  have hpart : (Builder.run .es6 {} ((Program.actions .es6 (.loopOverFunction id)).take 14) >>=
      fun b => Builder.run .es6 b
        ((Program.actions .es6 (.loopOverFunction id)).drop 14)).toOption.map
          (fun b' => b'.scopes.size) = some 5 := by decide +kernel
  cases hb : Builder.run .es6 {} ((Program.actions .es6 (.loopOverFunction id)).take 14) with
  | error e =>
    rw [hb] at hbefore
    cases hbefore
  | ok b =>
    rw [hb] at hbefore hpart
    change (Builder.run .es6 b _).toOption.map _ = _ at hpart
    cases hb' : Builder.run .es6 b ((Program.actions .es6 (.loopOverFunction id)).drop 14) with
    | error e =>
      rw [hb'] at hpart
      cases hpart
    | ok b' =>
      rw [hb'] at hpart
      have hactions : Program.actions .es6 (.loopOverFunction id) =
          (Program.actions .es6 (.loopOverFunction id)).take 14 ++
            (Program.actions .es6 (.loopOverFunction id)).drop 14 ++ [] := by
        rw [List.take_append_drop, List.append_nil]
      exact ⟨hids, b, b', rfl, hb', Option.some.inj hbefore, Option.some.inj hpart,
        Program.closed_scopes_frozen hids hactions hb hb'⟩

end EcmaScope
