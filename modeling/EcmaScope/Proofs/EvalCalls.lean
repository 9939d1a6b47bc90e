import EcmaScope.Proofs.ScopeTree
import EcmaScope.Proofs.Uses

/-!
# Calls of `eval` and dynamic scopes

A scope is dynamic by its kind, or because code in it, or in a scope inside it, calls `eval`. The
call is noted in the function around it in the middle of the walk; that it does not matter where the
call stands in the function is seen by following the cores of the scopes from action to action.

## Main definitions

* `Analysis.CallsEval`: a call of `eval` has been noted in a scope.
* `DynamicAround`: the dynamic scopes are those around such scopes.

## Main results

* `Builder.Effects.dynamicAround`: no action makes other scopes dynamic.
* `Builder.Effects.exists_call`: a call is noted only when `eval` is called.
* `Program.dynamic_iff_callsEval`: which scopes are dynamic, and in which calls are noted.
-/

namespace EcmaScope

/-- A call of `eval` has been noted in the scope. -/
def Analysis.CallsEval (a : Analysis) (d : Nat) : Prop :=
  ∃ y, a.core? d = some y ∧ y.directEval = true

/-- The dynamic scopes are those that are so by their kind, and those around calls of `eval`. -/
def DynamicAround (core? : Nat → Option Scope) : Prop :=
  ∀ s y, core? s = some y → (y.dynamic = true ↔ y.kind.isDynamic = true ∨
    ∃ t z, core? t = some z ∧ s ∈ t :: z.enclosing ∧ z.directEval = true)

private theorem Analysis.core?_of_getElem? {a : Analysis} {s : Nat} {y : Scope}
    (h : a.scopes[s]? = some y) : a.core? s = some y.core := by
  rw [core?, h]
  rfl

private theorem Analysis.core?_eq_some {a : Analysis} {s : Nat} {z : Scope}
    (h : a.core? s = some z) : ∃ y, a.scopes[s]? = some y ∧ y.core = z :=
  Option.map_eq_some_iff.mp h

namespace Builder

variable {b b' : Builder} {o : Options}

/-! ## Dynamic scopes -/

/-- From a scope on, the open scopes are those around it. -/
theorem WellFormed.dropWhile_stack (hb : WellFormed b) {f : Nat} (hf : f ∈ b.stack) :
    ∃ z, b.core? f = some z ∧ b.stack.dropWhile (· ≠ f) = f :: z.enclosing := by
  obtain ⟨g, l, hg, hstack⟩ := hb.layout.chained_stack.exists_frame hf
  obtain ⟨y, hy, rfl⟩ := Analysis.frame?_eq_some hg
  refine ⟨y.core, Analysis.core?_of_getElem? hy, ?_⟩
  have hnodup := hb.layout.nodup_of_chained hb.layout.chained_stack
  rw [hstack] at hnodup ⊢
  have hne : ∀ t ∈ l, decide (t ≠ f) = true := fun t ht =>
    decide_eq_true fun heq => (List.nodup_append.mp hnodup).2.2 t ht f List.mem_cons_self heq
  rw [List.dropWhile_append_of_pos hne, List.dropWhile_cons_of_neg (by simp)]
  rfl

/-- A call of `eval` makes dynamic what is around the function that calls it. -/
theorem DynamicAround.evalEdit {core? core?' : Nat → Option Scope} (h : DynamicAround core?)
    {f : Nat} {z : Scope} (hz : core? f = some z)
    (hcore : ∀ t, core?' t = (core? t).map (evalEdit f (f :: z.enclosing) t)) :
    DynamicAround core?' := by
  have hedit {t : Nat} {u : Scope} (hu : core? t = some u) :
      core?' t = some (Builder.evalEdit f (f :: z.enclosing) t u) := by
    rw [hcore, hu]
    rfl
  intro s y' hy'
  rw [hcore] at hy'
  obtain ⟨y, hy, rfl⟩ := Option.map_eq_some_iff.mp hy'
  simp only [Builder.evalEdit, Bool.or_eq_true, decide_eq_true_eq, h s y hy]
  constructor
  · rintro ((hkind | ⟨t, u, hu, hmem, hcalls⟩) | hmem)
    · exact .inl hkind
    · exact .inr ⟨t, _, hedit hu, hmem, by simp [Builder.evalEdit, hcalls]⟩
    · exact .inr ⟨f, _, hedit hz, hmem, by simp [Builder.evalEdit]⟩
  · rintro (hkind | ⟨t, u', hu', hmem, hcalls⟩)
    · exact .inl (.inl hkind)
    · rw [hcore] at hu'
      obtain ⟨u, hu, rfl⟩ := Option.map_eq_some_iff.mp hu'
      simp only [Builder.evalEdit, Bool.or_eq_true, decide_eq_true_eq] at hcalls
      rcases hcalls with hcalls | rfl
      · exact .inl (.inr ⟨t, u, hu, hmem, hcalls⟩)
      · rw [hz] at hu
        cases hu
        exact .inr hmem

/-- A scope that is opened is dynamic by its kind or not at all. -/
theorem DynamicAround.opened {core? core?' : Nat → Option Scope} (h : DynamicAround core?)
    {size : Nat} {x : Scope} (hcore : ∀ t, core?' t = if t = size then some x else core? t)
    (hnone : core? size = none)
    (henclosing : ∀ t z, core? t = some z → size ∉ z.enclosing)
    (hdynamic : x.dynamic = x.kind.isDynamic) (hcalls : x.directEval = false) :
    DynamicAround core?' := by
  intro s y hy
  have hold {t : Nat} {z : Scope} (hz : core?' t = some z) (hzcalls : z.directEval = true) :
      core? t = some z := by
    rw [hcore] at hz
    split at hz
    · cases hz
      rw [hcalls] at hzcalls
      cases hzcalls
    · exact hz
  by_cases hs : s = size
  · rw [hcore, if_pos hs] at hy
    cases hy
    rw [hdynamic]
    refine ⟨.inl, ?_⟩
    rintro (hkind | ⟨t, z, hz, hmem, hzcalls⟩)
    · exact hkind
    · have hz := hold hz hzcalls
      rcases List.mem_cons.mp hmem with rfl | hmem
      · rw [hs, hnone] at hz
        cases hz
      · exact absurd (hs ▸ hmem) (henclosing t z hz)
  · rw [hcore, if_neg hs] at hy
    rw [h s y hy]
    refine or_congr_right ⟨?_, ?_⟩
    · rintro ⟨t, z, hz, hmem, hzcalls⟩
      refine ⟨t, z, ?_, hmem, hzcalls⟩
      rw [hcore, if_neg]
      · exact hz
      · rintro rfl
        rw [hnone] at hz
        cases hz
    · rintro ⟨t, z, hz, hmem, hzcalls⟩
      exact ⟨t, z, hold hz hzcalls, hmem, hzcalls⟩

private theorem Effect.dynamicAround {a : Action} (h : Effect o b a b') (hb : WellFormed b)
    (hdynamic : DynamicAround b.core?) : DynamicAround b'.core? := by
  rcases h.core? with ⟨kind, block, strict, v, -, hcore⟩ | ⟨-, s, hs, hcore⟩ | ⟨-, -, hcore⟩
  · refine DynamicAround.opened hdynamic hcore ?_ (fun t z hz hmem => ?_) rfl rfl
    · simp [Analysis.core?]
    · obtain ⟨y, hy, rfl⟩ := Analysis.core?_eq_some hz
      have hf := Analysis.frame?_of_getElem? hy
      have hlt := hb.layout.enclosing_lt hf _ hmem
      have hsize := hb.layout.lt_size hf
      omega
  · obtain ⟨rest, hstack⟩ := List.head?_eq_some_iff.mp hs
    obtain ⟨z, hz, haround⟩ := hb.dropWhile_stack (hb.variableScope_mem hstack)
    rw [haround] at hcore
    exact DynamicAround.evalEdit hdynamic hz hcore
  · rwa [hcore]

/-- No action makes other scopes dynamic than those around calls of `eval`. -/
theorem Effects.dynamicAround {A : List Action} (h : Effects o b A b')
    (hdynamic : DynamicAround b.core?) : DynamicAround b'.core? := by
  induction h with
  | nil => exact hdynamic
  | cons hb _ h _ ih => exact ih (h.dynamicAround hb.wellFormed hdynamic)

/-! ## Noted calls -/

/-- A call of `eval` is noted in the function that the innermost open scope belongs to. -/
theorem Effect.callsEval_iff {a : Action} (h : Effect o b a b') (hb : WellFormed b) (d : Nat) :
    b'.CallsEval d ↔ b.CallsEval d ∨
      a = .callEval ∧ ∃ s, b.stack.head? = some s ∧ b.variableScope s = d := by
  rcases h.core? with ⟨kind, block, strict, v, rfl, hcore⟩ | ⟨rfl, s, hs, hcore⟩ | ⟨-, ha, hcore⟩
  · simp only [Analysis.CallsEval, hcore, reduceCtorEq, false_and, or_false]
    split
    · next hd =>
      refine ⟨?_, ?_⟩
      · rintro ⟨y, hy, hcalls⟩
        cases hy
        cases hcalls
      · rintro ⟨y, hy, -⟩
        simp [Analysis.core?, hd] at hy
    · rfl
  · obtain ⟨rest, hstack⟩ := List.head?_eq_some_iff.mp hs
    obtain ⟨z, hz, -⟩ := hb.dropWhile_stack (hb.variableScope_mem hstack)
    constructor
    · rintro ⟨y', hy', hcalls⟩
      rw [hcore] at hy'
      obtain ⟨y, hy, rfl⟩ := Option.map_eq_some_iff.mp hy'
      simp only [evalEdit, Bool.or_eq_true, decide_eq_true_eq] at hcalls
      rcases hcalls with hcalls | hd
      · exact .inl ⟨y, hy, hcalls⟩
      · exact .inr ⟨rfl, s, hs, hd.symm⟩
    · rintro (⟨y, hy, hcalls⟩ | ⟨-, u, hu, rfl⟩)
      · exact ⟨_, by rw [hcore, hy]; rfl, by simp [evalEdit, hcalls]⟩
      · cases hs.symm.trans hu
        exact ⟨_, by rw [hcore, hz]; rfl, by simp [evalEdit]⟩
  · simp only [Analysis.CallsEval, hcore, ha, false_and, or_false]

/-- A call that has been noted stays so. -/
theorem Effects.callsEval {A : List Action} (h : Effects o b A b') {d : Nat}
    (hd : b.CallsEval d) : b'.CallsEval d := by
  induction h with
  | nil => exact hd
  | cons hb _ h _ ih => exact ih ((h.callsEval_iff hb.wellFormed d).mpr (.inl hd))

/-- A call is noted only when `eval` is called. -/
theorem Effects.exists_call {A : List Action} (h : Effects o b A b') {d : Nat}
    (hd : b'.CallsEval d) (hnot : ¬ b.CallsEval d) :
    ∃ B C b₁ s, A = B ++ .callEval :: C ∧ Effects o b₁ (.callEval :: C) b' ∧
      b₁.stack.head? = some s ∧ b₁.variableScope s = d := by
  induction h with
  | nil => exact absurd hd hnot
  | @cons b b₁ _ a A hb hstep h hA ih =>
    by_cases hfirst : b₁.CallsEval d
    · obtain ⟨rfl, s, hs, hvariable⟩ :=
        ((h.callsEval_iff hb.wellFormed d).mp hfirst).resolve_left hnot
      exact ⟨[], A, b, s, rfl, .cons hb hstep h hA, hs, hvariable⟩
    · obtain ⟨B, C, b₂, s, rfl, hrest, hs, hvariable⟩ := ih hd hfirst
      exact ⟨a :: B, C, b₂, s, rfl, hrest, hs, hvariable⟩

/-- Where `eval` is called and its name is read right after, the call is noted in the function of
the scope in which the name is read. -/
theorem Effects.call {i : Identifier} {C : List Action}
    (h : Effects o b (.callEval :: .refer i .read none :: C) b') :
    ∃ s y, b.stack.head? = some s ∧ b'.scopes[s]? = some y ∧
      y.variableScope = b.variableScope s ∧ b'.CallsEval y.variableScope ∧
      ∃ x ∈ b'.references, x.identifier = i ∧ x.use.flag = Use.flag .read ∧ x.scope = s := by
  have hwhole := h
  cases h with
  | cons hb hstep heffect hrest =>
  have hnoted := hrest
  cases hrest with
  | @cons b₁ b₂ _ _ _ hb₁ hstep₁ heffect₁ hrest =>
  cases heffect with
  | @callEval _ s hs hreferences hvars hedited =>
  obtain ⟨rest, hstack⟩ := List.head?_eq_some_iff.mp hs
  have hchained := hb.wellFormed.layout.chained_stack
  rw [hstack] at hchained
  obtain ⟨f, hf, -⟩ := hchained.frame
  obtain ⟨children, isOpen, hf'⟩ :=
    (hwhole.ran hb.wellFormed).moves.exists_frame hb.wellFormed hf
  obtain ⟨y, hy, hyf⟩ := Analysis.frame?_eq_some hf'
  have hvariable : y.variableScope = b.variableScope s := by
    obtain ⟨z, hz, rfl⟩ := Analysis.frame?_eq_some hf
    rw [variableScope, hz]
    exact congrArg Frame.variableScope hyf
  obtain ⟨l, hrecord, huses, hscope⟩ := heffect₁.record
  obtain ⟨x, rfl⟩ : ∃ x, l = [x] := by
    rw [← List.length_eq_one_iff]
    simpa [Action.uses] using congrArg List.length huses
  have hx : x ∈ b'.record := hrest.record_prefix.subset (by simp [hrecord])
  obtain ⟨x', hx', rfl⟩ := List.mem_map.mp hx
  have hi : x'.identifier = i ∧ x'.use.flag = Use.flag .read := by
    simpa [Action.uses, Reference.lasting] using huses
  have hinnermost := hscope _ List.mem_cons_self
  rw [hedited.stack, hs] at hinnermost
  refine ⟨s, y, hs, hy, hvariable, ?_, x', Array.mem_toList_iff.mp hx', hi.1, hi.2,
    (Option.some.inj hinnermost).symm⟩
  rw [hvariable]
  refine hnoted.callsEval ?_
  exact ((Effect.callEval (o := o) hs hreferences hvars hedited).callsEval_iff hb.wellFormed _).mpr
    (.inr ⟨rfl, s, hs, rfl⟩)

end Builder

/-! ## Calls in programs -/

/-- The callees of a piece that calls `eval`, if that is of interest. -/
theorem Piece.mem_evalCallees_iff {o : Options} {u : Piece} {i : Identifier} :
    i ∈ u.evalCallees o ↔ o.ignoreEval = false ∧ i.name = "eval" ∧
      ∃ role m arguments, role ≠ .skipped ∧
        u = ⟨_, role, .callExpression m (.identifier i) arguments false⟩ := by
  constructor
  · intro hi
    obtain ⟨c, role, t⟩ := u
    have hlooked : role ≠ .skipped ∧ i ∈ t.evalCallees o := by
      cases role with
      | skipped => cases hi
      | _ => exact ⟨nofun, hi⟩
    obtain ⟨hrole, hcallee⟩ := hlooked
    clear hi
    unfold Tree.evalCallees at hcallee
    split at hcallee
    · next m j arguments =>
      split at hcallee
      · next hj =>
        cases List.mem_singleton.mp hcallee
        exact ⟨hj.1, hj.2, role, m, arguments, hrole, rfl⟩
      · cases hcallee
    · cases hcallee
  · rintro ⟨hignore, hname, role, m, arguments, hrole, rfl⟩
    have hi : i ∈ Tree.evalCallees o (.callExpression m (.identifier i) arguments false) := by
      simp [Tree.evalCallees, hignore, hname]
    cases role with
    | skipped => exact absurd rfl hrole
    | _ => exact hi

/-- The calls in the ledger of pieces are theirs. -/
private theorem ledger_calls (o : Options) (P : List Piece) :
    (ledger o P).2.2 = ↑(P.flatMap (Piece.evalCallees o)) := by
  induction P with
  | nil => rfl
  | cons u P ih =>
    rw [ledger_cons, Prod.snd_add, Prod.snd_add, ih, List.flatMap_cons, ← Multiset.coe_add]
    rfl

/-- In the actions of a program, the calls of `eval` are those of its pieces, each one directly
before the read of its callee. -/
theorem Program.pairs (o : Options) (p : Program) :
    Phrase.Pairs ↑((Program.pieces o p).flatMap (Piece.evalCallees o)) (Program.actions o p) := by
  obtain ⟨strict, -, L, A, hactions, -, ⟨M, -, hphrase⟩, hledger⟩ := Program.speaks o p
  have hcalls : L.2.2 = ↑((Program.pieces o p).flatMap (Piece.evalCallees o)) := by
    rw [← ledger_calls, hledger, Prod.snd_add, Prod.snd_add]
    simp [Ledger.openings]
  rw [← hcalls, hactions]
  exact (hphrase.pairs.after (by simp)).before (by simp)

/-- A role in which a name is read is that of code. -/
theorem Role.eq_code_of_mem_flags {role : Role} (h : Use.flag .read ∈ role.flags) :
    role = .code := by
  cases role with
  | code => rfl
  | updated => simp [flags, Use.flag] at h
  | target values => simp [flags, Use.flag] at h
  | head | body | skipped => cases h

/-- What is read in one place is referred to there only. -/
theorem Program.eq_of_read {o : Options} {p : Program} {a : Analysis} (hids : (Tree.ids p).Nodup)
    (h : Program.analyze o p = .ok a) {x y : Reference} (hx : x ∈ a.references)
    (hy : y ∈ a.references) (hread : x.use.flag = Use.flag .read)
    (hsame : y.identifier = x.identifier) : y = x := by
  obtain ⟨role, hrole, hflag⟩ := Program.exists_role_of_mem h hx
  rw [hread] at hflag
  cases Role.eq_code_of_mem_flags hflag
  have hflags := congrArg List.length (Program.flags_of_mem hids h hrole)
  rw [List.length_map] at hflags
  obtain ⟨z, hz⟩ := List.length_eq_one_iff.mp hflags
  have hmem {w : Reference} (hw : w ∈ a.references) (hid : w.identifier = x.identifier) :
      w = z := by
    rw [← List.mem_singleton, ← hz, List.mem_filter]
    exact ⟨Array.mem_toList_iff.mpr hw, by simp [hid]⟩
  rw [hmem hx rfl, hmem hy hsame]

/-- A scope is dynamic if it is so by its kind, or if a call is noted in it or inside it. -/
theorem Program.isStatic_eq_false_iff {o : Options} {p : Program} {a : Analysis}
    (h : Program.analyze o p = .ok a) {s : Nat} {y : Scope} (hy : a.scopes[s]? = some y) :
    y.isStatic = false ↔ y.kind ∈ [.global, .withStatement] ∨
      ∃ t z, a.Inside t s ∧ a.scopes[t]? = some z ∧ z.directEval = true := by
  obtain ⟨b, rfl, heffects⟩ := Program.exists_effects h
  have hlayout := heffects.sound.wellFormed.layout
  have hempty : DynamicAround ({} : Builder).core? := by
    intro t z hz
    simp [Analysis.core?] at hz
  have hdynamic := heffects.dynamicAround hempty s _ (Analysis.core?_of_getElem? hy)
  have hkind : y.kind.isDynamic = true ↔ y.kind ∈ [.global, .withStatement] := by
    cases y.kind <;> decide
  rw [Scope.isStatic, Bool.not_eq_false', ← hkind]
  refine hdynamic.trans (or_congr_right ⟨?_, ?_⟩)
  · rintro ⟨t, z, hz, hmem, hcalls⟩
    obtain ⟨w, hw, rfl⟩ := Analysis.core?_eq_some hz
    exact ⟨t, w, (Analysis.inside_iff hlayout (Analysis.frame?_of_getElem? hw)).mpr hmem, hw,
      hcalls⟩
  · rintro ⟨t, z, hinside, hz, hcalls⟩
    exact ⟨t, z.core, Analysis.core?_of_getElem? hz,
      (Analysis.inside_iff hlayout (Analysis.frame?_of_getElem? hz)).mp hinside, hcalls⟩

/-- A call that is noted is that of a callee of the program, which is read in a scope where `var`
declares for the noting scope. -/
theorem Program.exists_callee {o : Options} {p : Program} {a : Analysis}
    (h : Program.analyze o p = .ok a) {d : Nat} {z : Scope} (hz : a.scopes[d]? = some z)
    (hcalls : z.directEval = true) :
    ∃ i ∈ (Program.pieces o p).flatMap (Piece.evalCallees o), ∃ x ∈ a.references,
      x.identifier = i ∧ ∃ y, a.scopes[x.scope]? = some y ∧ y.variableScope = d := by
  obtain ⟨b, rfl, heffects⟩ := Program.exists_effects h
  have hnot : ¬ ({} : Builder).CallsEval d := by
    rintro ⟨y, hy, -⟩
    simp [Analysis.core?] at hy
  obtain ⟨B, C, b₁, s, hactions, hrest, hs, hvariable⟩ :=
    heffects.exists_call ⟨z.core, Analysis.core?_of_getElem? hz, hcalls⟩ hnot
  obtain ⟨i, hi, D, rfl⟩ := (Program.pairs o p).2 B C hactions
  obtain ⟨t, y, ht, hy, hyvariable, -, x, hx, hxi, -, hxscope⟩ := hrest.call
  cases hs.symm.trans ht
  exact ⟨i, Multiset.mem_coe.mp hi, x, hx, hxi, y, hxscope ▸ hy, hyvariable.trans hvariable⟩

/-- Where a callee of the program is read, the call has been noted. -/
theorem Program.directEval_of_callee {o : Options} {p : Program} {a : Analysis}
    (hids : (Tree.ids p).Nodup) (h : Program.analyze o p = .ok a) {x : Reference}
    (hi : x.identifier ∈ (Program.pieces o p).flatMap (Piece.evalCallees o))
    (hx : x ∈ a.references) {y z : Scope} (hy : a.scopes[x.scope]? = some y)
    (hz : a.scopes[y.variableScope]? = some z) : z.directEval = true := by
  obtain ⟨b, rfl, heffects⟩ := Program.exists_effects h
  obtain ⟨B, D, hactions⟩ := (Program.pairs o p).1 x.identifier (Multiset.mem_coe.mpr hi)
  rw [← hactions, List.append_assoc] at heffects
  obtain ⟨b₁, -, hrest⟩ := heffects.exists_of_append
  obtain ⟨s, y', -, hy', -, hnoted, x', hx', hxi', hread, hscope⟩ := Builder.Effects.call hrest
  -- the callee is read in one place, so the reference is the one that was made with the call
  cases Program.eq_of_read hids h hx' hx hread hxi'.symm
  rw [hscope, hy'] at hy
  cases hy
  obtain ⟨w, hw, hcalls⟩ := hnoted
  cases hw.symm.trans (Analysis.core?_of_getElem? hz)
  exact hcalls

/-- A scope is dynamic if and only if it is so by its kind, or a call of `eval` has been noted in it
or in a scope inside it. A call is noted in a scope if and only if calls are of interest and the
program calls `eval` by its name somewhere where the scope binds what `var` declares. -/
theorem Program.dynamic_iff_callsEval {o : Options} {p : Program} {a : Analysis}
    (hids : (Tree.ids p).Nodup) (h : Program.analyze o p = .ok a) :
    (∀ (s : Nat) (y : Scope), a.scopes[s]? = some y → (y.isStatic = false ↔
      y.kind ∈ [.global, .withStatement] ∨
        ∃ t z, a.Inside t s ∧ a.scopes[t]? = some z ∧ z.directEval = true)) ∧
    ∀ (d : Nat) (z : Scope), a.scopes[d]? = some z → (z.directEval = true ↔
      o.ignoreEval = false ∧ ∃ role m i arguments, role ≠ .skipped ∧ i.name = "eval" ∧
        ⟨_, role, .callExpression m (.identifier i) arguments false⟩ ∈ Program.pieces o p ∧
        ∃ x ∈ a.references, x.identifier = i ∧
          ∃ y, a.scopes[x.scope]? = some y ∧ y.variableScope = d) := by
  refine ⟨fun s y hy => Program.isStatic_eq_false_iff h hy, fun d z hz => ⟨fun hcalls => ?_, ?_⟩⟩
  · obtain ⟨i, hi, x, hx, hxi, y, hy, hvariable⟩ := Program.exists_callee h hz hcalls
    obtain ⟨u, hu, hui⟩ := List.mem_flatMap.mp hi
    obtain ⟨hignore, hname, role, m, arguments, hrole, rfl⟩ := Piece.mem_evalCallees_iff.mp hui
    exact ⟨hignore, role, m, i, arguments, hrole, hname, hu, x, hx, hxi, y, hy, hvariable⟩
  · rintro ⟨hignore, role, m, i, arguments, hrole, hname, hu, x, hx, rfl, y, hy, rfl⟩
    refine Program.directEval_of_callee hids h (List.mem_flatMap.mpr ⟨_, hu, ?_⟩) hx hy hz
    exact Piece.mem_evalCallees_iff.mpr ⟨hignore, hname, role, m, arguments, hrole, rfl⟩

/-- The program `function f() { { eval(); } }`. -/
def Program.evalInBlock : Program :=
  let mark (n : Nat) : Mark := ⟨n, ⟨n, n⟩⟩
  .program (mark 0) (.cons (.functionDeclaration (.function .declaration (mark 1)
    (some ⟨mark 2, "f"⟩) .nil (.blockBody (.block (mark 3) (.cons (.blockStatement (.block (mark 4)
      (.cons (.expressionStatement (mark 5) (.callExpression (mark 6)
        (.identifier ⟨mark 7, "eval"⟩) .nil false) none) .nil))) .nil))) false false false)) .nil)

/-- A call in a block is noted in the function around it, which is dynamic. -/
theorem Program.dynamic_iff_callsEval_block : (Tree.ids Program.evalInBlock).Nodup ∧
    ∃ a y, Program.analyze .es6 Program.evalInBlock = .ok a ∧ a.scopes[1]? = some y ∧
      y.kind = .function ∧ y.isStatic = false ∧
      ∃ x ∈ a.references, x.identifier.name = "eval" ∧
        ∃ z, a.scopes[x.scope]? = some z ∧ z.variableScope = 1 := by
  have hids : (Tree.ids Program.evalInBlock).Nodup := by decide
  have hscope : ((Program.analyze .es6 Program.evalInBlock).toOption.bind
    fun a => (a.scopes[1]?).map fun y => (y.kind, y.directEval)) = some (.function, true) := by
    decide +kernel
  cases h : Program.analyze .es6 Program.evalInBlock with
  | error e =>
    rw [h] at hscope
    cases hscope
  | ok a =>
    rw [h] at hscope
    obtain ⟨y, hy, hyeq⟩ := Option.map_eq_some_iff.mp hscope
    obtain ⟨hkind, hcalls⟩ := Prod.mk.inj hyeq
    obtain ⟨hdynamic, hnoted⟩ := Program.dynamic_iff_callsEval hids h
    obtain ⟨-, -, -, i, -, -, hname, -, x, hx, rfl, z, hz, hvariable⟩ := (hnoted 1 y hy).mp hcalls
    exact ⟨hids, a, y, rfl, hy, hkind, (hdynamic 1 y hy).mpr (.inr ⟨1, y, .refl, hy, hcalls⟩),
      x, hx, hname, z, hz, hvariable⟩

end EcmaScope
