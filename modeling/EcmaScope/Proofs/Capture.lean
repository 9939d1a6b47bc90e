import EcmaScope.Proofs.ImplicitGlobals
import EcmaScope.Proofs.Taints

/-!
# Captured names

A scope that binds a name captures its uses inside: a reference either stands for a variable of the
scope or of a scope inside it, or it is lost on the way, in a scope that `eval` may add names to. It
never gets to the scopes around. A `with` on the way does not matter, since the reference goes on
through it.

Every function that is not an arrow binds the name `arguments`, so it captures all uses of it.

## Main definitions

* `Builder.GivesArguments`: the functions bind the name `arguments`.

## Main results

* `Program.captured`: a scope captures the names that it binds.
* `Program.arguments_captured`: what is known of a function that does not need its `arguments`, and
  of one that does.
-/

namespace EcmaScope

namespace Analysis

variable {a : Analysis} {optimistic : Bool} {name : String} {m : Option Nat} {s t v : Nat}
  {y : Scope}

/-- A name that occurs inside a scope that binds it means a variable of a scope up to that one, or
the walk ends in a scope up to that one. -/
theorem Means.captured (h : a.Means optimistic name (some t) m) (hinside : a.Inside t s)
    (hy : a.scopes[s]? = some y) (hkind : y.kind ≠ .withStatement) (hv : y.find? name = some v) :
    (∃ u w, m = some w ∧ a.Inside u s ∧ a.variableIn? name u = some w) ∨
      m = none ∧ optimistic = false ∧ ∃ u z, a.Inside t u ∧ a.Inside u s ∧
        a.scopes[u]? = some z ∧ z.isStatic = false ∧ z.kind ≠ .withStatement := by
  have hbound {u w : Nat} {z : Scope} (hz : a.scopes[u]? = some z) (hw : z.find? name = some w) :
      a.variableIn? name u = some w := by
    rw [variableIn?_eq, hz]
    exact hw
  induction hinside using Relation.ReflTransGen.head_induction_on with
  | refl =>
    cases h with
    | bound hy' _ hw => exact .inl ⟨s, _, rfl, .refl, hbound hy' hw⟩
    | unbound hy' _ hnone =>
      cases hy.symm.trans hy'
      cases hv.symm.trans hnone
    | hidden hy' _ hwith =>
      cases hy.symm.trans hy'
      exact absurd hwith hkind
    | unknown hy' hunsure hwith =>
      exact .inr ⟨rfl, hunsure.2, s, _, .refl, .refl, hy', hunsure.1, hwith⟩
  | @head t u hu hinside ih =>
    have hon {z : Scope} (hz : a.scopes[t]? = some z)
        (h : a.Means optimistic name z.upper? m) :
        (∃ u w, m = some w ∧ a.Inside u s ∧ a.variableIn? name u = some w) ∨
          m = none ∧ optimistic = false ∧ ∃ u z, a.Inside t u ∧ a.Inside u s ∧
            a.scopes[u]? = some z ∧ z.isStatic = false ∧ z.kind ≠ .withStatement := by
      have hupper : z.upper? = some u := by
        rw [upper?, hz] at hu
        exact hu
      rw [hupper] at h
      refine (ih h).imp_right fun ⟨hm, hoptimistic, w, z, htw, hrest⟩ => ?_
      exact ⟨hm, hoptimistic, w, z, .head hu htw, hrest⟩
    cases h with
    | bound hz _ hw => exact .inl ⟨t, _, rfl, .head hu hinside, hbound hz hw⟩
    | unbound hz _ _ h => exact hon hz h
    | hidden hz _ _ h => exact hon hz h
    | unknown hz hunsure hwith =>
      exact .inr ⟨rfl, hunsure.2, t, _, .refl, .head hu hinside, hz, hunsure.1, hwith⟩

end Analysis

section

variable {o : Options} {p : Program} {a : Analysis} {s : Nat} {y : Scope}

/-- Inside a scope that is not a global one, no scope is. -/
theorem Program.kind_ne_global_of_inside (hids : (Tree.ids p).Nodup)
    (h : Program.analyze o p = .ok a) (hy : a.scopes[s]? = some y) (hkind : y.kind ≠ .global)
    {t : Nat} {z : Scope} (hinside : a.Inside t s) (hz : a.scopes[t]? = some z) :
    z.kind ≠ .global := by
  obtain ⟨b, rfl, hb⟩ := Program.exists_finished h
  by_cases ht : t = 0
  · subst ht
    have hmem := (Analysis.inside_iff hb.wellFormed.layout (Analysis.frame?_of_getElem? hz)).mp
      hinside
    rcases List.mem_cons.mp hmem with rfl | hmem
    · cases hy.symm.trans hz
      exact hkind
    · exact absurd (hb.wellFormed.layout.enclosing_lt (Analysis.frame?_of_getElem? hz) s hmem)
        (Nat.not_lt_zero s)
  · obtain ⟨b₁, b₂, hb₂, hlast⟩ := Program.exists_last hids h
    exact (hlast.implicit_eq_none (hb₂ ▸ hz) ht).1

/-- A scope captures the names that it binds: a reference inside stands for a variable of the scope
or of a scope inside it, or else a call of `eval` has made a scope on the way dynamic. -/
theorem Program.captured (hids : (Tree.ids p).Nodup) (h : Program.analyze o p = .ok a)
    (hy : a.scopes[s]? = some y) (hkind : y.kind ∉ [.global, .withStatement]) {r v : Nat}
    {x : Reference} (hx : a.references[r]? = some x) (hv : y.find? x.name = some v)
    (hinside : a.Inside x.scope s) :
    (∃ w z, x.resolved = some w ∧ a.vars[w]? = some z ∧ a.variableIn? x.name z.scope = some w ∧
        a.Inside z.scope s) ∨
      x.resolved = none ∧ o.optimistic = false ∧ ∃ u z, a.Inside x.scope u ∧ a.Inside u s ∧
        a.scopes[u]? = some z ∧ z.isStatic = false ∧
        ∃ d w, a.Inside d u ∧ a.scopes[d]? = some w ∧ w.directEval = true := by
  have hkinds : y.kind ≠ .global ∧ y.kind ≠ .withStatement := by simpa using hkind
  have hglobal {u : Nat} {z : Scope} (hinside : a.Inside u s) (hz : a.scopes[u]? = some z) :
      z.kind ≠ .global := Program.kind_ne_global_of_inside hids h hy hkinds.1 hinside hz
  have hdynamic {u : Nat} {z : Scope} (hz : a.scopes[u]? = some z) :=
    Program.isStatic_eq_false_iff h hz
  obtain ⟨b, rfl, hb⟩ := Program.exists_finished h
  have hmeans := (hb.journeys hids r x hx).means hb.wellFormed hb.stack
  rcases hmeans.captured hinside hy hkinds.2 hv with
    ⟨u, w, hw, hus, hbound⟩ | ⟨hnone, hoptimistic, u, z, hxu, hus, hz, hstatic, hwith⟩
  · obtain ⟨z, hz, rfl, -⟩ := hb.wellFormed.variable_eq hbound
    exact .inl ⟨w, z, hw, hz, hbound, hus⟩
  · refine .inr ⟨hnone, hoptimistic, u, z, hxu, hus, hz, hstatic, ?_⟩
    refine ((hdynamic hz).mp hstatic).resolve_left fun hmem => ?_
    rcases List.mem_pair.mp hmem with hkind | hkind
    · exact hglobal hus hz hkind
    · exact hwith hkind

end

/-! ## Functions and their `arguments` -/

namespace Builder

variable {b b' : Builder} {o : Options}

/-- Every scope of a function that is not an arrow binds the name `arguments`. -/
def GivesArguments (b : Builder) : Prop :=
  ∀ (t : Nat) (y : Scope), b.scopes[t]? = some y → y.kind = .function →
    y.block.isArrow = false → ∃ v, y.find? "arguments" = some v

/-- A name that is bound stays so when a name is given a variable. -/
theorem find?_ensure_of_eq_some {bindings : Bindings} {n : String} {v : Nat}
    (h : bindings.find? n = some v) (b : Builder) (s : Nat) (name : String) :
    (b.ensure bindings s name).2.1.find? n = some v := by
  rcases b.ensure_cases bindings s name with ⟨u, -, heq⟩ | ⟨hnone, heq⟩
  · rwa [heq]
  · rw [heq, Bindings.find?_add, if_neg, h]
    rintro rfl
    rw [hnone] at h
    cases h

/-- The name that is given a variable is bound. -/
theorem exists_find?_ensure (b : Builder) (bindings : Bindings) (s : Nat) (name : String) :
    ∃ v, (b.ensure bindings s name).2.1.find? name = some v := by
  rcases b.ensure_cases bindings s name with ⟨v, hv, heq⟩ | ⟨-, heq⟩
  · exact ⟨v, by rwa [heq]⟩
  · exact ⟨b.vars.size, by rw [heq, Bindings.find?_add, if_pos rfl]⟩

namespace GivesArguments

/-- Scopes are edited that go on binding the name. -/
private theorem edited {edit : Nat → Scope → Scope} (hb : GivesArguments b) (h : Edited edit b b')
    (hedit : ∀ t y, b.scopes[t]? = some y → (edit t y).kind = y.kind ∧
      (edit t y).block = y.block ∧ ∀ v, y.find? "arguments" = some v →
        (edit t y).find? "arguments" = some v) : GivesArguments b' := by
  intro t y' hy' hkind harrow
  rw [h.scopes] at hy'
  obtain ⟨y, hy, rfl⟩ := Option.map_eq_some_iff.mp hy'
  obtain ⟨hsameKind, hsameBlock, hfind⟩ := hedit t y hy
  obtain ⟨v, hv⟩ := hb t y hy (hsameKind ▸ hkind) (hsameBlock ▸ harrow)
  exact ⟨v, hfind v hv⟩

private theorem opened (hb : GivesArguments b) (o : Options) (kind : ScopeKind) (block : Anchor)
    (strict : Bool) (v : Nat) : GivesArguments (if kind = .function && !block.isArrow then
        (b.pushScope (b.newScope o kind block strict v)).declareArguments b.scopes.size
      else b.pushScope (b.newScope o kind block strict v)) := by
  have hold {t : Nat} {y : Scope} (ht : t ≠ b.scopes.size)
      (hy : (b.pushScope (b.newScope o kind block strict v)).scopes[t]? = some y)
      (hkind : y.kind = .function) (harrow : y.block.isArrow = false) :
      ∃ v, y.find? "arguments" = some v := by
    rw [scopes_pushScope, if_neg ht] at hy
    obtain ⟨z, hz, rfl⟩ := Option.map_eq_some_iff.mp hy
    split at hkind
    · next hhead =>
      rw [if_pos hhead] at harrow ⊢
      exact hb t z hz hkind harrow
    · next hhead =>
      rw [if_neg hhead] at harrow ⊢
      exact hb t z hz hkind harrow
  have hnew : (b.pushScope (b.newScope o kind block strict v)).scopes[b.scopes.size]? =
      some (b.newScope o kind block strict v) := by
    rw [scopes_pushScope, if_pos rfl]
  split
  · intro t y' hy' hkind harrow
    rw [(edited_declareArguments hnew).scopes] at hy'
    obtain ⟨y, hy, rfl⟩ := Option.map_eq_some_iff.mp hy'
    by_cases ht : t = b.scopes.size
    · rw [if_pos ht]
      exact exists_find?_ensure _ _ _ _
    · rw [if_neg ht] at hkind harrow ⊢
      exact hold ht hy hkind harrow
  · next hfunction =>
    intro t y hy hkind harrow
    by_cases ht : t = b.scopes.size
    · subst ht
      cases hnew.symm.trans hy
      have hboth : kind = .function ∧ block.isArrow = false := ⟨hkind, harrow⟩
      exact absurd (by simpa using hboth) hfunction
    · exact hold ht hy hkind harrow

private theorem effect {a : Action} (hb : GivesArguments b) (h : Effect o b a b') :
    GivesArguments b' := by
  cases h with
  | openScope kind block strict v => exact hb.opened o kind block strict v
  | closeScopes n h =>
    intro t y' hy' hkind harrow
    have hlasting := h.scopes t
    rw [hy'] at hlasting
    obtain ⟨y, hy, heq⟩ := Option.map_eq_some_iff.mp hlasting.symm
    have hsameKind : y.kind = y'.kind := (congrArg Scope.kind heq :)
    have hsameBlock : y.block = y'.block := (congrArg Scope.block heq :)
    have hbindings : y.bindings = y'.bindings := (congrArg Scope.bindings heq :)
    obtain ⟨v, hv⟩ := hb t y hy (hsameKind ▸ hkind) (hsameBlock ▸ harrow)
    exact ⟨v, by rwa [Scope.find?, ← hbindings]⟩
  | beginSite | endSite | needScope => exact hb
  | @declare d s hs =>
    cases hscope : b.scopes[s]? with
    | none => rwa [declareIn_eq_self hscope]
    | some scope =>
      refine hb.edited (edited_declareIn hscope d) fun t y hy => ?_
      split
      · next ht =>
        rw [ht, hscope] at hy
        cases hy
        exact ⟨rfl, rfl, fun v hv => find?_ensure_of_eq_some hv b s _⟩
      · exact ⟨rfl, rfl, fun v => id⟩
  | refer _ _ _ _ _ _ hedited =>
    refine hb.edited hedited fun t y _ => ?_
    split <;> exact ⟨rfl, rfl, fun v => id⟩
  | useThis s =>
    refine hb.edited (edited_modifyScope b s _) fun t y _ => ?_
    split <;> exact ⟨rfl, rfl, fun v => id⟩
  | callEval _ _ _ hedited => exact hb.edited hedited fun t y _ => ⟨rfl, rfl, fun v => id⟩

end GivesArguments

private theorem Effects.givesArguments {A : List Action} (h : Effects o b A b')
    (hb : GivesArguments b) : GivesArguments b' := by
  induction h with
  | nil => exact hb
  | cons _ _ h _ ih => exact ih (hb.effect h)

end Builder

section

variable {o : Options} {p : Program} {a : Analysis} {s v : Nat} {y : Scope} {z : Variable}

/-- Whether a static function needs its `arguments` is known from their variable. -/
theorem Analysis.needsArguments_eq (hy : a.scopes[s]? = some y) (hkind : y.kind = .function)
    (harrow : y.block.isArrow = false) (hv : y.find? "arguments" = some v)
    (hz : a.vars[v]? = some z) :
    a.needsArguments s = (!y.isStatic || (z.tainted || !z.references.isEmpty)) := by
  cases hdynamic : y.dynamic <;>
    simp [needsArguments, hy, hkind, harrow, hdynamic, hv, hz, Scope.isStatic]

/-- A variable that is tainted or has references has a reference that stands for it. -/
theorem Program.stands_iff (hids : (Tree.ids p).Nodup) (h : Program.analyze o p = .ok a)
    (hz : a.vars[v]? = some z) : (z.tainted || !z.references.isEmpty) = true ↔
      ∃ (r : Nat) (x : Reference), a.references[r]? = some x ∧ x.resolved = some v := by
  have hkempt := Program.kempt hids h
  obtain ⟨b, rfl, heffects⟩ := Program.exists_effects h
  have hmarked := heffects.marked (Program.orderly_actions o hids)
    (fun r x hx => by simp at hx) .empty
  rw [Bool.or_eq_true]
  constructor
  · rintro (htainted | hreferences)
    · have hstain : b.stain v = true := by
        rw [Builder.stain, hz]
        exact htainted
      obtain ⟨r, x, hx, hresolved, -⟩ := (hmarked.stain_iff v).mp hstain
      exact ⟨r, x, hx, hresolved⟩
    · by_contra hnone
      push Not at hnone
      rw [hkempt.references_eq_empty hz hnone] at hreferences
      cases hreferences
  · rintro ⟨r, x, hx, hresolved⟩
    refine .inr ?_
    have hcredit : b.credit? v = some (z.scope, z.references, z.stack) := by
      rw [Analysis.credit?, hz, Option.map_some]
    have hmem := (hkempt.credited.mem_iff hcredit r).mpr
      ⟨x.scope, Analysis.meaning?_eq_some_iff.mpr ⟨x, hx, rfl, hresolved⟩⟩
    rw [Bool.not_eq_true', Array.isEmpty_eq_false_iff]
    exact Array.ne_empty_of_mem hmem

/-- If the nodes of a program are distinct, the scope of every function that is not an arrow binds
`arguments`. If the function does not need them, all uses of the name in it and inside it mean
variables of scopes inside it. If it needs them and is static, a reference stands for its
variable. -/
theorem Program.arguments_captured (hids : (Tree.ids p).Nodup) (h : Program.analyze o p = .ok a)
    (hy : a.scopes[s]? = some y) (hkind : y.kind = .function)
    (harrow : y.block.isArrow = false) :
    ∃ v, y.find? "arguments" = some v ∧
      (a.needsArguments s = false → ∀ (r : Nat) (x : Reference), a.references[r]? = some x →
        x.name = "arguments" → a.Inside x.scope s → ∃ w z, x.resolved = some w ∧
          a.vars[w]? = some z ∧ a.Within z.scope s) ∧
      (y.isStatic = true → a.needsArguments s = true →
        ∃ (r : Nat) (x : Reference), a.references[r]? = some x ∧ x.resolved = some v) := by
  obtain ⟨v, hv⟩ : ∃ v, y.find? "arguments" = some v := by
    obtain ⟨b, rfl, heffects⟩ := Program.exists_effects h
    exact heffects.givesArguments (fun t y hy => by simp at hy) s y hy hkind harrow
  have hbound : a.variableIn? "arguments" s = some v := by
    rw [Analysis.variableIn?_eq, hy]
    exact hv
  obtain ⟨z, hz⟩ : ∃ z, a.vars[v]? = some z := by
    obtain ⟨b, rfl, hb⟩ := Program.exists_finished h
    obtain ⟨z, hz, -⟩ := hb.wellFormed.variable_eq hbound
    exact ⟨z, hz⟩
  have hneeds := Analysis.needsArguments_eq hy hkind harrow hv hz
  refine ⟨v, hv, fun hnot r x hx hname hinside => ?_, fun hstatic hneeded => ?_⟩
  · rw [hneeds, Bool.or_eq_false_iff, Bool.not_eq_false'] at hnot
    have hkinds : y.kind ∉ [.global, .withStatement] := by rw [hkind]; decide
    rcases Program.captured hids h hy hkinds hx (hname ▸ hv) hinside with
      ⟨w, z', hw, hz', hbound', hinside'⟩ | ⟨-, -, u, -, -, hus, -, -, d, w, hdu, hw, hcalls⟩
    · refine ⟨w, z', hw, hz', ?_⟩
      rcases Relation.reflTransGen_iff_eq_or_transGen.mp hinside' with heq | hwithin
      · rw [← heq, hname, hbound] at hbound'
        cases hbound'
        rw [(Program.stands_iff hids h hz).mpr ⟨r, x, hx, hw⟩] at hnot
        cases hnot.2
      · exact hwithin
    · -- the call would make the function dynamic too
      have hdynamic := (Program.isStatic_eq_false_iff h hy).mpr
        (.inr ⟨d, w, hdu.trans hus, hw, hcalls⟩)
      rw [hdynamic] at hnot
      cases hnot.1
  · rw [hneeds, hstatic] at hneeded
    exact (Program.stands_iff hids h hz).mp (by simpa using hneeded)

end

/-- The program `function f() { function g() { with (o) arguments; } }`. -/
def Program.argumentsInside : Program :=
  let mark (n : Nat) : Mark := ⟨n, ⟨n, n⟩⟩
  .program (mark 0) (.cons (.functionDeclaration (.function .declaration (mark 1)
    (some ⟨mark 2, "f"⟩) .nil (.blockBody (.block (mark 3) (.cons (.functionDeclaration
      (.function .declaration (mark 4) (some ⟨mark 5, "g"⟩) .nil (.blockBody (.block (mark 6)
        (.cons (.withStatement (mark 7) (.identifier ⟨mark 8, "o"⟩) (.expressionStatement (mark 9)
          (.identifier ⟨mark 10, "arguments"⟩) none)) .nil))) false false false)) .nil)))
    false false false)) .nil)

/-- The outer function does not need its `arguments`, since the inner function has its own, which it
needs. -/
theorem Program.arguments_captured_inside : (Tree.ids Program.argumentsInside).Nodup ∧
    ∃ (a : Analysis) (x : Reference) (w : Nat) (z : Variable),
      Program.analyze {} .argumentsInside = .ok a ∧ a.needsArguments 1 = false ∧
      a.references[1]? = some x ∧ x.name = "arguments" ∧ a.Inside x.scope 1 ∧
      x.resolved = some w ∧ a.vars[w]? = some z ∧ a.Within z.scope 1 ∧
      a.needsArguments 2 = true ∧
      ∃ (y : Scope) (v : Nat), a.scopes[2]? = some y ∧ y.isStatic = true ∧
        y.find? "arguments" = some v ∧
        ∃ (r : Nat) (x : Reference), a.references[r]? = some x ∧ x.resolved = some v := by
  have hids : (Tree.ids Program.argumentsInside).Nodup := by decide
  have hscopes : ((Program.analyze {} .argumentsInside).toOption.bind fun a : Analysis =>
      (a.scopes[1]?).bind fun y : Scope => (a.scopes[2]?).map fun z : Scope =>
        (y.kind, y.block.isArrow, z.kind, z.block.isArrow, z.isStatic)) =
      some (ScopeKind.function, false, ScopeKind.function, false, true) := by decide +kernel
  have hneeds : ((Program.analyze {} .argumentsInside).toOption.map fun a =>
      (a.needsArguments 1, a.needsArguments 2)) = some (false, true) := by decide +kernel
  have hreference : ((Program.analyze {} .argumentsInside).toOption.bind fun a =>
      (a.references[1]?).map fun x : Reference => (x.name, a.upper? x.scope, a.upper? 2)) =
      some ("arguments", some 2, some 1) := by decide +kernel
  cases h : Program.analyze {} .argumentsInside with
  | error e =>
    rw [h] at hneeds
    cases hneeds
  | ok a =>
    rw [h] at hscopes hneeds hreference
    obtain ⟨y, hy, hscopes⟩ : ∃ y, a.scopes[1]? = some y ∧ _ := Option.bind_eq_some_iff.mp hscopes
    obtain ⟨z, hz, hscopes⟩ := Option.map_eq_some_iff.mp hscopes
    obtain ⟨x, hx, hreference⟩ := Option.map_eq_some_iff.mp hreference
    simp only [Except.toOption, Option.map_some, Option.some.injEq, Prod.mk.injEq] at hneeds
    simp only [Prod.mk.injEq] at hscopes hreference
    have hinside : a.Inside x.scope 1 := .head hreference.2.1 (.single hreference.2.2)
    obtain ⟨-, -, hcaught, -⟩ := Program.arguments_captured hids h hy hscopes.1 hscopes.2.1
    obtain ⟨w, u, hw, hu, hwithin⟩ := hcaught hneeds.1 1 x hx hreference.1 hinside
    obtain ⟨v, hv, -, hstands⟩ :=
      Program.arguments_captured hids h hz hscopes.2.2.1 hscopes.2.2.2.1
    exact ⟨hids, a, x, w, u, rfl, hneeds.1, hx, hreference.1, hinside, hw, hu, hwithin, hneeds.2,
      z, v, hz, hscopes.2.2.2.2, hv, hstands hscopes.2.2.2.2 hneeds.2⟩

end EcmaScope
