import EcmaScope.Proofs.Journeys
import EcmaScope.Proofs.ScopeTree

/-!
# What references mean

References are resolved while scopes are being closed, when other scopes are still open and may yet
be given more names. What comes out can nevertheless be described by looking at the finished
analysis alone: the meaning of a name is found by walking outwards from the scope in which it
occurs.

## Main definitions

* `Analysis.Means`: the walk that finds the meaning of a name.

## Main results

* `Analysis.Means.unique`: a walk has at most one outcome.
* `Analysis.Means.eq_lookup?`: what an optimist finds is the variable that is looked up.
* `Program.resolved_iff_means`: references are resolved to what they mean.
-/

namespace EcmaScope

/-- The name, looked for from a scope outwards, means a variable, or nothing that is known. If the
scope may get other names while the program runs, only an optimist goes by its variables; in a
`with` the walk goes on, and elsewhere it ends. -/
inductive Analysis.Means (a : Analysis) (optimistic : Bool) (name : String) :
    Option Nat → Option Nat → Prop
  | outside : Means a optimistic name none none
  | bound {s v : Nat} {y : Scope} (hy : a.scopes[s]? = some y)
      (hsure : y.isStatic = true ∨ optimistic = true) (hv : y.find? name = some v) :
      Means a optimistic name (some s) (some v)
  | unbound {s : Nat} {m : Option Nat} {y : Scope} (hy : a.scopes[s]? = some y)
      (hsure : y.isStatic = true ∨ optimistic = true) (hv : y.find? name = none)
      (h : Means a optimistic name y.upper? m) : Means a optimistic name (some s) m
  | hidden {s : Nat} {m : Option Nat} {y : Scope} (hy : a.scopes[s]? = some y)
      (hunsure : y.isStatic = false ∧ optimistic = false) (hkind : y.kind = .withStatement)
      (h : Means a optimistic name y.upper? m) : Means a optimistic name (some s) m
  | unknown {s : Nat} {y : Scope} (hy : a.scopes[s]? = some y)
      (hunsure : y.isStatic = false ∧ optimistic = false) (hkind : y.kind ≠ .withStatement) :
      Means a optimistic name (some s) none

namespace Scope

variable {y : Scope} {optimistic : Bool} {name : String}

theorem verdict_of_find?_some (hsure : y.isStatic = true ∨ optimistic = true) {v : Nat}
    (hv : y.find? name = some v) : y.verdict optimistic name = .bound v := by
  rw [verdict, if_pos (by simpa using hsure), hv]

theorem verdict_of_find?_none (hsure : y.isStatic = true ∨ optimistic = true)
    (hv : y.find? name = none) : y.verdict optimistic name = .unbound := by
  rw [verdict, if_pos (by simpa using hsure), hv]

theorem verdict_of_with (hunsure : y.isStatic = false ∧ optimistic = false)
    (hkind : y.kind = .withStatement) : y.verdict optimistic name = .hidden := by
  rw [verdict, if_neg (by simp [hunsure]), if_pos hkind]

theorem verdict_of_ne_with (hunsure : y.isStatic = false ∧ optimistic = false)
    (hkind : y.kind ≠ .withStatement) : y.verdict optimistic name = .unknown := by
  rw [verdict, if_neg (by simp [hunsure]), if_neg hkind]

theorem find?_of_verdict_eq_bound {v : Nat} (h : y.verdict optimistic name = .bound v) :
    y.find? name = some v := by
  unfold verdict at h
  split at h
  · split at h
    · next hv =>
      cases h
      exact hv
    · cases h
  · split at h <;> cases h

end Scope

namespace Analysis

variable {a : Analysis} {optimistic : Bool} {name : String} {m m' : Option Nat}

/-- The verdict of a scope decides how a walk goes on from it. -/
theorem means_some_iff {s : Nat} {y : Scope} (hy : a.scopes[s]? = some y) :
    a.Means optimistic name (some s) m ↔
      match y.verdict optimistic name with
      | .bound v => m = some v
      | .unbound | .hidden => a.Means optimistic name y.upper? m
      | .unknown => m = none := by
  constructor
  · intro h
    cases h with
    | bound hy' hsure hv =>
      cases hy.symm.trans hy'
      rw [Scope.verdict_of_find?_some hsure hv]
    | unbound hy' hsure hv h =>
      cases hy.symm.trans hy'
      rwa [Scope.verdict_of_find?_none hsure hv]
    | hidden hy' hunsure hkind h =>
      cases hy.symm.trans hy'
      rwa [Scope.verdict_of_with hunsure hkind]
    | unknown hy' hunsure hkind =>
      cases hy.symm.trans hy'
      rw [Scope.verdict_of_ne_with hunsure hkind]
  · intro h
    by_cases hsure : y.isStatic = true ∨ optimistic = true
    · cases hv : y.find? name with
      | some v =>
        rw [Scope.verdict_of_find?_some hsure hv] at h
        subst h
        exact .bound hy hsure hv
      | none =>
        rw [Scope.verdict_of_find?_none hsure hv] at h
        exact .unbound hy hsure hv h
    · have hunsure : y.isStatic = false ∧ optimistic = false := by simpa using hsure
      by_cases hkind : y.kind = .withStatement
      · rw [Scope.verdict_of_with hunsure hkind] at h
        exact .hidden hy hunsure hkind h
      · rw [Scope.verdict_of_ne_with hunsure hkind] at h
        subst h
        exact .unknown hy hunsure hkind

/-- A walk has at most one outcome. -/
theorem Means.unique {s : Option Nat} (h : a.Means optimistic name s m)
    (h' : a.Means optimistic name s m') : m' = m := by
  induction h with
  | outside =>
    cases h'
    rfl
  | bound hy hsure hv =>
    rwa [means_some_iff hy, Scope.verdict_of_find?_some hsure hv] at h'
  | unbound hy hsure hv _ ih =>
    rw [means_some_iff hy, Scope.verdict_of_find?_none hsure hv] at h'
    exact ih h'
  | hidden hy hunsure hkind _ ih =>
    rw [means_some_iff hy, Scope.verdict_of_with hunsure hkind] at h'
    exact ih h'
  | unknown hy hunsure hkind =>
    rwa [means_some_iff hy, Scope.verdict_of_ne_with hunsure hkind] at h'

/-- What an optimist finds along a chain is bound by the first scope that binds the name. -/
theorem Means.eq_findSome? {l : List Nat} (hl : Chained a.frame? l)
    (h : a.Means true name l.head? m) : m = l.findSome? (a.variableIn? name) := by
  induction hl with
  | nil =>
    cases h
    rfl
  | @cons s f hf _ ih =>
    obtain ⟨y, hy, rfl⟩ := frame?_eq_some hf
    have hvariable : a.variableIn? name s = y.find? name := by
      rw [variableIn?_eq, hy]
      rfl
    rw [List.findSome?_cons, hvariable]
    rw [List.head?_cons, means_some_iff hy] at h
    cases hv : y.find? name with
    | some v =>
      rw [Scope.verdict_of_find?_some (Or.inr rfl) hv] at h
      exact h
    | none =>
      rw [Scope.verdict_of_find?_none (Or.inr rfl) hv] at h
      exact ih h

/-- What an optimist finds is the variable that is looked up. -/
theorem Means.eq_lookup? {size s : Nat} {stack : List Nat} {owned : Nat → List Nat}
    (hlayout : Layout a.frame? size stack owned) {f : Frame} (hf : a.frame? s = some f)
    (h : a.Means true name (some s) m) : m = a.lookup? s name := by
  obtain ⟨y, hy, rfl⟩ := frame?_eq_some hf
  rw [lookup?, hy]
  exact Means.eq_findSome? (.cons hf (hlayout.chained_enclosing hf)) h

end Analysis

namespace Builder

variable {b : Builder} {optimistic : Bool} {name : String}

theorem Ruled.exists_scope {t : Nat} {d : Verdict} (h : b.Ruled optimistic name t d) :
    ∃ y, b.scopes[t]? = some y ∧ y.verdict optimistic name = d := by
  obtain ⟨-, verdict, hverdict, hd⟩ := h
  obtain ⟨y, hy, rfl⟩ := Option.map_eq_some_iff.mp hverdict
  exact ⟨y, hy, hd⟩

/-- A walk passes all scopes that let the name pass. -/
theorem Passes.means {passed rest : List Nat} {m : Option Nat}
    (hpassed : b.Passes optimistic name passed) (hl : Chained b.frame? (passed ++ rest))
    (h : b.Means optimistic name rest.head? m) :
    b.Means optimistic name (passed ++ rest).head? m := by
  induction passed with
  | nil => exact h
  | cons t passed ih =>
    obtain ⟨d, hruled, hd⟩ := hpassed t List.mem_cons_self
    obtain ⟨y, hy, hverdict⟩ := hruled.exists_scope
    have hnext := ih (fun u hu => hpassed u (List.mem_cons_of_mem t hu)) hl.tail
    have hupper : y.upper? = (passed ++ rest).head? :=
      congrArg List.head? (hl.enclosing_eq (Analysis.frame?_of_getElem? hy))
    rw [List.cons_append, List.head?_cons, Analysis.means_some_iff hy, hverdict]
    cases d with
    | bound | unknown => cases hd
    | unbound | hidden =>
      rw [hupper]
      exact hnext

/-- A reference that has been resolved stands for a variable with its name, in a scope around
it. -/
theorem Ruled.exists_variable {t v : Nat} (h : b.Ruled optimistic name t (.bound v))
    (hb : WellFormed b) : b.variableIn? name t = some v ∧
      ∃ z : Variable, b.vars[v]? = some z ∧ z.scope = t ∧ z.name = name := by
  obtain ⟨y, hy, hverdict⟩ := h.exists_scope
  have hv : b.variableIn? name t = some v := by
    rw [Analysis.variableIn?_eq, hy]
    exact Scope.find?_of_verdict_eq_bound hverdict
  exact ⟨hv, hb.variable_eq hv⟩

/-- A journey that has come to its end has followed the walk. -/
theorem Journey.means {r : Nat} {x : Reference} (h : Journey b optimistic r x) (hb : WellFormed b)
    (hstack : b.stack = []) : b.Means optimistic x.name (some x.scope) x.resolved := by
  obtain ⟨f, passed, rest, hf, hchain, hpassed, hend⟩ := h.ended hb hstack
  have hchained : Chained b.frame? (passed ++ rest) := by
    rw [← hchain]
    exact .cons hf (hb.layout.chained_enclosing hf)
  have hmeans : b.Means optimistic x.name rest.head? x.resolved := by
    rcases hend with ⟨w, v, hw, hruled, hresolved, -⟩ | ⟨hruled, hresolved, -⟩
    · obtain ⟨y, hy, hverdict⟩ := hruled.exists_scope
      rw [hw, Analysis.means_some_iff hy, hverdict]
      exact hresolved
    · rw [hresolved]
      cases hw : rest.head? with
      | none => exact .outside
      | some w =>
        obtain ⟨y, hy, hverdict⟩ := (hruled w hw).exists_scope
        rw [Analysis.means_some_iff hy, hverdict]
  have hwalk := hpassed.means hchained hmeans
  rwa [← hchain] at hwalk

/-- The variable that a reference stands for belongs to a scope around it. -/
theorem Journey.exists_variable {r v : Nat} {x : Reference} (h : Journey b optimistic r x)
    (hb : WellFormed b) (hstack : b.stack = []) (hv : x.resolved = some v) :
    ∃ z : Variable, b.vars[v]? = some z ∧ z.name = x.name ∧ b.Inside x.scope z.scope ∧
      b.variableIn? x.name z.scope = some v := by
  obtain ⟨f, passed, rest, hf, hchain, -, hend⟩ := h.ended hb hstack
  rcases hend with ⟨w, v', hw, hruled, hresolved, -⟩ | ⟨-, hresolved, -⟩
  · rw [hv] at hresolved
    cases hresolved
    obtain ⟨hbound, z, hz, rfl, hname⟩ := hruled.exists_variable hb
    refine ⟨z, hz, hname, (Analysis.inside_iff hb.layout hf).mpr ?_, hbound⟩
    rw [hchain]
    exact List.mem_append_right passed (List.mem_of_head? hw)
  · rw [hv] at hresolved
    cases hresolved

theorem Finished.journeys {o : Options} {orderly : Prop} (h : b.Finished o orderly)
    (ho : orderly) : Journeys b o.optimistic :=
  Moves.journeys (h.moves.mono fun _ => ho) .empty fun r x hx => by simp at hx

end Builder

/-- If the nodes of a program are distinct, every reference is resolved to what its name means in
the finished analysis. That is a variable of a scope around it, and for an optimist it is what is
looked up. -/
theorem Program.resolved_iff_means {o : Options} {p : Program} {a : Analysis}
    (hids : (Tree.ids p).Nodup) (h : Program.analyze o p = .ok a) {r : Nat} {x : Reference}
    (hx : a.references[r]? = some x) :
    (∀ m, a.Means o.optimistic x.name (some x.scope) m ↔ m = x.resolved) ∧
      (∀ v, x.resolved = some v →
        ∃ z, a.vars[v]? = some z ∧ z.name = x.name ∧ a.Inside x.scope z.scope) ∧
      (o.optimistic = true → x.resolved = a.lookup? x.scope x.name) := by
  obtain ⟨b, rfl, hb⟩ := Program.exists_finished h
  have hjourney := hb.journeys hids r x hx
  have hmeans := hjourney.means hb.wellFormed hb.stack
  refine ⟨fun m => ⟨hmeans.unique, ?_⟩, fun v hv => ?_, fun hoptimistic => ?_⟩
  · rintro rfl
    exact hmeans
  · obtain ⟨z, hz, hname, hinside, -⟩ := hjourney.exists_variable hb.wellFormed hb.stack hv
    exact ⟨z, hz, hname, hinside⟩
  · obtain ⟨f, -, -, hf, -⟩ := hjourney.ended hb.wellFormed hb.stack
    rw [hoptimistic] at hmeans
    exact hmeans.eq_lookup? hb.wellFormed.layout hf

/-- In a loop over the value of a function expression, the loop's name inside the function means the
variable that is not initialized there. -/
theorem Program.resolved_iff_means_loop : (Tree.ids (Program.loopOverFunction id)).Nodup ∧
    ∃ a x, Program.analyze .es6 (.loopOverFunction id) = .ok a ∧ a.references[0]? = some x ∧
      x.resolved = some 0 ∧ ∀ m, a.Means false x.name (some x.scope) m ↔ m = x.resolved := by
  have hids : (Tree.ids (Program.loopOverFunction id)).Nodup := by decide
  have hresolved : ((Program.analyze .es6 (.loopOverFunction id)).toOption.bind
    fun a => (a.references[0]?).map (·.resolved)) = some (some 0) := by decide +kernel
  cases h : Program.analyze .es6 (.loopOverFunction id) with
  | error e =>
    rw [h] at hresolved
    cases hresolved
  | ok a =>
    rw [h] at hresolved
    obtain ⟨x, hx, hresolved⟩ := Option.map_eq_some_iff.mp hresolved
    exact ⟨hids, a, x, rfl, hx, hresolved, (Program.resolved_iff_means hids h hx).1⟩

end EcmaScope
