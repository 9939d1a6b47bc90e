import EcmaScope.Proofs.ImplicitGlobals

/-!
# The references that are left over

When the global scope is closed, the references that wait in it are kept as those that are left
over. They are collected before it is known what becomes of them: an optimist then resolves some of
them to variables of the global scope, and these stay in the list all the same. Without an optimist,
nothing is ever resolved to a variable of the global scope, and the list has exactly the unresolved
references that have come up to it.

## Main definitions

* `Analysis.MeansGlobal`: a reference is resolved to a variable of the global scope.

## Main results

* `Program.optimistic_of_meansGlobal`: only an optimist resolves references to global variables.
* `Program.left_over_iff`: which references are left over.
-/

namespace EcmaScope

variable {o : Options} {p : Program} {a : Analysis} {r : Nat} {x : Reference}

/-- The reference is resolved to a variable of the global scope. -/
def Analysis.MeansGlobal (a : Analysis) (x : Reference) : Prop :=
  ∃ v z, x.resolved = some v ∧ a.vars[v]? = some z ∧ z.scope = 0

namespace Program

/-- The scope that is opened first, and no other, is the global scope. -/
theorem kind_eq_global_iff (hids : (Tree.ids p).Nodup) (h : Program.analyze o p = .ok a) {s : Nat}
    {y : Scope} (hy : a.scopes[s]? = some y) : y.kind = .global ↔ s = 0 := by
  obtain ⟨b, b', rfl, hlast⟩ := Program.exists_last hids h
  constructor
  · intro hkind
    by_contra hs
    exact (hlast.implicit_eq_none hy hs).1 hkind
  · rintro rfl
    obtain ⟨y', -, hy', hkind, -⟩ := hlast.created
    cases hy.symm.trans hy'
    exact hkind

/-- A reference is resolved to a variable of the global scope if that scope binds its name to the
variable. -/
theorem meansGlobal_iff (hids : (Tree.ids p).Nodup) (h : Program.analyze o p = .ok a)
    (hx : a.references[r]? = some x) :
    a.MeansGlobal x ↔ ∃ v, x.resolved = some v ∧ a.variableIn? x.name 0 = some v := by
  obtain ⟨b, rfl, hb⟩ := Program.exists_finished h
  constructor
  · rintro ⟨v, z, hv, hz, hzero⟩
    obtain ⟨z', hz', -, -, hbound⟩ :=
      (hb.journeys hids r x hx).exists_variable hb.wellFormed hb.stack hv
    cases hz.symm.trans hz'
    exact ⟨v, hv, hzero ▸ hbound⟩
  · rintro ⟨v, hv, hbound⟩
    obtain ⟨z, hz, hzero, -⟩ := hb.wellFormed.variable_eq hbound
    exact ⟨v, z, hv, hz, hzero⟩

/-- Only an optimist resolves references to variables of the global scope. -/
theorem optimistic_of_meansGlobal (hids : (Tree.ids p).Nodup) (h : Program.analyze o p = .ok a)
    (hx : a.references[r]? = some x) (hglobal : a.MeansGlobal x) : o.optimistic = true := by
  have hkind {s : Nat} {y : Scope} := Program.kind_eq_global_iff hids h (s := s) (y := y)
  have hstatic {s : Nat} {y : Scope} := Program.isStatic_eq_false_iff h (s := s) (y := y)
  obtain ⟨v, z, hv, hz, hzero⟩ := hglobal
  obtain ⟨b, rfl, hb⟩ := Program.exists_finished h
  obtain ⟨-, -, -, -, -, -, ⟨w, v', -, hruled, hresolved, -⟩ | ⟨-, hresolved, -⟩⟩ :=
    (hb.journeys hids r x hx).ended hb.wellFormed hb.stack
  · cases hv.symm.trans hresolved
    obtain ⟨-, z', hz', rfl, -⟩ := hruled.exists_variable hb.wellFormed
    cases hz.symm.trans hz'
    obtain ⟨y, hy, hverdict⟩ := hruled.exists_scope
    have hyglobal := (hkind hy).mpr hzero
    by_contra hoptimistic
    have hunsure := (hstatic hy).mpr (Or.inl (by simp [hyglobal]))
    rw [Scope.verdict_of_ne_with ⟨hunsure, eq_false_of_ne_true hoptimistic⟩ (by simp [hyglobal])]
      at hverdict
    cases hverdict
  · cases hv.symm.trans hresolved

/-- What is left over are, each once, the unresolved references that have come up to the global
scope, and those that are resolved to a variable of that scope. References are so resolved by an
optimist only. -/
theorem left_over_iff (hids : (Tree.ids p).Nodup) (h : Program.analyze o p = .ok a) :
    ∃ y i, a.scopes[0]? = some y ∧ y.implicit = some i ∧ i.left.toList.Nodup ∧
      (∀ r, r ∈ i.left ↔ ∃ x, a.references[r]? = some x ∧
        ((x.resolved = none ∧ a.Surfaces o.optimistic x.scope) ∨ a.MeansGlobal x)) ∧
      ∀ (r : Nat) (x : Reference), a.references[r]? = some x → a.MeansGlobal x →
        o.optimistic = true := by
  have hmeans {r : Nat} {x : Reference} := Program.meansGlobal_iff hids h (r := r) (x := x)
  have hoptimistic {r : Nat} {x : Reference} :=
    Program.optimistic_of_meansGlobal hids h (r := r) (x := x)
  obtain ⟨b, b', rfl, hlast⟩ := Program.exists_last hids h
  obtain ⟨y, i, hy, -, hi, hleft, -⟩ := hlast.created
  refine ⟨y, i, hy, hi, hleft ▸ hlast.nodup_pendingOf, fun r => ?_, fun r x => hoptimistic⟩
  rw [← Array.mem_toList_iff, hleft]
  constructor
  · intro hr
    obtain ⟨x, hx⟩ := hlast.exists_reference_of_mem hr
    refine ⟨x, hx, ?_⟩
    rw [hmeans hx]
    exact (hlast.mem_pendingOf_iff_closed hx).mp hr
  · rintro ⟨x, hx, hcases⟩
    rw [hmeans hx] at hcases
    exact (hlast.mem_pendingOf_iff_closed hx).mpr hcases

/-- Without an optimist, all references that are left over in a `with` are unresolved. -/
theorem left_over_iff_with : (Tree.ids Program.assignInWith).Nodup ∧
    ∃ a y i, Program.analyze {} .assignInWith = .ok a ∧ a.scopes[0]? = some y ∧
      y.implicit = some i ∧ i.left.toList = [0, 1, 2, 3, 4] ∧ ∀ r ∈ i.left,
        ∃ x, a.references[r]? = some x ∧ x.resolved = none ∧ a.Surfaces false x.scope := by
  have hids : (Tree.ids Program.assignInWith).Nodup := by decide
  have hvalue : (Program.analyze {} .assignInWith).toOption.bind (fun a =>
      ((a.scopes[0]?).bind (·.implicit)).map fun i => i.left.toList) = some [0, 1, 2, 3, 4] := by
    decide +kernel
  cases h : Program.analyze {} .assignInWith with
  | error e =>
    rw [h] at hvalue
    cases hvalue
  | ok a =>
    obtain ⟨y, i, hy, hi, -, hleft, hoptimistic⟩ := Program.left_over_iff hids h
    rw [h] at hvalue
    simp only [Except.toOption, Option.bind_some, hy, hi, Option.map_some,
      Option.some.injEq] at hvalue
    refine ⟨hids, a, y, i, rfl, hy, hi, hvalue, fun r hr => ?_⟩
    obtain ⟨x, hx, hcases⟩ := (hleft r).mp hr
    exact ⟨x, hx, hcases.resolve_right fun hglobal => by cases hoptimistic r x hx hglobal⟩

/-- A variable of the global scope that is declared and then read: `var x; x;`. -/
def readGlobal : Program :=
  let mark (n : Nat) : Mark := ⟨n, ⟨n, n⟩⟩
  .program (mark 0) (.cons (.variableDeclaration (.declaration (mark 1) .var
      (.cons (.declarator (mark 2) (.identifierPattern ⟨mark 3, "x"⟩) .absent) .nil)))
    (.cons (.expressionStatement (mark 4) (.identifier ⟨mark 5, "x"⟩) none) .nil))

/-- To an optimist the variable is what the name means, and yet the reference is left over. -/
theorem left_over_readGlobal : (Tree.ids Program.readGlobal).Nodup ∧
    ∃ a y i x, Program.analyze { optimistic := true } .readGlobal = .ok a ∧
      a.scopes[0]? = some y ∧ y.implicit = some i ∧ i.left = #[0] ∧
      a.references[0]? = some x ∧ x.resolved = some 0 := by
  have hids : (Tree.ids Program.readGlobal).Nodup := by decide
  have hleft : (Program.analyze { optimistic := true } .readGlobal).toOption.bind (fun a =>
      ((a.scopes[0]?).bind (·.implicit)).map (·.left)) = some #[0] := by decide +kernel
  have hresolved : (Program.analyze { optimistic := true } .readGlobal).toOption.bind (fun a =>
      (a.references[0]?).map (·.resolved)) = some (some 0) := by decide +kernel
  cases h : Program.analyze { optimistic := true } .readGlobal with
  | error e =>
    rw [h] at hleft
    cases hleft
  | ok a =>
    rw [h] at hleft hresolved
    obtain ⟨i, hi, hleft⟩ := Option.map_eq_some_iff.mp hleft
    obtain ⟨y, hy, hi⟩ := Option.bind_eq_some_iff.mp hi
    obtain ⟨x, hx, hresolved⟩ := Option.map_eq_some_iff.mp hresolved
    exact ⟨hids, a, y, i, x, rfl, hy, hi, hleft, hx, hresolved⟩

end Program

end EcmaScope
