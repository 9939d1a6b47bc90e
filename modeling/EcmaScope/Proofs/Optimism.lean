import EcmaScope.Proofs.Resolution
import EcmaScope.Proofs.Twins

/-!
# Optimism

An optimist resolves references as if neither `with` nor `eval` could give names another meaning. In
the tables, that changes nothing but what is settled when scopes are closed. What has a meaning for
the cautious has one for the optimist, too. It is the same one unless a `with` declares the name:
the cautious look past it, since the object may have a property of that name or not.

## Main definitions

* `Analysis.Shadowed`: a `with` on the way outwards declares the name.

## Main results

* `Analysis.Means.optimistic`: the walks of the cautious and of the optimist.
* `Program.alike_analyze`: optimism does not matter for anything that lasts.
* `Program.analyze_optimistic`: optimism resolves more references.
-/

namespace EcmaScope

namespace Analysis

variable {a a' : Analysis} {name : String} {s v : Nat} {y : Scope}

/-- On the way from the scope `s` outwards to the scope `t` there is a `with` that declares the
name, as the variable `v`. -/
def Shadowed (a : Analysis) (name : String) (s t v : Nat) : Prop :=
  ∃ w y, a.Inside s w ∧ a.Inside w t ∧ a.scopes[w]? = some y ∧ y.kind = .withStatement ∧
    y.find? name = some v

private theorem Alike.exists_scope (h : a.Alike a') (hy : a.scopes[s]? = some y) :
    ∃ y', a'.scopes[s]? = some y' ∧ y'.lasting = y.lasting := by
  have hlasting := congrArg (·[s]?) h.scopes
  rw [Array.getElem?_map, Array.getElem?_map, hy] at hlasting
  exact Option.map_eq_some_iff.mp hlasting

private theorem Alike.exists_reference (h : a.Alike a') {r : Nat} {x : Reference}
    (hx : a.references[r]? = some x) :
    ∃ x', a'.references[r]? = some x' ∧ x'.lasting = x.lasting := by
  have hlasting := congrArg (·[r]?) h.references
  rw [Array.getElem?_map, Array.getElem?_map, hx] at hlasting
  exact Option.map_eq_some_iff.mp hlasting

/-! ## Two walks -/

/-- From the scope `start` outwards, the variable `v` is bound in `a`, and what an optimist finds in
`a'` is the same or that of a `with` on the way. -/
def Outlook (a a' : Analysis) (name : String) (start : Option Nat) (v : Nat) : Prop :=
  ∃ s t v', start = some s ∧ a.Inside s t ∧ a.variableIn? name t = some v ∧
    a'.Means true name start (some v') ∧ (v' = v ∨ a.Shadowed name s t v')

private theorem inside_of_upper? {u t : Nat} (hy : a.scopes[s]? = some y) (hu : y.upper? = some u)
    (h : a.Inside u t) : a.Inside s t := by
  refine .head ?_ h
  rw [upper?, hy]
  exact hu

/-- A scope that does not declare the name is passed by both walks. -/
private theorem Outlook.next (h : a.Alike a') (hy : a.scopes[s]? = some y)
    (hnone : y.find? name = none) (hnext : Outlook a a' name y.upper? v) :
    Outlook a a' name (some s) v := by
  obtain ⟨u, t, v', hu, hinside, hbound, hmeans, hsame⟩ := hnext
  obtain ⟨y', hy', hlasting⟩ := h.exists_scope hy
  have hfind : y'.find? name = y.find? name := (congrArg (Scope.find? · name) hlasting :)
  have hupper : y'.upper? = y.upper? := (congrArg Scope.upper? hlasting :)
  refine ⟨s, t, v', rfl, inside_of_upper? hy hu hinside, hbound, ?_, hsame.imp_right ?_⟩
  · exact .unbound hy' (Or.inr rfl) (hfind.trans hnone) (hupper ▸ hmeans)
  · rintro ⟨w, z, hw, hrest⟩
    exact ⟨w, z, inside_of_upper? hy hu hw, hrest⟩

/-- Where the cautious find a variable, an optimist finds one, too. -/
theorem Means.optimistic {start m : Option Nat} (hm : a.Means false name start m)
    (h : a.Alike a') : ∀ v, m = some v → Outlook a a' name start v := by
  induction hm with
  | outside => exact nofun
  | @bound s v y hy hsure hv =>
    rintro _ ⟨⟩
    obtain ⟨y', hy', hlasting⟩ := h.exists_scope hy
    have hfind : y'.find? name = y.find? name := (congrArg (Scope.find? · name) hlasting :)
    refine ⟨s, s, v, rfl, .refl, ?_, .bound hy' (Or.inr rfl) (hfind.trans hv), .inl rfl⟩
    rw [variableIn?_eq, hy]
    exact hv
  | unbound hy _ hv _ ih => exact fun v hm => .next h hy hv (ih v hm)
  | @hidden s m y hy _ hkind _ ih =>
    intro v hm
    cases hv : y.find? name with
    | none => exact .next h hy hv (ih v hm)
    | some u =>
      -- an optimist goes by the variable of the `with`
      obtain ⟨upper, t, -, hupper, hinside, hbound, -⟩ := ih v hm
      obtain ⟨y', hy', hlasting⟩ := h.exists_scope hy
      have hfind : y'.find? name = y.find? name := (congrArg (Scope.find? · name) hlasting :)
      have houter := inside_of_upper? hy hupper hinside
      exact ⟨s, t, u, rfl, houter, hbound, .bound hy' (Or.inr rfl) (hfind.trans hv),
        .inr ⟨s, y, .refl, houter, hy, hkind, hv⟩⟩
  | unknown => exact nofun

end Analysis

/-! ## Two analyses of a program -/

/-- What is to be done does not depend on how references are settled. -/
theorem Tree.actions_optimistic (o : Options) (place : Place) {c : Category} (t : Tree c) :
    Tree.actions { o with optimistic := true } place t =
      Tree.actions { o with optimistic := false } place t := by
  delta Tree.actions
  rfl

/-- Optimism does not matter for anything that lasts. -/
theorem Program.alike_analyze (o : Options) {p : Program} (hids : (Tree.ids p).Nodup) :
    Agree Analysis.Alike (Program.analyze { o with optimistic := false } p)
      (Program.analyze { o with optimistic := true } p) := by
  have hactions : Program.actions { o with optimistic := true } p =
      Program.actions { o with optimistic := false } p := Tree.actions_optimistic o _ p
  have hrun : Agree Builder.Twins
      (Builder.run { o with optimistic := false } {}
        (Program.actions { o with optimistic := false } p))
      (Builder.run { o with optimistic := true } {}
        (Program.actions { o with optimistic := false } p)) :=
    Builder.Twins.run (.even (.refl {})) rfl .empty .empty (Program.orderly_actions _ hids)
      (Program.oneGlobal_actions _ p)
  unfold Program.analyze
  rw [hactions]
  refine hrun.bind_of_ok fun b b' hb hb' htwins => ?_
  have halike := htwins.alike (Builder.Sound.empty.run hb).sound.wellFormed
  cases htwins with
  | even heven =>
    rw [heven.stack]
    cases b.stack with
    | nil => exact .ok halike
    | cons s rest => exact .error _
  | ended _ hstack hstack' =>
    rw [hstack, hstack']
    exact .ok halike

/-- In an analysis that has been given, references are resolved to what they mean. -/
theorem Program.means_of_analyze {o : Options} {p : Program} {a : Analysis}
    (hids : (Tree.ids p).Nodup) (h : Program.analyze o p = .ok a) {r : Nat} {x : Reference}
    (hx : a.references[r]? = some x) : a.Means o.optimistic x.name (some x.scope) x.resolved := by
  obtain ⟨b, rfl, hb⟩ := Program.exists_finished h
  exact (hb.journeys hids r x hx).means hb.wellFormed hb.stack

/-- If the nodes of a program are distinct, its analysis by an optimist is that by the cautious,
apart from what is settled when scopes are closed. Every reference that the cautious resolve is
resolved by the optimist, to the same variable unless a `with` on the way to that variable declares
the name. -/
theorem Program.analyze_optimistic (o : Options) {p : Program} (hids : (Tree.ids p).Nodup) :
    Agree (fun a a' => a.Alike a' ∧
        ∀ (r : Nat) (x : Reference) (v : Nat), a.references[r]? = some x → x.resolved = some v →
          ∃ z x' v', a.vars[v]? = some z ∧ a'.references[r]? = some x' ∧ x'.resolved = some v' ∧
            (v' = v ∨ a.Shadowed x.name x.scope z.scope v'))
      (Program.analyze { o with optimistic := false } p)
      (Program.analyze { o with optimistic := true } p) := by
  refine (Program.alike_analyze o hids).mono_of_ok fun a a' ha ha' halike => ⟨halike, ?_⟩
  intro r x v hx hv
  obtain ⟨x', hx', hlasting⟩ := halike.exists_reference hx
  have hname : x'.name = x.name := (congrArg Reference.name hlasting :)
  have hscope : x'.scope = x.scope := (congrArg Reference.scope hlasting :)
  have hmeans := Program.means_of_analyze hids ha hx
  have hmeans' := Program.means_of_analyze hids ha' hx'
  rw [hname, hscope] at hmeans'
  obtain ⟨s, t, v', hs, -, hbound, hoptimist, hsame⟩ := hmeans.optimistic halike v hv
  cases hs
  obtain ⟨b, rfl, hb⟩ := Program.exists_finished ha
  obtain ⟨z, hz, hzscope, -⟩ := hb.wellFormed.variable_eq hbound
  refine ⟨z, x', v', hz, hx', hoptimist.unique hmeans', ?_⟩
  rwa [hzscope]

/-- The program `function f(x) { with (o) function x() { x } }`. -/
def Program.functionInWith : Program :=
  let mark (n : Nat) : Mark := ⟨n, ⟨n, n⟩⟩
  let declare (m : Nat) (name : Identifier) (params : Tree (.list .pattern))
      (body : Tree .block) : Stmt :=
    .functionDeclaration (.function .declaration (mark m) (some name) params (.blockBody body)
      false false false)
  .program (mark 0) (.cons (declare 1 ⟨mark 2, "f"⟩ (.cons (.identifierPattern ⟨mark 3, "x"⟩) .nil)
    (.block (mark 4) (.cons (.withStatement (mark 5) (.identifier ⟨mark 6, "o"⟩)
      (declare 7 ⟨mark 8, "x"⟩ .nil (.block (mark 9) (.cons (.expressionStatement (mark 10)
        (.identifier ⟨mark 11, "x"⟩) none) .nil)))) .nil))) .nil)

/-- The cautious take the inner function's `x` for the parameter, since they look past the `with`.
An optimist takes it for the function that is declared there. -/
theorem Program.analyze_optimistic_with : (Tree.ids Program.functionInWith).Nodup ∧
    ∃ a a' x x', Program.analyze {} .functionInWith = .ok a ∧
      Program.analyze { optimistic := true } .functionInWith = .ok a' ∧ a.Alike a' ∧
      a.references[1]? = some x ∧ x.resolved = some 2 ∧
      a'.references[1]? = some x' ∧ x'.resolved = some 3 ∧ a.Shadowed "x" 3 1 3 := by
  have hids : (Tree.ids Program.functionInWith).Nodup := by decide
  have hok : (Program.analyze {} .functionInWith).isOk = true := by decide +kernel
  have hcautious : ((Program.analyze {} .functionInWith).toOption.bind fun a =>
    (a.references[1]?).map fun x => (x.name, x.scope, x.resolved)) = some ("x", 3, some 2) := by
    decide +kernel
  have hparameter : ((Program.analyze {} .functionInWith).toOption.bind fun a =>
    (a.vars[2]?).map (·.scope)) = some 1 := by decide +kernel
  have hoptimist : ((Program.analyze { optimistic := true } .functionInWith).toOption.bind
    fun a => (a.references[1]?).map (·.resolved)) = some (some 3) := by decide +kernel
  obtain ⟨a, a', ha, ha', halike, hmore⟩ := (Program.analyze_optimistic {} hids).exists_ok hok
  rw [ha] at hcautious hparameter
  rw [ha'] at hoptimist
  obtain ⟨x, hx, hx₁⟩ := Option.map_eq_some_iff.mp hcautious
  obtain ⟨hname, hrest⟩ := Prod.mk.inj hx₁
  obtain ⟨hscope, hresolved⟩ := Prod.mk.inj hrest
  obtain ⟨z, x', v', hz, hx', hresolved', hsame⟩ := hmore 1 x 2 hx hresolved
  obtain ⟨z₁, hz₁, hzscope⟩ := Option.map_eq_some_iff.mp hparameter
  obtain ⟨x₁, hx₁, hthree⟩ := Option.map_eq_some_iff.mp hoptimist
  cases hz₁.symm.trans hz
  cases hx₁.symm.trans hx'
  cases hthree.symm.trans hresolved'
  rw [hname, hscope, hzscope] at hsame
  exact ⟨hids, a, a', x, x', ha, ha', halike, hx, hresolved, hx', hresolved',
    hsame.resolve_left (by decide)⟩

end EcmaScope
