import EcmaScope.Proofs.Resolution

/-!
# The references that scopes let through

A scope lets a reference through if the reference is made in it or inside it and means nothing that
is bound there: it means a variable of a scope further out, or nothing that is known. The scope
lists the reference once, no matter how it came through.

So a name is not used in a scope, neither as one that the scope binds nor as one that reaches beyond
it, if and only if all references by that name are settled further inside.

## Main definitions

* `Analysis.Within`: a scope lies inside another one.
* `Analysis.LetsThrough`: which references a scope is to let through.

## Main results

* `Builder.Journey.exists_counted`: what lets a reference through in the end.
* `Program.through_count`: the references that a scope lets through, and the names that are not
  used in it.
-/

namespace EcmaScope

namespace Analysis

/-- The scope `t` lies inside the scope `s`, and is not `s` itself. -/
def Within (a : Analysis) (t s : Nat) : Prop :=
  Relation.TransGen (fun t u => a.upper? t = some u) t s

/-- The reference is made in the scope `s` or inside it, and it means nothing that is bound
there. -/
def LetsThrough (a : Analysis) (s : Nat) (x : Reference) : Prop :=
  a.Inside x.scope s ∧ (x.resolved = none ∨
    ∃ v z, x.resolved = some v ∧ a.vars[v]? = some z ∧ a.Within s z.scope)

variable {a : Analysis} {size : Nat} {stack : List Nat} {owned : Nat → List Nat} {s t u : Nat}

/-- A scope that lists the scopes around it lies within exactly these. -/
theorem within_iff (h : Layout a.frame? size stack owned) {f : Frame} (hf : a.frame? t = some f) :
    a.Within t s ↔ s ∈ f.enclosing := by
  constructor
  · intro hwithin
    obtain ⟨u, hu, hinside⟩ := Relation.TransGen.head'_iff.mp hwithin
    rw [upper?_of_frame hf] at hu
    obtain ⟨rest, hrest⟩ := List.head?_eq_some_iff.mp hu
    have hchained := h.chained_enclosing hf
    rw [hrest] at hchained
    obtain ⟨g, hg, henclosing⟩ := hchained.frame
    rw [hrest, ← henclosing]
    exact (inside_iff h hg).mp hinside
  · intro hmem
    have hinside := (inside_iff h hf).mpr (List.mem_cons_of_mem t hmem)
    rcases Relation.reflTransGen_iff_eq_or_transGen.mp hinside with rfl | hwithin
    · exact absurd (h.enclosing_lt hf _ hmem) (Nat.lt_irrefl _)
    · exact hwithin

theorem lt_of_upper? (h : Layout a.frame? size stack owned) (hu : a.upper? t = some u) : u < t := by
  rw [upper?_eq] at hu
  obtain ⟨f, hf, hu⟩ := Option.bind_eq_some_iff.mp hu
  exact h.enclosing_lt hf u (List.mem_of_head? hu)

private theorem lt_of_within (h : Layout a.frame? size stack owned) (hwithin : a.Within t s) :
    s < t := by
  induction hwithin with
  | single hu => exact lt_of_upper? h hu
  | tail _ hu ih => exact Nat.lt_trans (lt_of_upper? h hu) ih

/-- Of two scopes around a third one, one lies within the other, or they are the same. -/
theorem inside_cases (hs : a.Inside t s) (hu : a.Inside t u) :
    s = u ∨ a.Within s u ∨ a.Within u s := by
  have hunique : Relator.RightUnique fun t u => a.upper? t = some u := fun _ _ _ h h' =>
    Option.some.inj (h.symm.trans h')
  rcases Relation.ReflTransGen.total_of_right_unique hunique hs hu with h | h
  · rcases Relation.reflTransGen_iff_eq_or_transGen.mp h with rfl | h
    · exact Or.inl rfl
    · exact Or.inr (Or.inl h)
  · rcases Relation.reflTransGen_iff_eq_or_transGen.mp h with rfl | h
    · exact Or.inl rfl
    · exact Or.inr (Or.inr h)

end Analysis

namespace Builder

variable {b : Builder} {optimistic : Bool} {r : Nat} {x : Reference}

/-- The scopes that a reference has passed before it came to the scope `w` are those within `w`. -/
theorem mem_passed_iff {passed rest : List Nat} {s w : Nat}
    (hlayout : Layout b.frame? b.scopes.size b.stack b.scopesOf)
    (hchained : Chained b.frame? (passed ++ rest)) (hw : rest.head? = some w) :
    s ∈ passed ↔ s ∈ passed ++ rest ∧ b.Within s w := by
  obtain ⟨rest, rfl⟩ := List.head?_eq_some_iff.mp hw
  have hrest := Chained.of_append passed hchained
  constructor
  · intro hs
    refine ⟨List.mem_append_left _ hs, ?_⟩
    obtain ⟨l₁, l₂, rfl⟩ := List.append_of_mem hs
    rw [List.append_assoc] at hchained
    obtain ⟨g, hg, henclosing⟩ := (Chained.of_append l₁ hchained).frame
    rw [Analysis.within_iff hlayout hg, henclosing]
    exact List.mem_append_right l₂ List.mem_cons_self
  · rintro ⟨hs, hwithin⟩
    rcases List.mem_append.mp hs with hs | hs
    · exact hs
    · obtain ⟨g, hg, henclosing⟩ := hrest.frame
      have hlt := Analysis.lt_of_within hlayout hwithin
      rcases List.mem_cons.mp hs with rfl | hs
      · exact absurd hlt (Nat.lt_irrefl _)
      · rw [← henclosing] at hs
        exact absurd (Nat.lt_trans hlt (hlayout.enclosing_lt hg s hs)) (Nat.lt_irrefl _)

/-- In the end a reference is let through once by each scope that is to let it through. -/
theorem Journey.exists_counted (h : Journey b optimistic r x) (hb : WellFormed b)
    (hstack : b.stack = []) :
    ∃ lets, b.Counted r none lets ∧ ∀ s, s ∈ lets ↔ b.LetsThrough s x := by
  obtain ⟨f, passed, rest, hf, hchain, -, hend⟩ := h.ended hb hstack
  have hinside (s : Nat) : b.Inside x.scope s ↔ s ∈ passed ++ rest := by
    rw [Analysis.inside_iff hb.layout hf, hchain]
  have hchained : Chained b.frame? (passed ++ rest) := by
    rw [← hchain]
    exact .cons hf (hb.layout.chained_enclosing hf)
  rcases hend with ⟨w, v, hw, hruled, hresolved, hcounted⟩ | ⟨-, hresolved, hcounted⟩
  · refine ⟨passed, hcounted, fun s => ?_⟩
    obtain ⟨-, z, hz, rfl, -⟩ := hruled.exists_variable hb
    rw [mem_passed_iff hb.layout hchained hw, Analysis.LetsThrough, hinside, hresolved]
    refine and_congr_right fun _ => ⟨fun hwithin => Or.inr ⟨v, z, rfl, hz, hwithin⟩, ?_⟩
    rintro (hnone | ⟨v', z', hv', hz', hwithin⟩)
    · cases hnone
    · cases hv'
      rw [hz] at hz'
      cases hz'
      exact hwithin
  · refine ⟨passed ++ rest, hcounted, fun s => ?_⟩
    rw [Analysis.LetsThrough, hinside, hresolved]
    simp

/-- A reference by a name that the scope `s` does not bind is not let through by `s` if and only if
it stands for a variable further inside. -/
theorem Journey.not_letsThrough_iff {s : Nat} (h : Journey b optimistic r x) (hb : WellFormed b)
    (hstack : b.stack = []) (hs : b.variableIn? x.name s = none) (hinside : b.Inside x.scope s) :
    ¬ b.LetsThrough s x ↔
      ∃ v z, x.resolved = some v ∧ b.vars[v]? = some z ∧ b.Within z.scope s := by
  constructor
  · intro hnot
    cases hresolved : x.resolved with
    | none => exact absurd ⟨hinside, Or.inl hresolved⟩ hnot
    | some v =>
      obtain ⟨z, hz, -, hz_inside, hbound⟩ := h.exists_variable hb hstack hresolved
      refine ⟨v, z, rfl, hz, ?_⟩
      rcases Analysis.inside_cases hinside hz_inside with rfl | hwithin | hwithin
      · rw [hs] at hbound
        cases hbound
      · exact absurd ⟨hinside, Or.inr ⟨v, z, hresolved, hz, hwithin⟩⟩ hnot
      · exact hwithin
  · rintro ⟨v, z, hresolved, hz, hwithin⟩ ⟨-, hnone | ⟨v', z', hresolved', hz', hwithin'⟩⟩
    · rw [hresolved] at hnone
      cases hnone
    · rw [hresolved] at hresolved'
      cases hresolved'
      rw [hz] at hz'
      cases hz'
      have hlt := Analysis.lt_of_within hb.layout hwithin
      exact Nat.lt_asymm hlt (Analysis.lt_of_within hb.layout hwithin')

section

variable {o : Options} {orderly : Prop} {s : Nat} {y : Scope}

/-- A scope lists every reference that it is to let through once, and no other. -/
theorem Finished.count_through (hb : b.Finished o orderly) (ho : orderly)
    (hy : b.scopes[s]? = some y) (hx : b.references[r]? = some x) :
    (b.LetsThrough s x → y.through.count r = 1) ∧ (¬ b.LetsThrough s x → r ∉ y.through) := by
  have hthroughOf : b.throughOf s = y.through.toList := by simp [Analysis.throughOf, hy]
  obtain ⟨lets, hcounted, hlets⟩ := (hb.journeys ho r x hx).exists_counted hb.wellFormed hb.stack
  have hcount := hcounted.through s
  rw [hthroughOf, Array.count_toList] at hcount
  constructor
  · intro hlet
    rwa [if_pos ((hlets s).mpr hlet)] at hcount
  · intro hlet
    rw [if_neg fun hs => hlet ((hlets s).mp hs)] at hcount
    exact Array.count_eq_zero.mp hcount

private theorem Finished.notMem_through_iff (hb : b.Finished o orderly) (ho : orderly)
    (hy : b.scopes[s]? = some y) (hx : b.references[r]? = some x) :
    r ∉ y.through ↔ ¬ b.LetsThrough s x := by
  have hcount := hb.count_through ho hy hx
  refine ⟨fun hr hlet => hr (Array.count_pos_iff.mp ?_), hcount.2⟩
  rw [hcount.1 hlet]
  exact Nat.one_pos

end

end Builder

/-- A name is not used in a scope if the scope neither binds it nor lets references by it
through. -/
theorem Analysis.isNameUsed_eq_false_iff {a : Analysis} {s : Nat} {y : Scope}
    (hy : a.scopes[s]? = some y) (name : String) :
    a.isNameUsed s name = false ↔ y.find? name = none ∧
      ∀ (r : Nat) (x : Reference), a.references[r]? = some x → x.name = name → r ∉ y.through := by
  rw [isNameUsed, hy, Option.any_some, Bool.or_eq_false_iff, Option.isSome_eq_false_iff,
    Option.isNone_iff_eq_none]
  refine and_congr_right fun _ => ?_
  rw [← Bool.not_eq_true, Array.any_eq_true']
  constructor
  · intro h r x hx hname hr
    exact h ⟨r, hr, by rw [hx, Option.any_some, decide_eq_true hname]⟩
  · rintro h ⟨r, hr, hany⟩
    rw [Option.any_eq_true] at hany
    obtain ⟨x, hx, hname⟩ := hany
    exact h r x hx (of_decide_eq_true hname) hr

/-- A name is not used in a scope if and only if the scope does not bind it and all references by
the name that are made in it or inside it stand for variables further inside. -/
theorem Builder.Finished.isNameUsed_iff {b : Builder} {o : Options} {orderly : Prop} {s : Nat}
    {y : Scope} (hb : b.Finished o orderly) (ho : orderly) (hy : b.scopes[s]? = some y)
    (name : String) :
    b.isNameUsed s name = false ↔ y.find? name = none ∧
      ∀ (r : Nat) (x : Reference), b.references[r]? = some x → x.name = name →
        b.Inside x.scope s →
          ∃ v z, x.resolved = some v ∧ b.vars[v]? = some z ∧ b.Within z.scope s := by
  rw [Analysis.isNameUsed_eq_false_iff hy]
  refine and_congr_right fun hnone => ?_
  have hunbound : b.variableIn? name s = none := by
    rw [Analysis.variableIn?_eq, hy]
    exact hnone
  have hsettled (r : Nat) (x : Reference) (hx : b.references[r]? = some x) (hname : x.name = name)
      (hinside : b.Inside x.scope s) := by
    rw [← hname] at hunbound
    exact (hb.journeys ho r x hx).not_letsThrough_iff hb.wellFormed hb.stack hunbound hinside
  constructor
  · intro hout r x hx hname hinside
    have hlet := (hb.notMem_through_iff ho hy hx).mp (hout r x hx hname)
    exact (hsettled r x hx hname hinside).mp hlet
  · intro hin r x hx hname
    rw [hb.notMem_through_iff ho hy hx]
    intro hlet
    exact (hsettled r x hx hname hlet.1).mpr (hin r x hx hname hlet.1) hlet

/-- If the nodes of a program are distinct, a scope lists every reference that it is to let through
once, and no other; and a name is not used in it if and only if the scope does not bind the name and
all references by the name that are made in it or inside it stand for variables further inside. -/
theorem Program.through_count {o : Options} {p : Program} {a : Analysis}
    (hids : (Tree.ids p).Nodup) (h : Program.analyze o p = .ok a) {s : Nat} {y : Scope}
    (hy : a.scopes[s]? = some y) :
    (∀ (r : Nat) (x : Reference), a.references[r]? = some x →
        (a.LetsThrough s x → y.through.count r = 1) ∧ (¬ a.LetsThrough s x → r ∉ y.through)) ∧
      ∀ name, a.isNameUsed s name = false ↔ y.find? name = none ∧
        ∀ (r : Nat) (x : Reference), a.references[r]? = some x → x.name = name →
          a.Inside x.scope s →
            ∃ v z, x.resolved = some v ∧ a.vars[v]? = some z ∧ a.Within z.scope s := by
  obtain ⟨b, rfl, hb⟩ := Program.exists_finished h
  exact ⟨fun r x hx => hb.count_through hids hy hx, hb.isNameUsed_iff hids hy⟩

/-- In a loop over the value of a function expression, the scope of the function's name lets the
loop's name through. -/
theorem Program.through_count_loop : (Tree.ids (Program.loopOverFunction id)).Nodup ∧
    ∃ a y, Program.analyze .es6 (.loopOverFunction id) = .ok a ∧ a.scopes[2]? = some y ∧
      y.through = #[0] ∧ ∀ (r : Nat) (x : Reference), a.references[r]? = some x →
        (a.LetsThrough 2 x → y.through.count r = 1) ∧ (¬ a.LetsThrough 2 x → r ∉ y.through) := by
  have hids : (Tree.ids (Program.loopOverFunction id)).Nodup := by decide
  have hthrough : ((Program.analyze .es6 (.loopOverFunction id)).toOption.bind
    fun a => (a.scopes[2]?).map (·.through)) = some #[0] := by decide +kernel
  cases h : Program.analyze .es6 (.loopOverFunction id) with
  | error e =>
    rw [h] at hthrough
    cases hthrough
  | ok a =>
    rw [h] at hthrough
    obtain ⟨y, hy, hthrough⟩ := Option.map_eq_some_iff.mp hthrough
    exact ⟨hids, a, y, rfl, hy, hthrough, (Program.through_count hids h hy).1⟩

end EcmaScope
