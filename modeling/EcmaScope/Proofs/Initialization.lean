import EcmaScope.Proofs.Around
import EcmaScope.Proofs.Capture
import EcmaScope.Proofs.Placement
import EcmaScope.Proofs.Surveys

/-!
# Initial values

A reference that gives a variable its first value is made while the declaration of the name is under
way, or as long as the scope of the name is the innermost one. So it is made in a scope from which
the declaration would be received by the same scope: for `var` this is the variable scope, for
everything else the scope of the reference itself.

A name that is declared by `var` may be bound again by a scope in between, as by that of a `catch`
clause. Then this one receives the value. It never gets to another function.

## Main definitions

* `Outline.SitesOpen`: the scopes that receive declarations are open at every point of a walk.
* `Definition.Reaches`: where a definition belongs that is made in a given scope.
* `Analysis.Lists`: a variable of a scope lists an identifier.
* `Analysis.InWith`: an identifier is declared right in a `with`.

## Main results

* `Program.exists_initialized`: what receives an initial value has been declared where it belongs.
* `Program.isInit_iff_lists`: references that initialize are the writes to declared identifiers, and
  where they are resolved to.
-/

namespace EcmaScope

open Outline

/-! ## Declaration sites -/

/-- Closing scopes ends no declarations. -/
theorem Outline.Run.sites_of_replicate {w w' : Outline} {n k : Nat}
    (h : Run w (List.replicate k (.closeScopes n)) w') : w'.sites = w.sites := by
  induction k generalizing w with
  | zero =>
    cases h
    rfl
  | succ k ih =>
    cases h with
    | cons hstep hrun =>
      cases hstep with
      | plain ha => cases ha
      | closeScopes => exact (ih hrun :)

/-- Nested actions end all declarations that they begin. -/
theorem Action.Nested.sites_eq {owner : Option Nat} {sited : Bool} {I : List Nat} {A : List Action}
    (h : Action.Nested owner sited I A) {w w' : Outline} (hrun : Run w A w') :
    w'.sites = w.sites := by
  induction h generalizing w w' with
  | nil =>
    cases hrun
    rfl
  | append _ _ ihA ihB =>
    obtain ⟨w₁, hA, hB⟩ := hrun.exists_of_append
    exact (ihB hB).trans (ihA hA)
  | plain a ha => rw [hrun.step.eq_of_isPlain ha]
  | declare d => cases hrun.step <;> rfl
  | site reach _ ih =>
    obtain ⟨w₂, hrun, hend⟩ := hrun.exists_of_append
    obtain ⟨w₁, hbegin, hA⟩ := hrun.exists_of_append
    have hsites := ih hA
    cases hbegin.step with
    | plain ha => cases ha
    | beginSite hs =>
      cases hend.step with
      | plain ha => cases ha
      | endSite => exact congrArg List.tail hsites
  | openScope kind block strict =>
    cases hrun.step with
    | plain ha => cases ha
    | openScope => rfl
  | scopes k _ ih =>
    obtain ⟨w₁, hA, hclose⟩ := hrun.exists_of_append
    exact hclose.sites_of_replicate.trans (ih hA)

namespace Outline

variable {owner : Option Nat} {sited : Bool} {I : List Nat} {w : Outline} {A B : List Action}

/-- At every point of the actions, the scopes that receive declarations are open. -/
def SitesOpen (w : Outline) (A : List Action) : Prop :=
  ∀ ⦃B C : List Action⦄ ⦃w' : Outline⦄, A = B ++ C → Run w B w' → ∀ s ∈ w'.sites, s ∈ w'.stack

namespace SitesOpen

private theorem append (hA : SitesOpen w A) (hB : ∀ w', Run w A w' → SitesOpen w' B) :
    SitesOpen w (A ++ B) := by
  intro B' C w' hsplit hrun
  rcases List.append_eq_append_iff.mp hsplit with ⟨D, rfl, hD⟩ | ⟨D, hD, -⟩
  · obtain ⟨w₁, hrunA, hrunD⟩ := hrun.exists_of_append
    exact hB w₁ hrunA hD hrunD
  · exact hA hD hrun

/-- One action, before and after which the sites are open. -/
private theorem single {a : Action} (hw : ∀ s ∈ w.sites, s ∈ w.stack)
    (hstep : ∀ w', Step w a w' → ∀ s ∈ w'.sites, s ∈ w'.stack) : SitesOpen w [a] := by
  intro B C w' hsplit hrun
  cases B with
  | nil =>
    cases hrun
    exact hw
  | cons b B =>
    obtain ⟨rfl, hnil⟩ := List.cons.inj hsplit
    obtain ⟨rfl, -⟩ := List.append_eq_nil_iff.mp hnil.symm
    exact hstep w' hrun.step

/-- The scopes of a node are closed after the actions that have opened them. -/
private theorem replicate {w₁ : Outline} {n k : Nat} {τ : List Nat} (h : Leaves (some n) I τ w w₁)
    (hw : Admits owner sited (n :: I) w) (hn : n ∉ I) :
    SitesOpen w₁ (List.replicate k (Action.closeScopes n)) := by
  intro B C w' hsplit hrun
  obtain ⟨-, hB, -⟩ := List.append_eq_replicate_iff.mp hsplit.symm
  rw [hB] at hrun
  cases hlength : B.length with
  | zero =>
    rw [hlength] at hrun
    cases hrun
    rw [h.sites, h.stack]
    exact fun s hs => List.mem_append_right τ (hw.sites_subset s hs)
  | succ j =>
    rw [hlength] at hrun
    rw [h.run_close (hw.fresh n List.mem_cons_self) hn hw.stack_lt hrun]
    change ∀ s ∈ w₁.sites, s ∈ w.stack
    rw [h.sites]
    exact hw.sites_subset

end SitesOpen

end Outline

/-- While nested actions with distinct nodes are carried out, the scopes that receive declarations
are open. -/
theorem Action.Nested.sitesOpen {owner : Option Nat} {sited : Bool} {I : List Nat}
    {A : List Action} (h : Action.Nested owner sited I A) (hnodup : I.Nodup)
    (howner : ∀ n ∈ I, owner ≠ some n) {w : Outline} (hw : Admits owner sited I w) :
    SitesOpen w A := by
  induction h generalizing w with
  | nil =>
    intro B C w' hsplit hrun
    obtain ⟨rfl, -⟩ := List.append_eq_nil_iff.mp hsplit.symm
    cases hrun
    exact hw.sites_subset
  | @append owner sited I J A B hA hB ihA ihB =>
    have hparts := List.nodup_append.mp hnodup
    have hI : ∀ n ∈ I, owner ≠ some n := fun n hn => howner n (List.mem_append_left J hn)
    have hJ : ∀ n ∈ J, n ∉ I ∧ owner ≠ some n := fun n hn =>
      ⟨fun hnI => hparts.2.2 n hnI n hn rfl, howner n (List.mem_append_right I hn)⟩
    refine (ihA hparts.1 hI hw.left).append fun w₁ hrun => ?_
    obtain ⟨τ, hτ⟩ := (hA.balanced hparts.1 hI hw.left).2 w₁ hrun
    exact ihB hparts.2.1 (fun n hn => (hJ n hn).2) (hτ.admits hw hJ hI)
  | plain a ha =>
    refine .single hw.sites_subset fun w' hstep => ?_
    rw [hstep.eq_of_isPlain ha]
    exact hw.sites_subset
  | declare d =>
    refine .single hw.sites_subset fun w' hstep => ?_
    cases hstep <;> exact hw.sites_subset
  | @site owner sited I A reach hA ih =>
    have hnone : ∀ n ∈ I, none ≠ some n := fun n _ h => by cases h
    -- the scope that receives the declaration is open until it ends, and so are the others
    refine .append (.append (.single hw.sites_subset fun w' hstep => ?_) fun w₁ hbegin => ?_)
      fun w₂ hrun => ?_
    · cases hstep with
      | plain ha => cases ha
      | beginSite _ hs => exact (hw.site hs).sites_subset
    · cases hbegin.step with
      | plain ha => cases ha
      | beginSite _ hs => exact ih hnodup hnone (hw.site hs)
    · obtain ⟨w₁, hbegin, hrun⟩ := hrun.exists_of_append
      cases hbegin.step with
      | plain ha => cases ha
      | beginSite _ hs =>
        obtain ⟨τ, hτ⟩ := (hA.balanced hnodup hnone (hw.site hs)).2 w₂ hrun
        have hopen : ∀ t ∈ w₂.sites, t ∈ w₂.stack := by
          rw [hτ.sites, hτ.stack]
          exact fun t ht => List.mem_append_right τ ((hw.site hs).sites_subset t ht)
        refine .single hopen fun w' hstep => ?_
        cases hstep with
        | plain ha => cases ha
        | endSite => exact fun t ht => hopen t (List.mem_of_mem_tail ht)
  | openScope kind block strict =>
    refine .single hw.sites_subset fun w' hstep => ?_
    cases hstep with
    | plain ha => cases ha
    | openScope => exact fun t ht => List.mem_cons_of_mem _ (hw.sites_subset t ht)
  | @scopes owner sited n I A k hA ih =>
    have hn := List.nodup_cons.mp hnodup
    have hI : ∀ m ∈ I, some n ≠ some m := fun m hm h => hn.1 (by cases h; exact hm)
    refine (ih hn.2 hI hw.scopes).append fun w₁ hrun => ?_
    obtain ⟨τ, hτ⟩ := (hA.balanced hn.2 hI hw.scopes).2 w₁ hrun
    exact .replicate hτ hw hn.1

/-- If the nodes of a program are distinct, the scopes that receive declarations are open. -/
theorem Program.sitesOpen (o : Options) {p : Program} (hids : (Tree.ids p).Nodup) :
    SitesOpen .empty (Program.actions o p) := by
  obtain ⟨strict, M, A, hactions, hmarks, I, hcount, hA⟩ := Program.actions_eq o p
  rw [Tree.ids, hmarks] at hids
  obtain ⟨hI, hroot⟩ := nodup_of_count_le hids hcount
  rw [hactions]
  refine .append (.append (.single (by simp [Outline.empty]) fun w hstep => ?_) fun w hopen => ?_)
    fun w hrun => ?_
  · cases hstep with
    | plain ha => cases ha
    | openScope => simp [Outline.empty]
  · cases Outline.run_openScope_empty hopen
    exact hA.sitesOpen hI hroot (Outline.admits_first hroot)
  · obtain ⟨w₁, hopen, hrun⟩ := hrun.exists_of_append
    cases Outline.run_openScope_empty hopen
    have hsites : w.sites = [] := hA.sites_eq hrun
    refine .single (by simp [hsites]) fun w' hstep => ?_
    cases hstep with
    | plain ha => cases ha
    | closeScopes => simp [hsites]

/-! ## Where definitions belong -/

/-- Of two scopes that lie inside each other there is only one. -/
theorem Analysis.IsTree.eq_of_inside {a : Analysis} (ha : a.IsTree) {s t : Nat}
    (hts : a.Inside t s) (hst : a.Inside s t) : s = t :=
  Nat.le_antisymm (ha.le_of_inside hts) (ha.le_of_inside hst)

/-- The scopes between a scope and its variable scope have the same variable scope. -/
theorem Analysis.IsTree.variableScope_eq {a : Analysis} (ha : a.IsTree) {u t : Nat} {y z : Scope}
    (hy : a.scopes[u]? = some y) (hz : a.scopes[t]? = some z) (hut : a.Inside u t)
    (hts : a.Inside t y.variableScope) : z.variableScope = y.variableScope := by
  obtain ⟨-, ⟨v, hv, hkind⟩, hnearest⟩ := ha.variableScope_nearest u y hy
  obtain ⟨htz, ⟨w, hw, hkind'⟩, hnearest'⟩ := ha.variableScope_nearest t z hz
  exact ha.eq_of_inside (hnearest _ w (hut.trans htz) hw hkind') (hnearest' _ v hts hv hkind)

/-- A definition that is made in the scope `t` belongs to the scope `s`. -/
def Definition.Reaches (d : Definition) (a : Analysis) (t s : Nat) : Prop :=
  match d.kind.reach with
  | .innermost => s = t
  | .variableScope => ∃ y, a.scopes[t]? = some y ∧ y.variableScope = s

namespace Builder

variable {b b₀ c : Builder} {o : Options} {A A₀ : List Action} {t u : Nat}

private theorem exists_scope_of_lt {s : Nat} (hs : s < b.scopes.size) :
    ∃ y, b.scopes[s]? = some y :=
  ⟨b.scopes[s], Array.getElem?_eq_getElem hs⟩

/-- A declaration that was begun in the scope `u` goes on in the scope `t` outside of it. If the
scope that receives it is still open, it would be received by the same scope from `t`. -/
theorem Effects.reaches (h₀ : Effects o b₀ A₀ b) (hc : Effects o c A b) (htree : b.IsTree)
    (hu : b₀.stack.head? = some u) (ht : c.stack.head? = some t) (hstack : c.stack ⊆ b₀.stack)
    {d : Definition} (hs : b₀.receiver u d.kind.reach ∈ c.stack) :
    d.Reaches b.toAnalysis t (b₀.receiver u d.kind.reach) := by
  have hut : b.Inside u t := (h₀.inside_iff hu).mpr (hstack (List.mem_of_head? ht))
  have hts : b.Inside t (b₀.receiver u d.kind.reach) := (hc.inside_iff ht).mpr hs
  unfold Definition.Reaches
  cases hreach : d.kind.reach with
  | innermost =>
    rw [hreach] at hts
    exact htree.eq_of_inside hts hut
  | variableScope =>
    rw [hreach] at hts
    have hlt := h₀.start.wellFormed.layout.stack_lt (List.mem_of_head? hu)
    obtain ⟨y, hy⟩ := exists_scope_of_lt hlt
    have hreceiver : b₀.receiver u .variableScope = y.variableScope := by
      rw [receiver, variableScope, hy]
    obtain ⟨y', hy', -, -, -, hvariable⟩ := h₀.exists_scope h₀.start.wellFormed hy
    have hlt' := hc.start.wellFormed.layout.stack_lt (List.mem_of_head? ht)
    obtain ⟨z, hz⟩ := exists_scope_of_lt (Nat.lt_of_lt_of_le hlt' hc.size_le)
    rw [hreceiver, ← hvariable] at hts ⊢
    exact ⟨z, hz, htree.variableScope_eq hy' hz hut hts⟩

private theorem Effects.sites_eq (h : Effects o b₀ A b) {owner : Option Nat} {sited : Bool}
    {M : List Mark} (hA : Action.Enclosed owner sited M A) : b.sites = b₀.sites := by
  obtain ⟨I, -, hnested⟩ := hA
  exact hnested.sites_eq h.outline

/-- An identifier that a declaration under way has declared is bound by the scope that receives the
declaration. -/
theorem Effects.declared_underWay {b₁ : Builder} {B C D : List Action} {reach : Reach}
    {i : Identifier} (hB : Effects o {} B b₀) (hbegin : Effects o b₀ [.beginSite reach] b₁)
    (hD : Effects o b₁ D c) (hC : Effects o c C b) (hdeclares : Action.Declares reach i D) :
    ∃ d u, d.name = i ∧ d.kind.reach = reach ∧ d.kind.takesValues = true ∧ b₀.stack.head? = some u ∧
      b.BindsBy (b₀.receiver u reach) d ∧ b₀.receiver u reach ∈ c.sites ∧
      c.stack ⊆ b₀.stack := by
  have heffect := hbegin.single
  cases heffect with
  | @beginSite _ u hu =>
    obtain ⟨N, hN⟩ := hdeclares.exists_enclosed
    have hsites := hD.sites_eq hN
    have hstack := (hD.suffix hN).subset
    obtain ⟨d, hname, hreach, hvalues, hbefore, hafter⟩ := hdeclares
    refine ⟨d, u, hname, hreach, hvalues, hu, ?_, by rw [hsites]; exact List.mem_cons_self, hstack⟩
    obtain ⟨c₀, hD₁, hD₂⟩ := hD.exists_of_append
    have hstart := (hB.append hbegin).append hD₁
    refine (hstart.append (hD₂.append hC)).bindsBy_of_declared (c := c₀)
      (mem_declarations_of_append hstart (hD₂.append hC)) ?_
    rw [hD₁.sites_eq hbefore]
    rfl

/-- An identifier that has been met is bound by the scope that it belongs to. -/
theorem Effects.exists_bindsBy_of_met {B : List Action} {i : Identifier} (hB : Effects o {} B c)
    (hA : Effects o c A b) (htree : b.IsTree) (hopen : SitesOpen .empty (B ++ A))
    (ht : c.stack.head? = some t) (hmet : Action.Met i B) :
    ∃ d s, b.BindsBy s d ∧ d.name = i ∧ d.kind.takesValues = true ∧ d.Reaches b.toAnalysis t s := by
  cases hmet with
  | @inside B reach D hdeclares =>
    have hpoint := hopen rfl hB.outline
    obtain ⟨b₀, hstart, hsite⟩ := hB.exists_of_append
    obtain ⟨b₁, hbegin, hD⟩ := hsite.exists_of_append
    obtain ⟨d, u, hname, rfl, hvalues, hu, hbinds, hsites, hstack⟩ :=
      hstart.declared_underWay hbegin hD hA hdeclares
    exact ⟨d, _, hbinds, hname, hvalues,
      (hsite.append hA).reaches hA htree hu ht hstack (hpoint _ hsites)⟩
  | @after B reach D U hdeclares hU =>
    obtain ⟨b₀, hstart, hall⟩ := hB.exists_of_append
    obtain ⟨b₃, hsite, hrest⟩ := hall.exists_of_append
    obtain ⟨b₂, hunder, hend⟩ := hsite.exists_of_append
    obtain ⟨b₁, hbegin, hD⟩ := hunder.exists_of_append
    obtain ⟨d, u, hname, rfl, hvalues, hu, hbinds, hsites, hstack⟩ :=
      hstart.declared_underWay hbegin hD (hend.append (hrest.append hA)) hdeclares
    have hsame : c.stack = b₂.stack := by
      have hplain : c.outline = b₃.outline :=
        Run.eq_of_declare (fun a ha => .inl (hU a ha)) hrest.outline
      have heffect := hend.single
      cases heffect
      exact congrArg Outline.stack hplain
    have hsplit : B ++ (Action.site d.kind.reach D ++ U) ++ A =
        B ++ ([Action.beginSite d.kind.reach] ++ D) ++ ([Action.endSite] ++ U ++ A) := by simp
    have hpoint : b₀.receiver u d.kind.reach ∈ b₂.stack :=
      hopen hsplit (hstart.append hunder).outline _ hsites
    exact ⟨d, _, hbinds, hname, hvalues,
      (hall.append hA).reaches hA htree hu ht (hsame ▸ hstack) (hsame ▸ hpoint)⟩
  | @within B kind block strict D E M hdeclares hD hE hclose =>
    obtain ⟨b₀, hstart, hall⟩ := hB.exists_of_append
    obtain ⟨b₂, hscope, hrest⟩ := hall.exists_of_append
    obtain ⟨b₁, hfirst, hsite⟩ := hscope.exists_of_append
    have henclosed : Action.Enclosed none false [] (Action.site .innermost D) :=
      .site (.of_declare hD)
    have hkeep := hfirst.suffix_of_opened (hsite.append hrest) fun hmem =>
      (List.mem_append.mp hmem).elim
        (fun hmem => List.not_mem_nil (henclosed.mem_of_closeScopes hmem)) hclose
    have hstack : c.stack = b₀.scopes.size :: b₀.stack := by
      have hleave := (hrest.suffix hE).trans (hsite.suffix henclosed)
      rw [hfirst.opened.2.2] at hleave
      exact hleave.eq_of_length_le hkeep.length_le
    obtain ⟨d, hname, hreach, hvalues, -, -⟩ := hdeclares
    refine ⟨d, b₀.scopes.size, hstart.bindsBy hD hscope (hrest.append hA) ?_, hname, hvalues, ?_⟩
    · exact List.mem_append_right _ List.mem_cons_self
    · rw [hstack] at ht
      rw [Definition.Reaches, hreach]
      exact Option.some.inj ht

end Builder

/-! ## Programs -/

/-- A variable of a scope lists the identifier. -/
def Analysis.Lists (a : Analysis) (i : Identifier) : Prop :=
  ∃ (s : Nat) (y : Scope) (v : Nat) (z : Variable), a.scopes[s]? = some y ∧
    v ∈ y.bindings.vars ∧ a.vars[v]? = some z ∧ ∃ j ∈ z.identifiers, j.mark.id = i.mark.id

/-- The identifier is declared by `let` or `const` right in a `with`. -/
def Analysis.InWith (a : Analysis) (i : Identifier) : Prop :=
  ∃ s d y, a.BindsBy s d ∧ d.name = i ∧ d.kind.isLexical = true ∧ a.scopes[s]? = some y ∧
    y.kind = .withStatement

section

variable {o : Options} {p : Program} {a : Analysis} {s : Nat} {d : Definition}

/-- Every reference has been made by an action, in the scope that was then innermost. -/
theorem Program.exists_refer (h : Program.analyze o p = .ok a) {r : Nat} {x : Reference}
    (hx : a.references[r]? = some x) :
    ∃ (b c : Builder) (B C : List Action) (creator : Option Anchor), b.toAnalysis = a ∧
      Program.actions o p = B ++ .refer x.identifier x.use creator :: C ∧
      Builder.Effects o {} B c ∧
      Builder.Effects o c (.refer x.identifier x.use creator :: C) b ∧
      c.stack.head? = some x.scope := by
  obtain ⟨b, rfl, heffects⟩ := Program.exists_effects h
  have hrecord : b.record[r]? = some x.lasting := by simp [Analysis.record, hx]
  obtain ⟨B, C, c, creator, hsplit, hB, hC, hscope⟩ :=
    heffects.exists_refer (Nat.zero_le r) hrecord
  exact ⟨b, c, B, C, creator, rfl, hsplit, hB, hC, hscope⟩

/-- If the nodes of a program are distinct, an identifier occurs in one capacity. -/
theorem Program.capacity_eq (hids : (Tree.ids p).Nodup) {e e' : Action}
    (he : e ∈ Program.actions o p) (he' : e' ∈ Program.actions o p) {n n' : Nat} {k k' : Capacity}
    (hk : e.capacity? = some (n, k)) (hk' : e'.capacity? = some (n', k')) (hn : n = n') :
    k = k' :=
  congrArg Prod.snd <| ((Program.primes o p).distinguishes hids).eq _
    (List.mem_filterMap.mpr ⟨e, he, hk⟩) _ (List.mem_filterMap.mpr ⟨e', he', hk'⟩) hn

/-- What receives an initial value has been declared, and is bound by the scope that it belongs
to. -/
theorem Program.exists_initialized (hids : (Tree.ids p).Nodup) (h : Program.analyze o p = .ok a)
    {r : Nat} {x : Reference} (hx : a.references[r]? = some x) (hinit : x.use.isInit = true) :
    ∃ d s, a.BindsBy s d ∧ d.name = x.identifier ∧ d.kind.takesValues = true ∧
      d.Reaches a x.scope s := by
  have htree := (Program.ordered hids h).isTree
  obtain ⟨b, c, B, C, creator, rfl, hsplit, hB, hC, hscope⟩ := Program.exists_refer h hx
  rcases (Program.primes o p).founds hids hsplit hinit with hmet | ⟨_, hnone, -⟩
  · exact hB.exists_bindsBy_of_met hC htree (hsplit ▸ Program.sitesOpen o hids) hscope hmet
  · cases hnone

/-- What defines a name has been declared, and is in the right place. -/
theorem Program.exists_placed (hids : (Tree.ids p).Nodup) (h : Program.analyze o p = .ok a)
    (hd : a.BindsBy s d) :
    .declare d ∈ Program.actions o p ∧ ∃ u, d.PlacedAt o a u s := by
  obtain ⟨b, M, rfl, hhouses⟩ := Program.houses hids h
  have hrecords := hhouses.effects.records .empty
  obtain ⟨v, z, hv, hz, hmem⟩ := hd
  obtain ⟨z', hz', hdefs, -⟩ := hrecords.bound hv
  cases hz.symm.trans hz'
  rw [← Array.mem_toList_iff, hdefs] at hmem
  obtain ⟨c, hc, hs, -⟩ := Builder.mem_definitionsIn.mp hmem
  obtain ⟨u, t, -, ht, hplaced⟩ := (hhouses.placed (c, d) hc).resolve_right id
  cases hs.symm.trans ht
  obtain ⟨B, C, hsplit, -⟩ := hhouses.effects.mem_declarations hc
  exact ⟨hsplit ▸ List.mem_append_right B List.mem_cons_self, u, hplaced⟩

/-- What takes values and is bound by a `with` is declared by `let` or `const`. -/
theorem Program.isLexical_of_with (hids : (Tree.ids p).Nodup) (h : Program.analyze o p = .ok a)
    (hd : a.BindsBy s d) (hvalues : d.kind.takesValues = true) (hvar : d.kind.isVar = false)
    {y : Scope} (hy : a.scopes[s]? = some y) (hkind : y.kind = .withStatement) :
    d.kind.isLexical = true := by
  obtain ⟨-, u, hplaced⟩ := Program.exists_placed hids h hd
  have hother {kind : ScopeKind} (hne : kind ≠ .withStatement)
      (hopens : ∃ z, a.scopes[s]? = some z ∧ z.kind = kind) : False := by
    obtain ⟨z, hz, rfl⟩ := hopens
    cases hy.symm.trans hz
    exact hne hkind
  obtain ⟨kind, name, node⟩ := d
  cases kind with
  | parameter =>
    obtain ⟨z, hz, hfunction, -⟩ := hplaced
    exact (hother (by decide) ⟨z, hz, hfunction⟩).elim
  | catchClause =>
    obtain ⟨z, hz, hcatch, -⟩ := hplaced
    exact (hother (by decide) ⟨z, hz, hcatch⟩).elim
  | tdz => exact (hother (by decide) hplaced).elim
  | declared declaration index kind =>
    simpa [DefinitionKind.isVar, DefinitionKind.isLexical] using hvar
  | className | functionName | implicitGlobal | importBinding => cases hvalues

/-- The identifier of a definition is listed by the variable that it defines. -/
theorem Program.mem_identifiers (h : Program.analyze o p = .ok a) {v : Nat} {z : Variable}
    (hv : a.variableIn? d.name.name s = some v) (hz : a.vars[v]? = some z) (hd : d ∈ z.defs) :
    d.name ∈ z.identifiers := by
  obtain ⟨b, rfl, heffects⟩ := Program.exists_effects h
  obtain ⟨z', hz', hdefs, hidentifiers⟩ := (heffects.records .empty).bound hv
  cases hz.symm.trans hz'
  rw [← Array.mem_toList_iff, hidentifiers, ← hdefs]
  exact List.mem_map_of_mem (Array.mem_toList_iff.mpr hd)

private theorem Program.lists_of_bindsBy (h : Program.analyze o p = .ok a) (hd : a.BindsBy s d) :
    a.Lists d.name := by
  obtain ⟨v, z, hv, hz, hmem⟩ := hd
  have hidentifier := Program.mem_identifiers h hv hz hmem
  obtain ⟨b, rfl, heffects⟩ := Program.exists_effects h
  obtain ⟨y, hy, hfind⟩ := Option.bind_eq_some_iff.mp hv
  have hlisted : Builder.Listed b := heffects.listed (by simp [Builder.Listed])
  exact ⟨s, y, v, z, hy, (hlisted s y hy v).mpr ⟨_, hfind⟩, hz, d.name, hidentifier, rfl⟩

/-- An identifier that is listed has been declared. -/
theorem Program.exists_declare_of_lists (h : Program.analyze o p = .ok a) {i : Identifier}
    (hi : a.Lists i) : ∃ d, .declare d ∈ Program.actions o p ∧ d.name.mark.id = i.mark.id := by
  obtain ⟨s, y, v, z, hy, hv, hz, j, hj, hid⟩ := hi
  obtain ⟨b, rfl, heffects⟩ := Program.exists_effects h
  have hlisted : Builder.Listed b := heffects.listed (by simp [Builder.Listed])
  obtain ⟨z', hz', -, -, hidentifiers⟩ :=
    (heffects.records .empty).exists_variable heffects.sound.wellFormed hlisted hy hv
  cases hz.symm.trans hz'
  rw [← Array.mem_toList_iff, hidentifiers] at hj
  obtain ⟨d, hd, rfl⟩ := List.mem_map.mp hj
  obtain ⟨c, hc, -, -⟩ := Builder.mem_definitionsIn.mp hd
  obtain ⟨B, C, hsplit, -⟩ := heffects.mem_declarations hc
  exact ⟨d, hsplit ▸ List.mem_append_right B List.mem_cons_self, hid⟩

/-- What writes to a declared identifier initializes it. -/
theorem Program.isInit_of_lists (hids : (Tree.ids p).Nodup) (h : Program.analyze o p = .ok a)
    {r : Nat} {x : Reference} (hx : a.references[r]? = some x) (hwrites : x.use.writes = true)
    (hlists : a.Lists x.identifier) : x.use.isInit = true := by
  obtain ⟨d, hd, hid⟩ := Program.exists_declare_of_lists h hlists
  obtain ⟨-, -, B, C, creator, -, hsplit, -⟩ := Program.exists_refer h hx
  have hrefer : .refer x.identifier x.use creator ∈ Program.actions o p :=
    hsplit ▸ List.mem_append_right B List.mem_cons_self
  by_contra hinit
  have hcapacity : (Action.refer x.identifier x.use creator).capacity? =
      some (x.identifier.mark.id, .assigned) := by simp [Action.capacity?, hwrites, hinit]
  cases Program.capacity_eq hids hd hrefer (Action.capacity?_declare d) hcapacity hid

/-- All definitions of an identifier are ones of `var`, or none is. -/
theorem Program.isVar_eq (hids : (Tree.ids p).Nodup) (h : Program.analyze o p = .ok a) {t : Nat}
    {e : Definition} (hd : a.BindsBy s d) (he : a.BindsBy t e) (hname : d.name = e.name) :
    d.kind.isVar = e.kind.isVar := by
  obtain ⟨hdeclare, -⟩ := Program.exists_placed hids h hd
  obtain ⟨hdeclare', -⟩ := Program.exists_placed hids h he
  exact Capacity.declared.inj <| Program.capacity_eq hids hdeclare hdeclare'
    (Action.capacity?_declare d) (Action.capacity?_declare e) (congrArg (·.mark.id) hname)

/-! ## What receives initial values -/

variable {r v : Nat} {x : Reference} {z : Variable}

/-- A reference that is resolved stands for a variable of a scope around its own. -/
theorem Program.exists_scopes_of_resolved (hids : (Tree.ids p).Nodup)
    (h : Program.analyze o p = .ok a) (hx : a.references[r]? = some x) (hv : x.resolved = some v)
    (hz : a.vars[v]? = some z) :
    ∃ y y', a.scopes[x.scope]? = some y ∧ a.scopes[z.scope]? = some y' ∧
      a.Inside x.scope z.scope := by
  obtain ⟨b, rfl, hb⟩ := Program.exists_finished h
  have hjourney := hb.journeys hids r x hx
  obtain ⟨f, -, -, hf, -⟩ := hjourney.ended hb.wellFormed hb.stack
  obtain ⟨y, hy, -⟩ := Analysis.frame?_eq_some hf
  obtain ⟨z', hz', -, hinside, hbound⟩ := hjourney.exists_variable hb.wellFormed hb.stack hv
  cases hz.symm.trans hz'
  obtain ⟨y', hy', -⟩ := Option.bind_eq_some_iff.mp hbound
  exact ⟨y, y', hy, hy', hinside⟩

/-- A value for a name that is not one of `var` goes to the variable that lists the identifier, in
the scope of the reference. -/
theorem Program.resolved_of_innermost (hids : (Tree.ids p).Nodup)
    (h : Program.analyze o p = .ok a) (hx : a.references[r]? = some x) (hd : a.BindsBy s d)
    (hname : d.name = x.identifier) (hvalues : d.kind.takesValues = true)
    (hvar : d.kind.isVar = false) (hreaches : d.Reaches a x.scope s)
    (hwith : a.InWith x.identifier → o.optimistic = true)
    (hv : x.resolved = some v) (hz : a.vars[v]? = some z) :
    z.scope = x.scope ∧ x.identifier ∈ z.identifiers := by
  have hreach : d.kind.reach = .innermost := by simp [DefinitionKind.reach, hvar]
  rw [Definition.Reaches, hreach] at hreaches
  subst hreaches
  have hlexical := fun {y} => Program.isLexical_of_with hids h hd hvalues hvar (y := y)
  obtain ⟨w, z', hw, hz', hmem⟩ := id hd
  have hlisted := Program.mem_identifiers h hw hz' hmem
  obtain ⟨y, hy, hfind⟩ := Option.bind_eq_some_iff.mp hw
  rw [hname] at hfind hlisted
  change y.find? x.name = some w at hfind
  obtain ⟨b, rfl, hb⟩ := Program.exists_finished h
  have hmeans := (hb.journeys hids r x hx).means hb.wellFormed hb.stack
  rw [hv, Analysis.means_some_iff hy] at hmeans
  by_cases hsure : y.isStatic = true ∨ o.optimistic = true
  · rw [Scope.verdict_of_find?_some hsure hfind] at hmeans
    cases hmeans
    cases hz.symm.trans hz'
    obtain ⟨z', hz', hscope, -⟩ := hb.wellFormed.variable_eq hw
    cases hz.symm.trans hz'
    exact ⟨hscope, hlisted⟩
  · obtain ⟨hdynamic, hpessimistic⟩ : y.isStatic = false ∧ o.optimistic = false := by
      simpa using hsure
    by_cases hkind : y.kind = .withStatement
    · rw [hwith ⟨_, d, y, hd, hname, hlexical hy hkind, hy, hkind⟩] at hpessimistic
      cases hpessimistic
    · rw [Scope.verdict_of_ne_with ⟨hdynamic, hpessimistic⟩ hkind] at hmeans
      cases hmeans

/-- A value for a name of `var` goes to the variable that lists the identifier, or to one of the
same name that a scope in between binds. -/
theorem Program.resolved_of_variableScope (hids : (Tree.ids p).Nodup)
    (h : Program.analyze o p = .ok a) (hx : a.references[r]? = some x) (hd : a.BindsBy s d)
    (hname : d.name = x.identifier) {y : Scope} (hy : a.scopes[x.scope]? = some y)
    (hs : y.variableScope = s) (hv : x.resolved = some v) (hz : a.vars[v]? = some z) :
    a.Inside z.scope s ∧
      (z.scope = s ∧ x.identifier ∈ z.identifiers ∨ z.name = x.name ∧ z.scope ≠ s) := by
  obtain ⟨hinside, ⟨y', hy', hkind⟩, -⟩ :=
    (Program.ordered hids h).isTree.variableScope_nearest x.scope y hy
  rw [hs] at hinside hy'
  have hne : y'.kind ≠ .withStatement := fun hwith => by rw [hwith] at hkind; simp at hkind
  obtain ⟨w, z', hw, hz', hmem⟩ := hd
  have hlisted := Program.mem_identifiers h hw hz' hmem
  have hfind : y'.find? x.name = some w := by
    rw [Analysis.variableIn?_eq, hy', hname] at hw
    exact hw
  rw [hname] at hw hlisted
  obtain ⟨b, rfl, hb⟩ := Program.exists_finished h
  have hmeans := (hb.journeys hids r x hx).means hb.wellFormed hb.stack
  rcases hmeans.captured hinside hy' hne hfind with ⟨u, v', hv', hus, hu⟩ | ⟨hnone, -⟩
  · cases hv.symm.trans hv'
    obtain ⟨z'', hz'', rfl, hzname⟩ := hb.wellFormed.variable_eq hu
    cases hz.symm.trans hz''
    refine ⟨hus, ?_⟩
    by_cases hscope : z.scope = s
    · rw [hscope] at hu
      cases hu.symm.trans hw
      cases hz.symm.trans hz'
      exact .inl ⟨hscope, hlisted⟩
    · exact .inr ⟨hzname, hscope⟩
  · cases hv.symm.trans hnone

/-- If the nodes of a program are distinct, the references that initialize are the writes to
identifiers that a variable of a scope lists. Their names have been declared, and are bound by the
scope that they belong to. If such a reference is resolved, it stands for a variable of a scope with
the same variable scope. If the name is one of `var`, this is the variable that lists the
identifier, or one of the same name of a scope inside the variable scope; otherwise it is the
variable of the scope of the reference that lists the identifier. For what is declared by `let` or
`const` right in a `with`, only an optimist can tell. -/
theorem Program.isInit_iff_lists (hids : (Tree.ids p).Nodup) (h : Program.analyze o p = .ok a)
    (hx : a.references[r]? = some x) :
    (x.use.isInit = true ↔ x.use.writes = true ∧ a.Lists x.identifier) ∧
    (x.use.isInit = true →
      ∃ d s, a.BindsBy s d ∧ d.name = x.identifier ∧ d.Reaches a x.scope s) ∧
    (x.use.isInit = true → (a.InWith x.identifier → o.optimistic = true) →
      ∀ v z, x.resolved = some v → a.vars[v]? = some z →
        ∃ y y', a.scopes[x.scope]? = some y ∧ a.scopes[z.scope]? = some y' ∧
          y'.variableScope = y.variableScope ∧
          ∀ s d, a.BindsBy s d → d.name = x.identifier →
            if d.kind.isVar then
              z.scope = y.variableScope ∧ x.identifier ∈ z.identifiers ∨
                z.name = x.name ∧ z.scope ≠ y.variableScope ∧ a.Inside z.scope y.variableScope
            else z.scope = x.scope ∧ x.identifier ∈ z.identifiers) := by
  refine ⟨⟨fun hinit => ?_, fun hwrite => ?_⟩, fun hinit => ?_, fun hinit hwith v z hv hz => ?_⟩
  · obtain ⟨d, s, hd, hname, -⟩ := Program.exists_initialized hids h hx hinit
    refine ⟨?_, hname ▸ Program.lists_of_bindsBy h hd⟩
    cases huse : x.use with
    | write => rfl
    | read | update =>
      rw [huse] at hinit
      cases hinit
  · exact Program.isInit_of_lists hids h hx hwrite.1 hwrite.2
  · obtain ⟨d, s, hd, hname, -, hreaches⟩ := Program.exists_initialized hids h hx hinit
    exact ⟨d, s, hd, hname, hreaches⟩
  · obtain ⟨d, s, hd, hname, hvalues, hreaches⟩ := Program.exists_initialized hids h hx hinit
    obtain ⟨y, y', hy, hy', hinside⟩ := Program.exists_scopes_of_resolved hids h hx hv hz
    cases hvar : d.kind.isVar with
    | false =>
      obtain ⟨hscope, hlisted⟩ := Program.resolved_of_innermost hids h hx hd hname hvalues hvar
        hreaches hwith hv hz
      refine ⟨y, y', hy, hy', ?_, fun s' d' hd' hname' => ?_⟩
      · rw [hscope] at hy'
        cases hy.symm.trans hy'
        rfl
      · have hvar' := Program.isVar_eq hids h hd' hd (hname'.trans hname.symm)
        rw [hvar', hvar]
        exact ⟨hscope, hlisted⟩
    | true =>
      have hreach : d.kind.reach = .variableScope := by simp [DefinitionKind.reach, hvar]
      rw [Definition.Reaches, hreach] at hreaches
      obtain ⟨_, hy₀, rfl⟩ := hreaches
      cases hy.symm.trans hy₀
      obtain ⟨hwithin, hwhich⟩ :=
        Program.resolved_of_variableScope hids h hx hd hname hy rfl hv hz
      refine ⟨y, y', hy, hy', ?_, fun s' d' hd' hname' => ?_⟩
      · exact (Program.ordered hids h).isTree.variableScope_eq hy hy' hinside hwithin
      · have hvar' := Program.isVar_eq hids h hd' hd (hname'.trans hname.symm)
        rw [hvar', hvar]
        exact hwhich.imp_right fun ⟨hzname, hscope⟩ => ⟨hzname, hscope, hwithin⟩

end

/-- The program `try { } catch (e) { var e = this; }`. -/
def Program.varInCatch : Program :=
  let mark (n : Nat) : Mark := ⟨n, ⟨n, n⟩⟩
  .program (mark 0) (.cons (.tryStatement (mark 1) (.block (mark 2) .nil)
    (.present (.catchClause (mark 3) (.present (.identifierPattern ⟨mark 4, "e"⟩))
      (.block (mark 5) (.cons (.variableDeclaration (.declaration (mark 6) .var
        (.cons (.declarator (mark 7) (.identifierPattern ⟨mark 8, "e"⟩)
          (.present (.thisExpression (mark 9)))) .nil))) .nil)))) .absent) .nil)

/-- The value for the `e` of the declaration goes to the `e` of the clause, which a scope inside the
variable scope binds. -/
theorem Program.isInit_iff_lists_catch : (Tree.ids Program.varInCatch).Nodup ∧
    ∃ (a : Analysis) (x : Reference) (z : Variable) (y : Scope) (d : Definition) (s : Nat),
      Program.analyze .es6 .varInCatch = .ok a ∧ a.references[0]? = some x ∧
      x.use.isInit = true ∧ a.Lists x.identifier ∧ ¬ a.InWith x.identifier ∧
      x.resolved = some 0 ∧ a.vars[0]? = some z ∧ z.scope = 2 ∧ x.scope = 3 ∧
      a.BindsBy s d ∧ d.name = x.identifier ∧ d.kind.isVar = true ∧ a.scopes[x.scope]? = some y ∧
      z.name = x.name ∧ z.scope ≠ y.variableScope ∧ a.Inside z.scope y.variableScope := by
  have hids : (Tree.ids Program.varInCatch).Nodup := by decide
  have hreference : ((Program.analyze .es6 .varInCatch).toOption.bind fun a : Analysis =>
      (a.references[0]?).map fun x : Reference => (x.use.isInit, x.resolved, x.scope)) =
      some (true, some 0, 3) := by decide +kernel
  have hvariable : ((Program.analyze .es6 .varInCatch).toOption.bind fun a : Analysis =>
      (a.vars[0]?).map (·.scope)) = some 2 := by decide +kernel
  have hscopes : ((Program.analyze .es6 .varInCatch).toOption.map fun a : Analysis =>
      a.scopes.toList.map fun y : Scope => (y.kind, y.variableScope)) =
      some [(.global, 0), (.block, 0), (.catchClause, 0), (.block, 0)] := by decide +kernel
  cases h : Program.analyze .es6 .varInCatch with
  | error e =>
    rw [h] at hscopes
    cases hscopes
  | ok a =>
    rw [h] at hreference hvariable hscopes
    obtain ⟨x, hx, hreference⟩ := Option.map_eq_some_iff.mp hreference
    obtain ⟨z, hz, hscope⟩ := Option.map_eq_some_iff.mp hvariable
    simp only [Prod.mk.injEq] at hreference
    obtain ⟨hinit, hresolved, hfrom⟩ := hreference
    have hkinds {t : Nat} {y : Scope} (hy : a.scopes[t]? = some y) :
        (y.kind, y.variableScope) ∈
          [(ScopeKind.global, 0), (.block, 0), (.catchClause, 0), (.block, 0)] := by
      rw [← Option.some.inj hscopes]
      exact List.mem_map_of_mem (Array.mem_toList_iff.mpr (Array.mem_of_getElem? hy))
    have hwith : ¬ a.InWith x.identifier := by
      rintro ⟨t, d, y, -, -, -, hy, hkind⟩
      have hmem := hkinds hy
      rw [hkind] at hmem
      simp at hmem
    obtain ⟨hiff, hbound, hall⟩ := Program.isInit_iff_lists hids h hx
    obtain ⟨d, s, hd, hname, -⟩ := hbound hinit
    obtain ⟨y, y', hy, -, -, hwhich⟩ :=
      hall hinit (fun hin => absurd hin hwith) 0 z hresolved hz
    have hzero : y.variableScope = 0 := by
      have hmem := hkinds hy
      simp only [List.mem_cons, Prod.mk.injEq, List.not_mem_nil, or_false] at hmem
      omega
    have hspecific := hwhich s d hd hname
    split at hspecific
    · next hvar =>
      rcases hspecific with ⟨hsame, -⟩ | ⟨hzname, hne, hinside⟩
      · rw [hscope, hzero] at hsame
        cases hsame
      · exact ⟨hids, a, x, z, y, d, s, rfl, hx, hinit, (hiff.mp hinit).2, hwith, hresolved, hz,
          hscope, hfrom, hd, hname, hvar, hy, hzname, hne, hinside⟩
    · obtain ⟨hsame, -⟩ := hspecific
      rw [hscope, hfrom] at hsame
      cases hsame

end EcmaScope
