import EcmaScope.Proofs.Housing

/-!
# Where names are declared

The phrases of a walk are followed one by one. A phrase that is a part of a declaration leaves its
definitions open, with the scopes that were open and the site that was chosen when it began. The
phrase around it settles them: it has begun the declaration, and knows the site. The name of a
declared function or class stays open the longest, until the scope of the function or class has been
opened and has turned out to lie right inside the site.

## Main definitions

* `Phrase.Settles`: the declarations of a phrase find their places.
* `Program.Declares`: the declarations of a program, with scope and site.

## Main results

* `Phrase.settles`: the declarations of every phrase find their places.
* `Program.houses`: all declarations of a program do.
* `Program.definitions_placed`: the definitions of variables are where they belong.
-/

namespace EcmaScope

open Outline

/-! ## Phrases -/

open Builder

namespace Phrase

variable {o : Options} {mode : Mode} {M N : List Nat} {K L : Ledger} {A B : List Action}

/-- The declarations of a phrase find their places. -/
def Settles (o : Options) (mode : Mode) (M : List Nat) (A : List Action) : Prop :=
  ∀ {b b'}, Effects o b A b' → Hosts mode M b.outline → Houses o (Awaits mode b) M A b b'

private theorem Settles.append (hA : Settles o mode M A) (hB : Settles o mode N B)
    (henclosed : Action.Enclosed mode.owner mode.sited (M.map (Mark.mk · default)) A) :
    Settles o mode (M ++ N) (A ++ B) := by
  intro b b' h hhosts
  obtain ⟨b₁, h, h'⟩ := h.exists_of_append
  have hrun := (h.ran h.start.wellFormed).outline
  obtain ⟨τ, hτ⟩ := hhosts.left.exists_leaves henclosed hrun
  refine (hA h hhosts.left).append ((hB h' (hhosts.right henclosed hrun)).settle ?_) hhosts.nodup
  rintro e - hawaits
  cases mode with
  | code => exact hawaits.elim
  | clause admits =>
    obtain ⟨hadmits, hsites, hstack⟩ := hawaits
    have hb₁ : b₁.stack = τ ++ b.stack := hτ.stack
    rw [hτ.eq_nil rfl] at hb₁
    exact .inr ⟨hadmits, hsites.trans hτ.sites, hstack.trans hb₁⟩

private theorem Settles.embed (h : Settles o (.code none) M A) : Settles o mode M A :=
  fun heffects hhosts => (h heffects hhosts.embed).of_code

private theorem settles_site (reach : Reach)
    (h : Settles o (.clause (Definition.Floats reach)) M A) :
    Settles o (.code none) M (Action.site reach A) := by
  intro b b' heffects hhosts
  obtain ⟨u, hu, hhouses⟩ := houses_site _ heffects hhosts h
  refine hhouses.settle ?_
  rintro ⟨c, d⟩ ⟨B, hB⟩ ⟨hfloats, hstack, hsites⟩
  have hplaced := placedAt_of_floats (o := o) heffects.start.wellFormed hu hfloats
  exact .inl ⟨u, _, by rw [hstack, hu], hsites,
    heffects.placedAt heffects.start.wellFormed hplaced⟩

private theorem settles_function (form : FunctionForm) (m : Mark) (name : Option Identifier)
    (strict : Bool) (h : Settles o (.clause (Definition.IsParameter ⟨.function form, m⟩)) M A) :
    Settles o (.code (some m.id)) ((name.map (·.mark.id)).toList ++ M)
      (Tree.functionName form ⟨.function form, m⟩ name ++
        Action.scope .function ⟨.function form, m⟩ strict A) := by
  intro b b' heffects hhosts
  obtain ⟨b₁, hname, hrest⟩ := heffects.exists_of_append
  have hhosts₁ := hhosts.right (Action.enclosed_functionName form ⟨.function form, m⟩ name)
    (hname.ran hname.start.wellFormed).outline
  have hparams (Q : Builder × Definition → Prop) : Houses o Q M
      (Action.scope .function ⟨.function form, m⟩ strict A) b₁ b' := by
    refine houses_scope _ hrest hhosts₁ h ?_
    rintro ⟨kind, i, node⟩ hd a t hopens
    cases kind with
    | parameter =>
      obtain rfl : node = ⟨.function form, m⟩ := hd
      exact hopens
    | _ => exact hd.elim
  refine ((houses_functionName hname hhosts.left).append (hparams _) hhosts.nodup).settle ?_
  rintro ⟨c, ⟨kind, i, node⟩⟩ - ⟨rfl, rfl, rfl, hstack, hcstack, hcsites⟩
  obtain ⟨b₂, hopen, hrest⟩ := hrest.exists_of_append
  obtain ⟨hopens, hupper, -⟩ := hopen.opened
  obtain ⟨u, hu⟩ := hhosts.exists_current
  refine .inl ⟨u, u, hcstack ▸ hu, hcsites.trans hu, .inr ⟨rfl, b₁.scopes.size, ?_, ?_⟩⟩
  · exact hrest.opens hrest.start.wellFormed hopens
  · exact hrest.upper? hrest.start.wellFormed (by rw [hupper, hstack, hu])

private theorem settles_classNode (form : ClassForm) (m : Mark) (name : Option Identifier)
    (h : Settles o (.code none) M A)
    (hA : Action.Enclosed none false (M.map (Mark.mk · default)) A) :
    Settles o (.code (some m.id)) ((name.map (·.mark.id)).toList ++ M)
      ((if form = .declaration then Tree.className ⟨.classNode form, m⟩ name else []) ++ A ++
        if o.isEs6 then
          .openScope .classBody ⟨.classNode form, m⟩ true ::
            Tree.className ⟨.classNode form, m⟩ name
        else []) := by
  intro b b' heffects hhosts
  obtain ⟨b₂, heffects, hbody⟩ := heffects.exists_of_append
  obtain ⟨b₁, hname, hmiddle⟩ := heffects.exists_of_append
  have hnodup := List.nodup_append_comm.mp hhosts.nodup
  have hhosts₁ : Hosts (.code (some m.id)) (M ++ (name.map (·.mark.id)).toList) b₁.outline :=
    Hosts.right (M := []) (hhosts.subset hnodup (by simp)) (.ite (Action.enclosed_className _ _))
      (hname.ran hname.start.wellFormed).outline
  have hhosts₂ := hhosts₁.right hA.own (hmiddle.ran hmiddle.start.wellFormed).outline
  have hstack : b₂.stack = b.stack := (hmiddle.stack_eq hhosts₁.left hA).trans
    (hname.stack_eq hhosts (.ite (Action.enclosed_className _ _)))
  have houter : Houses o (fun e => form = .declaration ∧ e.2.kind = .className ∧
      e.2.node = ⟨.classNode form, m⟩ ∧ e.1.stack = b.stack ∧ e.1.sites.head? = b.stack.head?)
      (name.map (·.mark.id)).toList
      (if form = .declaration then Tree.className ⟨.classNode form, m⟩ name else []) b b₁ := by
    split at hname
    · next hform =>
      rw [if_pos hform]
      exact (houses_className hname hhosts.left).settle fun e _ he => .inr ⟨hform, he⟩
    · next hform =>
      rw [if_neg hform]
      exact .of_eq_nil hname (List.forall_mem_nil _)
  have hboth := houter.append (h hmiddle hhosts₁.left.embed).of_code hhosts.nodup
  obtain ⟨u, hu⟩ := hhosts.exists_current
  split at hbody
  · next hes6 =>
    rw [if_pos hes6]
    obtain ⟨hinner, hsites⟩ := houses_classBody hbody hhosts₂
    refine ((hboth.append_new hinner hsites).subset (by simp)).settle ?_
    rintro ⟨c, ⟨kind, i, node⟩⟩ - ⟨rfl, rfl, rfl, hcstack, hcsites⟩
    obtain ⟨b₃, hopen, hbody⟩ := hbody.exists_of_append (A := [_])
    obtain ⟨hopens, hupper, -⟩ := hopen.opened
    refine .inl ⟨u, u, hcstack ▸ hu, hcsites.trans hu, .inr ⟨rfl, rfl, fun _ => ?_⟩⟩
    exact ⟨b₂.scopes.size, hbody.opens hbody.start.wellFormed hopens,
      hbody.upper? hbody.start.wellFormed (by rw [hupper, hstack, hu])⟩
  · next hes6 =>
    rw [if_neg hes6]
    refine (hboth.before hbody (List.forall_mem_nil _)).settle ?_
    rintro ⟨c, ⟨kind, i, node⟩⟩ - ⟨rfl, rfl, rfl, hcstack, hcsites⟩
    exact .inl ⟨u, u, hcstack ▸ hu, hcsites.trans hu, .inr ⟨rfl, rfl, fun h => absurd h hes6⟩⟩

private theorem settles_catchClause (m : Mark)
    (h : Settles o (.clause (Definition.IsCaught ⟨.catchClause, m⟩)) M A) :
    Settles o (.code (some m.id)) M (Action.scope .catchClause ⟨.catchClause, m⟩ false A) := by
  intro b b' heffects hhosts
  refine houses_scope _ heffects hhosts h ?_
  rintro ⟨kind, i, node⟩ ⟨rfl, rfl⟩ a t hopens
  exact hopens

private theorem definitions_closeScopes (k n : Nat) :
    ∀ a ∈ List.replicate k (Action.closeScopes n), a.definitions = [] := by
  intro a ha
  rw [(List.mem_replicate.mp ha).2]
  rfl

/-- Names that are declared in a loop's head are reserved in the scope of the value first, and are
then declared in the scope of the loop. -/
private theorem settles_loop {C : List Action} (value block : Anchor) (k : Nat)
    (hA : Settles o (.clause Definition.IsReserved) N A)
    (hA' : ∀ a ∈ A, a.isPlain = true ∨ ∃ d, a = .declare d)
    (hB : Settles o (.code (some value.id)) M B)
    (hB' : Action.Enclosed (some value.id) false (M.map (Mark.mk · default)) B)
    (hC : Settles o (.clause (Definition.Floats .innermost)) N C)
    (hC' : ∀ a ∈ C, a.isPlain = true ∨ ∃ d, a = .declare d) :
    Settles o (.code (some block.id)) (N ++ value.id :: M)
      (Action.scope .tdz value false A ++ B ++
        List.replicate (k + 1) (Action.closeScopes value.id) ++
        Action.scope .loop block false C) := by
  intro b b' heffects hhosts
  obtain ⟨b₃, heffects, hloop⟩ := heffects.exists_of_append
  have hvalue := Action.enclosed_value value k hA' hB'
  have hhosts₃ : Hosts (.code (some block.id)) N b₃.outline :=
    Hosts.right (M := value.id :: M) (hhosts.subset (List.nodup_append_comm.mp hhosts.nodup)
      (by simp)) hvalue.own (heffects.ran heffects.start.wellFormed).outline
  obtain ⟨b₂, heffects, hclose⟩ := heffects.exists_of_append
  obtain ⟨b₁, htdz, hmiddle⟩ := heffects.exists_of_append
  have hperm : (N ++ value.id :: M).Perm (value.id :: (N ++ M)) := List.perm_middle
  have hinner : Hosts (.code (some value.id)) (N ++ M) b.outline :=
    (hhosts.subset (hperm.nodup_iff.mp hhosts.nodup) hperm.symm.subset).scopes
  have hhosts₁ : Hosts (.code (some value.id)) M b₁.outline :=
    hinner.right (Action.enclosed_declared hA') (htdz.ran htdz.start.wellFormed).outline
  have hreserved : Houses o (Awaits (.code (some block.id)) b) N
      (Action.scope .tdz value false A) b b₁ := by
    refine houses_scope _ htdz hinner.left hA ?_
    rintro ⟨kind, i, node⟩ hd a t ⟨y, hy, hkind, -⟩
    cases kind with
    | tdz => exact ⟨y, hy, hkind⟩
    | _ => exact hd.elim
  have hdeclared : Houses o (Awaits (.code (some block.id)) b) N
      (Action.scope .loop block false C) b₃ b' := by
    refine houses_scope _ hloop hhosts₃ hC ?_
    rintro ⟨kind, i, node⟩ hd a t -
    cases kind with
    | importBinding => rfl
    | declared declaration index kind =>
      simp only [Definition.Floats] at hd
      split at hd
      · next hlexical => simp [Definition.PlacedAt, hlexical]
      · cases hd
    | _ => exact hd.elim
  have hbefore := (hreserved.append (hB hmiddle hhosts₁).of_code hinner.nodup).before hclose
    (definitions_closeScopes _ value.id)
  exact (hbefore.append_new hdeclared (sites_of_scope hC' hloop)).subset (by simp)

private theorem settles_scopes {n : Nat} (k : Nat) (h : Settles o (.code (some n)) M A) :
    Settles o (.code none) (n :: M) (A ++ List.replicate (k + 1) (Action.closeScopes n)) := by
  intro b b' heffects hhosts
  obtain ⟨b₁, heffects, hclose⟩ := heffects.exists_of_append
  exact ((h heffects hhosts.scopes).of_code.before hclose (definitions_closeScopes _ n)).subset
    (List.subset_cons_self n M)

private theorem settles_value (value : Anchor) (k : Nat)
    (h : Settles o (.code (some value.id)) M A) :
    Settles o (.code none) (value.id :: M) ([Action.openScope .tdz value false] ++ A ++
      List.replicate (k + 1) (Action.closeScopes value.id)) := by
  refine settles_scopes k fun {b b'} heffects hhosts => ?_
  obtain ⟨b₁, hopen, heffects⟩ := heffects.exists_of_append
  have hhosts₁ : Hosts (.code (some value.id)) M b₁.outline :=
    Hosts.right (M := []) hhosts (.openScope value.mark)
      (hopen.ran hopen.start.wellFormed).outline
  exact .after hopen (by simp [Action.definitions]) (h heffects hhosts₁).of_code

/-- The declarations of every phrase find their places. -/
theorem settles (h : Phrase o mode M L A) : Settles o mode M A := by
  induction h with
  | nil => exact fun h _ => .of_eq_nil h (List.forall_mem_nil _)
  | append hA _ ihA ihB => exact ihA.append ihB hA.enclosed
  | embed _ ih => exact ih.embed
  | quiet a ha =>
    intro b b' h _
    refine .of_eq_nil h (List.forall_mem_singleton.mpr ?_)
    cases a <;> first | rfl | cases ha
  | refer | call | openScope => exact fun h _ => .of_eq_nil h (by simp [Action.definitions])
  | declare d hd => exact fun h _ => houses_declare _ hd h
  | site reach _ ih => exact settles_site reach ih
  | function form m name strict _ ih => exact settles_function form m name strict ih
  | classNode form m name hA ih => exact settles_classNode form m name ih hA.enclosed
  | catchClause m _ ih => exact settles_catchClause m ih
  | loop value block k _ hA' hB _ hC' ihA ihB ihC =>
    exact settles_loop value block k ihA hA' ihB hB.enclosed ihC hC'
  | value value k _ ih => exact settles_value value k ih
  | scopes k _ ih => exact settles_scopes k ih

end Phrase

namespace Builder

variable {l : List (Builder × Definition)} {s : Nat}

/-! ## Identifiers at one site -/

private theorem nodup_definitionsIn (h : (l.map mooring).Nodup) (s : Nat) (name : String) :
    ((definitionsIn l s name).map (·.name.mark.id)).Nodup := by
  refine List.Nodup.of_map (Prod.mk (some s)) ?_
  rw [definitionsIn, List.map_map, List.map_map]
  have hsublist := h.sublist ((List.filter_sublist (p := fun e : Builder × Definition =>
    e.1.sites.head? = some s ∧ e.2.name.name = name)).map mooring)
  refine (List.map_congr_left fun e he => ?_) ▸ hsublist
  have hsite := (of_decide_eq_true (List.mem_filter.mp he).2).1
  exact congrArg (·, e.2.name.mark.id) hsite

/-- At one site an identifier is defined under one name and once. -/
theorem eq_of_getElem?_definitionsIn (h : (l.map mooring).Nodup) {name name' : String} {i j : Nat}
    {d e : Definition} (hd : (definitionsIn l s name)[i]? = some d)
    (he : (definitionsIn l s name')[j]? = some e) (hid : d.name.mark.id = e.name.mark.id) :
    name = name' ∧ i = j := by
  obtain ⟨c, hc, hs, hname⟩ := mem_definitionsIn.mp (List.mem_of_getElem? hd)
  obtain ⟨c', hc', hs', hname'⟩ := mem_definitionsIn.mp (List.mem_of_getElem? he)
  have hmooring : mooring (c, d) = mooring (c', e) := Prod.ext (hs.trans hs'.symm) hid
  cases List.inj_on_of_nodup_map h hc hc' hmooring
  cases hname.symm.trans hname'
  have hlt := (List.getElem?_eq_some_iff.mp hd).1
  refine ⟨rfl, (List.getElem?_inj ?_ (nodup_definitionsIn h s name)).mp ?_⟩
  · rwa [List.length_map]
  · rw [List.getElem?_map, List.getElem?_map, hd, he]

end Builder

/-! ## Programs -/

/-- The program declares `d` at the site `s`, while `u` is the innermost open scope. -/
def Program.Declares (o : Options) (p : Program) (d : Definition) (u s : Nat) : Prop :=
  ∃ B C b, Program.actions o p = B ++ .declare d :: C ∧ Builder.run o {} B = .ok b ∧
    b.stack.head? = some u ∧ b.sites.head? = some s

private theorem Program.declares_iff {o : Options} {p : Program} {b : Builder}
    (h : Effects o {} (Program.actions o p) b) {d : Definition} {u s : Nat} :
    Program.Declares o p d u s ↔ ∃ c, (c, d) ∈ declarations o {} (Program.actions o p) ∧
      c.stack.head? = some u ∧ c.sites.head? = some s := by
  constructor
  · rintro ⟨B, C, c, hactions, hrun, hu, hs⟩
    rw [hactions] at h ⊢
    obtain ⟨c', hB, hC⟩ := h.exists_of_append
    cases Except.ok.inj (hB.run.symm.trans hrun)
    exact ⟨c, mem_declarations_of_append hB hC, hu, hs⟩
  · rintro ⟨c, hc, hu, hs⟩
    obtain ⟨B, C, hactions, hB, -⟩ := h.mem_declarations hc
    exact ⟨B, C, c, hactions, hB.run, hu, hs⟩

/-- All declarations of a program find their places. -/
theorem Program.houses {o : Options} {p : Program} {a : Analysis} (hids : (Tree.ids p).Nodup)
    (h : Program.analyze o p = .ok a) :
    ∃ b M, b.toAnalysis = a ∧ Houses o (fun _ => False) M (Program.actions o p) {} b := by
  obtain ⟨b, rfl, heffects⟩ := Program.exists_effects h
  obtain ⟨strict, N, L, A, hactions, hmarks, ⟨M, hcount, hphrase⟩, -⟩ := Program.speaks o p
  rw [Tree.ids, hmarks] at hids
  obtain ⟨hM, hroot⟩ := nodup_of_count_le hids hcount
  rw [hactions] at heffects ⊢
  obtain ⟨b₂, heffects, hclose⟩ := heffects.exists_of_append
  obtain ⟨b₁, hopen, hA⟩ := heffects.exists_of_append
  have hhosts : Hosts (.code (some (Program.mark p).id)) M b₁.outline := by
    refine ⟨hM, hroot, ?_⟩
    rw [Outline.run_openScope_empty (hopen.ran hopen.start.wellFormed).outline]
    exact Outline.admits_first hroot
  refine ⟨b, M, rfl, Houses.before (.after hopen ?_ (hphrase.settles hA hhosts).of_code) hclose ?_⟩
  · simp [Action.definitions]
  · simp [Action.definitions]

/-- The definition `d` is the one with the number `i` of the variable `v` of the scope `y`. -/
def Analysis.Defines (a : Analysis) (y : Scope) (v i : Nat) (d : Definition) : Prop :=
  v ∈ y.bindings.vars ∧ ∃ x, a.vars[v]? = some x ∧ x.defs[i]? = some d

/-- Every definition of a variable of a scope has been declared there, and belongs there by what it
defines. The variable and the identifier have the same name, and the identifiers of the variable are
those of its definitions. What is declared at the scope is among the definitions of its variables,
and no identifier is defined in it twice. -/
theorem Program.definitions_placed {o : Options} {p : Program} {a : Analysis}
    (hids : (Tree.ids p).Nodup) (h : Program.analyze o p = .ok a) {s : Nat} {y : Scope}
    (hy : a.scopes[s]? = some y) :
    (∀ v ∈ y.bindings.vars, ∃ x, a.vars[v]? = some x ∧ y.find? x.name = some v ∧
      x.identifiers.toList = x.defs.toList.map (·.name) ∧
      ∀ d ∈ x.defs, d.name.name = x.name ∧
        ∃ u, Program.Declares o p d u s ∧ d.PlacedAt o a u s) ∧
    (∀ d u, Program.Declares o p d u s → ∃ v i, a.Defines y v i d) ∧
    ∀ v i d w j e, a.Defines y v i d → a.Defines y w j e → d.name.mark.id = e.name.mark.id →
      v = w ∧ i = j := by
  obtain ⟨b, M, rfl, hhouses⟩ := Program.houses hids h
  have hrecords : Records (declarations o {} (Program.actions o p)) b :=
    hhouses.effects.records .empty
  have hlisted : Listed b := hhouses.effects.listed (by simp [Listed])
  have hown {v : Nat} (hv : v ∈ y.bindings.vars) :=
    hrecords.exists_variable hhouses.effects.sound.wellFormed hlisted hy hv
  refine ⟨fun v hv => ?_, fun d u hd => ?_, fun v i d w j e hd he hid => ?_⟩
  · obtain ⟨x, hx, hfind, hdefs, hidentifiers⟩ := hown hv
    refine ⟨x, hx, hfind, hdefs ▸ hidentifiers, fun d hd => ?_⟩
    rw [← Array.mem_toList_iff, hdefs] at hd
    obtain ⟨c, hc, hs, hname⟩ := mem_definitionsIn.mp hd
    obtain ⟨u, t, hu, ht, hplaced⟩ := (hhouses.placed (c, d) hc).resolve_right id
    cases hs.symm.trans ht
    exact ⟨hname, u, (Program.declares_iff hhouses.effects).mpr ⟨c, hc, hu, hs⟩, hplaced⟩
  · obtain ⟨c, hc, -, hs⟩ := (Program.declares_iff hhouses.effects).mp hd
    obtain ⟨v, hv, x, hx, hdefs⟩ :=
      hrecords.exists_definition hlisted hy (mem_definitionsIn.mpr ⟨c, hc, hs, rfl⟩)
    obtain ⟨i, hi⟩ := Array.mem_iff_getElem?.mp hdefs
    exact ⟨v, i, hv, x, hx, hi⟩
  · obtain ⟨hv, x, hx, hi⟩ := hd
    obtain ⟨hw, z, hz, hj⟩ := he
    obtain ⟨x', hx', hfind, hdefs, -⟩ := hown hv
    cases hx.symm.trans hx'
    obtain ⟨z', hz', hfind', hdefs', -⟩ := hown hw
    cases hz.symm.trans hz'
    rw [← Array.getElem?_toList, hdefs] at hi
    rw [← Array.getElem?_toList, hdefs'] at hj
    obtain ⟨hname, rfl⟩ := eq_of_getElem?_definitionsIn hhouses.nodup hi hj hid
    rw [← hname] at hfind'
    exact ⟨Option.some.inj (hfind.symm.trans hfind'), rfl⟩

/-- In a loop over the value of a function expression, the scope of the loop binds the name in the
head of the loop, and the scope was the innermost one when the name was declared. -/
theorem Program.definitions_placed_loop : (Tree.ids (Program.loopOverFunction id)).Nodup ∧
    ∃ a y x, Program.analyze .es6 (.loopOverFunction id) = .ok a ∧ a.scopes[4]? = some y ∧
      y.kind = .loop ∧ a.vars[3]? = some x ∧ y.find? x.name = some 3 ∧
      x.defs.toList.map (·.name.mark.id) = [4] ∧
      ∀ d ∈ x.defs, ∃ u, Program.Declares .es6 (.loopOverFunction id) d u 4 ∧
        d.PlacedAt .es6 a u 4 := by
  have hids : (Tree.ids (Program.loopOverFunction id)).Nodup := by decide
  have hscope : (Program.analyze .es6 (.loopOverFunction id)).toOption.bind (fun a =>
      (a.scopes[4]?).map fun y => (y.kind, y.bindings.vars)) = some (.loop, #[3]) := by
    decide +kernel
  have hvariable : (Program.analyze .es6 (.loopOverFunction id)).toOption.bind (fun a =>
      (a.vars[3]?).map fun x => x.defs.toList.map (·.name.mark.id)) = some [4] := by
    decide +kernel
  cases h : Program.analyze .es6 (.loopOverFunction id) with
  | error e =>
    rw [h] at hscope
    cases hscope
  | ok a =>
    rw [h] at hscope hvariable
    obtain ⟨y, hy, hpair⟩ := Option.map_eq_some_iff.mp hscope
    obtain ⟨hkind, hvars⟩ := Prod.mk.inj hpair
    obtain ⟨x, hx, hdefs⟩ := Option.map_eq_some_iff.mp hvariable
    obtain ⟨z, hz, hfind, -, hplaced⟩ :=
      (Program.definitions_placed hids h hy).1 3 (by rw [hvars]; exact Array.mem_singleton.mpr rfl)
    cases hx.symm.trans hz
    exact ⟨hids, a, y, x, rfl, hy, hkind, hx, hfind, hdefs, fun d hd => (hplaced d hd).2⟩

end EcmaScope
