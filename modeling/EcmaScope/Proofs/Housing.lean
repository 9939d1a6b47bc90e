import EcmaScope.Proofs.Definitions
import EcmaScope.Proofs.ScopeTree
import EcmaScope.Proofs.Walks

/-!
# Places for declarations

Names are declared in many ways, and the kind of a definition decides about the scope: a parameter
belongs to the scope of its function, what is declared by `var` to the nearest scope that binds it,
the name of a class to the scope around the class and to that of the class, and so on. When a name
is declared, however, only the declaration site counts, and that has been chosen before.

A list of actions houses its declarations if all of them are in the right places when the actions
have been carried out. Some may be left open: inside a declaration that has been begun, it is the
actions around that know the site.

An identifier may be declared twice, but at two sites. One of the sites is then a scope that has
been opened after the other declaration.

## Main definitions

* `Definition.PlacedAt`: where definitions belong.
* `Outline.Hosts`: states in which a phrase can be carried out.
* `Builder.Houses`: declarations have found their places, or have been left open.

## Main results

* `Builder.Houses.append`, `Builder.Houses.append_new`: actions one after the other.
* `Builder.houses_site`, `Builder.houses_scope`: declarations in sites, and in scopes that have just
  been opened.
* `Builder.houses_functionName`, `Builder.houses_className`, `Builder.houses_classBody`: the names
  of functions and classes.
-/

namespace EcmaScope

/-! ## Places -/

/-- The scope `s` is of the given kind and belongs to the given node. -/
def Analysis.Opens (a : Analysis) (s : Nat) (kind : ScopeKind) (block : Anchor) : Prop :=
  ∃ y, a.scopes[s]? = some y ∧ y.kind = kind ∧ y.block = block

/-- The scope `s` is the right one for a definition that is made while `u` is the innermost open
scope. -/
def Definition.PlacedAt (d : Definition) (o : Options) (a : Analysis) (u s : Nat) : Prop :=
  match d.kind with
  | .parameter _ _ => a.Opens s .function d.node
  | .catchClause => a.Opens s .catchClause d.node
  | .tdz _ _ _ => ∃ y, a.scopes[s]? = some y ∧ y.kind = .tdz
  | .functionName =>
    d.node.kind = .function .expression ∧ a.Opens s .functionName d.node ∨
      d.node.kind = .function .declaration ∧
        ∃ t, a.Opens t .function d.node ∧ a.upper? t = some s
  | .className =>
    a.Opens s .classBody d.node ∨
      d.node.kind = .classNode .declaration ∧ s = u ∧
        (o.isEs6 = true → ∃ t, a.Opens t .classBody d.node ∧ a.upper? t = some s)
  | .declared _ _ kind =>
    if kind.isLexical then s = u
    else ∃ y z, a.scopes[u]? = some y ∧ y.variableScope = s ∧ a.scopes[s]? = some z ∧
      z.kind ∈ [.global, .module, .function]
  | .importBinding _ => s = u
  | .implicitGlobal => False

namespace Builder

variable {b b' b'' : Builder} {o : Options}

/-- A scope keeps its kind, its node, and the scopes around it. -/
theorem Effects.exists_scope {A : List Action} (h : Effects o b A b') (hb : WellFormed b) {t : Nat}
    {y : Scope} (hy : b.scopes[t]? = some y) :
    ∃ y', b'.scopes[t]? = some y' ∧ y'.kind = y.kind ∧ y'.block = y.block ∧
      y'.enclosing = y.enclosing ∧ y'.variableScope = y.variableScope := by
  obtain ⟨children, isOpen, hf⟩ :=
    (h.ran hb).moves.exists_frame hb (Analysis.frame?_of_getElem? hy)
  obtain ⟨y', hy', hyf⟩ := Analysis.frame?_eq_some hf
  exact ⟨y', hy', congrArg Frame.kind hyf, congrArg Frame.block hyf, congrArg Frame.enclosing hyf,
    congrArg Frame.variableScope hyf⟩

theorem Effects.opens {A : List Action} (h : Effects o b A b') (hb : WellFormed b) {t : Nat}
    {kind : ScopeKind} {block : Anchor} (hopens : b.Opens t kind block) :
    b'.Opens t kind block := by
  obtain ⟨y, hy, rfl, rfl⟩ := hopens
  obtain ⟨y', hy', hkind, hblock, -⟩ := h.exists_scope hb hy
  exact ⟨y', hy', hkind, hblock⟩

theorem Effects.upper? {A : List Action} (h : Effects o b A b') (hb : WellFormed b) {t s : Nat}
    (hupper : b.upper? t = some s) : b'.upper? t = some s := by
  obtain ⟨y, hy, hs⟩ := Option.bind_eq_some_iff.mp hupper
  obtain ⟨y', hy', -, -, henclosing, -⟩ := h.exists_scope hb hy
  rw [Analysis.upper?, hy', Option.bind_some, Scope.upper?, henclosing]
  exact hs

/-- What is in the right place stays there. -/
theorem Effects.placedAt {A : List Action} (h : Effects o b A b') (hb : WellFormed b)
    {d : Definition} {u s : Nat} (hd : d.PlacedAt o b.toAnalysis u s) :
    d.PlacedAt o b'.toAnalysis u s := by
  obtain ⟨kind, name, node⟩ := d
  cases kind with
  | parameter | catchClause => exact h.opens hb hd
  | tdz =>
    obtain ⟨y, hy, hkind⟩ := hd
    obtain ⟨y', hy', hkind', -⟩ := h.exists_scope hb hy
    exact ⟨y', hy', hkind'.trans hkind⟩
  | functionName =>
    rcases hd with ⟨hnode, hopens⟩ | ⟨hnode, t, hopens, hupper⟩
    · exact .inl ⟨hnode, h.opens hb hopens⟩
    · exact .inr ⟨hnode, t, h.opens hb hopens, h.upper? hb hupper⟩
  | className =>
    rcases hd with hopens | ⟨hnode, hs, hinner⟩
    · exact .inl (h.opens hb hopens)
    · refine .inr ⟨hnode, hs, fun hes6 => ?_⟩
      obtain ⟨t, hopens, hupper⟩ := hinner hes6
      exact ⟨t, h.opens hb hopens, h.upper? hb hupper⟩
  | declared declaration index kind =>
    simp only [Definition.PlacedAt] at hd ⊢
    split at hd
    · next hlexical => rwa [if_pos hlexical]
    · next hlexical =>
      obtain ⟨y, z, hy, hs, hz, hkind⟩ := hd
      obtain ⟨y', hy', -, -, -, hvariable⟩ := h.exists_scope hb hy
      obtain ⟨z', hz', hkind', -⟩ := h.exists_scope hb hz
      rw [if_neg hlexical]
      exact ⟨y', z', hy', hvariable.trans hs, hz', hkind' ▸ hkind⟩
  | importBinding => exact hd
  | implicitGlobal => exact hd

end Builder

/-! ## States in which a phrase can be carried out -/

open Outline

/-- Phrases with the numbers `M` can be carried out. -/
structure Outline.Hosts (mode : Mode) (M : List Nat) (w : Outline) : Prop where
  nodup : M.Nodup
  owner : ∀ n ∈ M, mode.owner ≠ some n
  admits : Admits mode.owner mode.sited M w

namespace Outline

variable {w w' : Outline} {mode : Mode} {M N : List Nat} {A : List Action}

/-- What is nested leaves nothing open but scopes of the owner. -/
theorem Hosts.exists_leaves (h : Hosts mode M w)
    (hA : Action.Enclosed mode.owner mode.sited (M.map (Mark.mk · default)) A)
    (hrun : Run w A w') : ∃ τ, Leaves mode.owner M τ w w' := by
  obtain ⟨I, hcount, hnested⟩ := hA
  have hle (n : Nat) : I.count n ≤ M.count n := by simpa [Function.comp_def] using hcount n
  have hmem : ∀ n ∈ I, n ∈ M := fun n hn => List.count_pos_iff.mp
    (Nat.lt_of_lt_of_le (List.count_pos_iff.mpr hn) (hle n))
  have hI : I.Nodup := List.nodup_iff_count.mpr fun n =>
    Nat.le_trans (hle n) (List.nodup_iff_count.mp h.nodup n)
  obtain ⟨τ, hτ⟩ := (hnested.balanced hI (fun n hn => h.owner n (hmem n hn))
    { h.admits with fresh := fun n hn => h.admits.fresh n (hmem n hn) }).2 w' hrun
  exact ⟨τ, { hτ with scopesOf := fun n hn => hτ.scopesOf n fun hI => hn (hmem n hI) }⟩

theorem Hosts.subset (h : Hosts mode N w) (hM : M.Nodup) (hMN : M ⊆ N) : Hosts mode M w where
  nodup := hM
  owner n hn := h.owner n (hMN hn)
  admits := { h.admits with fresh := fun n hn => h.admits.fresh n (hMN hn) }

theorem Hosts.left (h : Hosts mode (M ++ N) w) : Hosts mode M w :=
  h.subset (List.nodup_append.mp h.nodup).1 (List.subset_append_left M N)

/-- After a phrase, another one with other numbers can be carried out. -/
theorem Hosts.right (h : Hosts mode (M ++ N) w)
    (hA : Action.Enclosed mode.owner mode.sited (M.map (Mark.mk · default)) A)
    (hrun : Run w A w') : Hosts mode N w' := by
  obtain ⟨τ, hτ⟩ := h.left.exists_leaves hA hrun
  have hparts := List.nodup_append.mp h.nodup
  have howner (n : Nat) (hn : n ∈ N) : mode.owner ≠ some n :=
    h.owner n (List.mem_append_right M hn)
  refine ⟨hparts.2.1, howner, hτ.admits h.admits (fun n hn => ⟨fun hM => ?_, howner n hn⟩) ?_⟩
  · exact hparts.2.2 n hM n hn rfl
  · exact fun n hn => h.owner n (List.mem_append_left N hn)

theorem Hosts.exists_current {b : Builder} (h : Hosts mode M b.outline) :
    ∃ u, b.stack.head? = some u :=
  Option.isSome_iff_exists.mp (List.isSome_head?.mpr h.admits.stack_ne_nil)

theorem Hosts.embed (h : Hosts mode M w) : Hosts (.code none) M w where
  nodup := h.nodup
  owner _ _ := nofun
  admits := { h.admits with
    sites_ne_nil := nofun
    owner_stack := nofun }

theorem Hosts.site (h : Hosts mode M w) {s : Nat} (hs : s ∈ w.stack)
    (admits : Definition → Prop) :
    Hosts (.clause admits) M { w with sites := s :: w.sites } where
  nodup := h.nodup
  owner _ _ := nofun
  admits := h.admits.site hs

theorem Hosts.scopes {n : Nat} (h : Hosts mode (n :: M) w) : Hosts (.code (some n)) M w where
  nodup := (List.nodup_cons.mp h.nodup).2
  owner _ hm heq := (List.nodup_cons.mp h.nodup).1 (Option.some.inj heq ▸ hm)
  admits := { h.admits.scopes with sites_ne_nil := nofun }

/-- Where scopes and sites do not change, nothing does. -/
theorem Run.eq_of_declare (hA : ∀ a ∈ A, a.isPlain = true ∨ ∃ d, a = .declare d)
    (h : Run w A w') : w' = w := by
  induction h with
  | nil => rfl
  | cons h _ ih =>
    obtain ⟨ha, hA⟩ := List.forall_mem_cons.mp hA
    rw [ih hA]
    rcases ha with ha | ⟨d, rfl⟩
    · exact h.eq_of_isPlain ha
    · cases h <;> rfl

end Outline

namespace Builder

variable {b b₁ b' : Builder} {o : Options} {Q Q' : Builder × Definition → Prop} {M N : List Nat}
  {A B : List Action} {mode : Mode}

/-! ## Declarations that find their places -/

/-- A declaration is in the right place. -/
def Placed (o : Options) (b : Builder) (e : Builder × Definition) : Prop :=
  ∃ u s, e.1.stack.head? = some u ∧ e.1.sites.head? = some s ∧ e.2.PlacedAt o b.toAnalysis u s

/-- The declaration site and the identifier of a declaration. -/
def mooring (e : Builder × Definition) : Option Nat × Nat :=
  (e.1.sites.head?, e.2.name.mark.id)

/-- The actions `A` have been carried out. What they declare is in the right place or satisfies `Q`,
the identifiers are among `M`, and none is declared twice at one site. -/
structure Houses (o : Options) (Q : Builder × Definition → Prop) (M : List Nat) (A : List Action)
    (b b' : Builder) : Prop where
  effects : Effects o b A b'
  placed : ∀ e ∈ declarations o b A, Placed o b' e ∨ Q e
  mem : ∀ e ∈ declarations o b A, e.2.name.mark.id ∈ M
  nodup : ((declarations o b A).map mooring).Nodup

namespace Houses

theorem of_eq_nil (h : Effects o b A b') (hA : ∀ a ∈ A, a.definitions = []) :
    Houses o Q M A b b' := by
  have hnil : declarations o b A = [] := declarations_eq_nil hA b
  refine ⟨h, ?_, ?_, ?_⟩ <;> simp [hnil]

theorem subset (h : Houses o Q M A b b') (hMN : M ⊆ N) : Houses o Q N A b b' :=
  ⟨h.effects, h.placed, fun e he => hMN (h.mem e he), h.nodup⟩

/-- What has been left open is settled. -/
theorem settle (h : Houses o Q M A b b')
    (hQ : ∀ e, (∃ B, Effects o b B e.1) → Q e → Placed o b' e ∨ Q' e) : Houses o Q' M A b b' where
  effects := h.effects
  placed e he := by
    rcases h.placed e he with hplaced | hopen
    · exact .inl hplaced
    · obtain ⟨B, -, -, hB, -⟩ := h.effects.mem_declarations he
      exact hQ e ⟨B, hB⟩ hopen
  mem := h.mem
  nodup := h.nodup

theorem placed_append (hA : Houses o Q M A b b₁) (hB : Houses o Q N B b₁ b') :
    ∀ e ∈ declarations o b (A ++ B), Placed o b' e ∨ Q e := by
  rw [hA.effects.declarations_append]
  intro e he
  rcases List.mem_append.mp he with he | he
  · refine (hA.placed e he).imp_left ?_
    rintro ⟨u, s, hu, hs, hplaced⟩
    exact ⟨u, s, hu, hs, hB.effects.placedAt hB.effects.start.wellFormed hplaced⟩
  · exact hB.placed e he

/-- Actions that declare other identifiers, or at other sites. -/
theorem append_of_ne (hA : Houses o Q M A b b₁) (hB : Houses o Q N B b₁ b')
    (hne : ∀ e ∈ declarations o b A, ∀ e' ∈ declarations o b₁ B, mooring e ≠ mooring e') :
    Houses o Q (M ++ N) (A ++ B) b b' where
  effects := hA.effects.append hB.effects
  placed := hA.placed_append hB
  mem e he := by
    rw [hA.effects.declarations_append] at he
    exact List.mem_append.mpr ((List.mem_append.mp he).imp (hA.mem e) (hB.mem e))
  nodup := by
    rw [hA.effects.declarations_append, List.map_append, List.nodup_append]
    refine ⟨hA.nodup, hB.nodup, fun x hx y hy => ?_⟩
    obtain ⟨e, he, rfl⟩ := List.mem_map.mp hx
    obtain ⟨e', he', rfl⟩ := List.mem_map.mp hy
    exact hne e he e' he'

/-- Actions that declare other identifiers. -/
theorem append (hA : Houses o Q M A b b₁) (hB : Houses o Q N B b₁ b')
    (hdisjoint : (M ++ N).Nodup) : Houses o Q (M ++ N) (A ++ B) b b' :=
  hA.append_of_ne hB fun e he e' he' heq =>
    (List.nodup_append.mp hdisjoint).2.2 _ (hA.mem e he) _ (hB.mem e' he') (congrArg Prod.snd heq)

/-- Sites are scopes that have been opened. -/
theorem lt_size (h : Houses o Q M A b b') {e : Builder × Definition}
    (he : e ∈ declarations o b A) {s : Nat} (hs : e.1.sites.head? = some s) :
    s < b'.scopes.size := by
  obtain ⟨B, C, -, hB, hC⟩ := h.effects.mem_declarations he
  have hlt := hB.sound.sites_lt s (List.mem_of_head? hs)
  obtain ⟨y, hy, -⟩ := hC.exists_scope hB.sound.wellFormed (Array.getElem?_eq_getElem hlt)
  exact (Array.getElem?_eq_some_iff.mp hy).1

/-- Actions that declare in the scope that is opened next. -/
theorem append_new (hA : Houses o Q M A b b₁) (hB : Houses o Q N B b₁ b')
    (hsites : ∀ e ∈ declarations o b₁ B, e.1.sites.head? = some b₁.scopes.size) :
    Houses o Q (M ++ N) (A ++ B) b b' := by
  refine hA.append_of_ne hB fun e he e' he' heq => ?_
  have hs : e.1.sites.head? = some b₁.scopes.size := (congrArg Prod.fst heq).trans (hsites e' he')
  exact Nat.lt_irrefl _ (hA.lt_size he hs)

theorem after (hA : Effects o b A b₁) (hnone : ∀ a ∈ A, a.definitions = [])
    (hB : Houses o Q M B b₁ b') : Houses o Q M (A ++ B) b b' := by
  have hnil : declarations o b (A ++ B) = declarations o b₁ B := by
    rw [hA.declarations_append, declarations_eq_nil hnone, List.nil_append]
  refine ⟨hA.append hB.effects, ?_, ?_, ?_⟩ <;> rw [hnil]
  · exact hB.placed
  · exact hB.mem
  · exact hB.nodup

theorem before (hA : Houses o Q M A b b₁) (hB : Effects o b₁ B b')
    (hnone : ∀ a ∈ B, a.definitions = []) : Houses o Q M (A ++ B) b b' := by
  have hnil : declarations o b (A ++ B) = declarations o b A := by
    rw [hA.effects.declarations_append, declarations_eq_nil hnone, List.append_nil]
  refine ⟨hA.effects.append hB, ?_, ?_, ?_⟩
  · exact hA.placed_append (N := []) (of_eq_nil hB hnone)
  · rw [hnil]
    exact hA.mem
  · rw [hnil]
    exact hA.nodup

end Houses

/-- What a phrase leaves to what it is a part of. -/
def Awaits (mode : Mode) (b : Builder) (e : Builder × Definition) : Prop :=
  match mode with
  | .code _ => False
  | .clause admits => admits e.2 ∧ e.1.sites = b.sites ∧ e.1.stack = b.stack

/-- Code leaves nothing open. -/
theorem Houses.of_code {owner : Option Nat} (h : Houses o (Awaits (.code owner) b₁) M A b b') :
    Houses o Q M A b b' :=
  h.settle fun _ _ => False.elim

theorem houses_declare (admits : Definition → Prop) {d : Definition} (hd : admits d)
    (h : Effects o b [.declare d] b') :
    Houses o (Awaits (.clause admits) b) [d.name.mark.id] [.declare d] b b' := by
  have hdeclarations : declarations o b [.declare d] = [(b, d)] := by
    cases h with
    | cons _ hstep _ hnil =>
      rw [declarations_cons hstep]
      rfl
  refine ⟨h, ?_, ?_, ?_⟩ <;> rw [hdeclarations]
  · exact fun e he => .inr (List.mem_singleton.mp he ▸ ⟨hd, rfl, rfl⟩)
  · exact fun e he => List.mem_singleton.mp he ▸ List.mem_singleton_self _
  · exact List.nodup_singleton _

/-- A declaration with its site. -/
theorem houses_site (admits : Definition → Prop) {reach : Reach}
    (h : Effects o b (Action.site reach A) b') (hhosts : Hosts mode M b.outline)
    (hA : ∀ {b b'}, Effects o b A b' → Hosts (.clause admits) M b.outline →
      Houses o (Awaits (.clause admits) b) M A b b') :
    ∃ u, b.stack.head? = some u ∧ Houses o (fun e => admits e.2 ∧ e.1.stack = b.stack ∧
      e.1.sites.head? = some (b.receiver u reach)) M (Action.site reach A) b b' := by
  obtain ⟨b₂, h, hend⟩ := h.exists_of_append
  obtain ⟨b₁, hbegin, h⟩ := h.exists_of_append
  have heffect := hbegin.single
  cases heffect with
  | @beginSite _ u hu =>
    obtain ⟨rest, hstack⟩ := List.head?_eq_some_iff.mp hu
    have hmem : b.receiver u reach ∈ b.stack := by
      cases reach with
      | innermost => exact List.mem_of_head? hu
      | variableScope => exact hbegin.start.wellFormed.variableScope_mem hstack
    refine ⟨u, hu, Houses.before (.after hbegin (by simp [Action.definitions])
      ((hA h (hhosts.site hmem admits)).settle ?_)) hend (by simp [Action.definitions])⟩
    rintro e - ⟨he, hsites, hstack'⟩
    exact .inr ⟨he, hstack', by rw [hsites]; rfl⟩

/-- What a scope that is opened is like. -/
theorem Effects.opened {kind : ScopeKind} {block : Anchor} {strict : Bool}
    (h : Effects o b [.openScope kind block strict] b') :
    b'.Opens b.scopes.size kind block ∧ b'.upper? b.scopes.size = b.stack.head? ∧
      b'.stack = b.scopes.size :: b.stack := by
  have hstack : b'.stack = b.scopes.size :: b.stack := by
    have hstep := (h.ran h.start.wellFormed).outline.step
    obtain ⟨w, hw⟩ : ∃ w, w = b'.outline := ⟨_, rfl⟩
    rw [← hw] at hstep
    cases hstep with
    | plain ha => cases ha
    | openScope => exact (congrArg Outline.stack hw).symm
  obtain ⟨y, v, hy, hycore⟩ := h.exists_opened
  refine ⟨⟨y, hy, (congrArg Scope.kind hycore :), (congrArg Scope.block hycore :)⟩, ?_, hstack⟩
  rw [Analysis.upper?, hy]
  exact congrArg List.head? (congrArg Scope.enclosing hycore :)

/-- A scope whose names are declared right after it has been opened. -/
theorem houses_scope (admits : Definition → Prop) {kind : ScopeKind} {block : Anchor}
    {strict : Bool} (h : Effects o b (Action.scope kind block strict A) b')
    (hhosts : Hosts (.code (some block.id)) M b.outline)
    (hA : ∀ {b b'}, Effects o b A b' → Hosts (.clause admits) M b.outline →
      Houses o (Awaits (.clause admits) b) M A b b')
    (hplaced : ∀ d, admits d → ∀ (a : Analysis) (t : Nat), a.Opens t kind block →
      d.PlacedAt o a t t) :
    Houses o Q M (Action.scope kind block strict A) b b' := by
  obtain ⟨b₁, hopen, h⟩ := h.exists_of_append
  obtain ⟨hopens, -, hstack⟩ := hopen.opened
  have hhosts₁ : Hosts (.code (some block.id)) M b₁.outline :=
    Hosts.right (M := []) hhosts (.openScope block.mark) (hopen.ran hopen.start.wellFormed).outline
  obtain ⟨u, hu, hhouses⟩ := houses_site admits h hhosts₁ hA
  refine .after hopen (by simp [Action.definitions]) (hhouses.settle ?_)
  rw [hstack] at hu
  cases hu
  rintro e - ⟨hadmits, hestack, hesites⟩
  refine .inl ⟨_, _, by rw [hestack, hstack]; rfl, hesites, hplaced _ hadmits _ _ ?_⟩
  exact h.opens h.start.wellFormed hopens

/-- Names that are declared right after a scope has been opened are declared in it. -/
theorem sites_of_scope {kind : ScopeKind} {block : Anchor} {strict : Bool}
    (hA : ∀ a ∈ A, a.isPlain = true ∨ ∃ d, a = .declare d)
    (h : Effects o b (Action.scope kind block strict A) b') :
    ∀ e ∈ declarations o b (Action.scope kind block strict A),
      e.1.sites.head? = some b.scopes.size := by
  obtain ⟨b₁, hopen, h⟩ := h.exists_of_append
  obtain ⟨-, -, hstack⟩ := hopen.opened
  obtain ⟨b₃, h, hend⟩ := h.exists_of_append
  obtain ⟨b₂, hbegin, h⟩ := h.exists_of_append
  have hnone : declarations o b (Action.scope kind block strict A) = declarations o b₂ A := by
    rw [hopen.declarations_append, (hbegin.append h).declarations_append,
      hbegin.declarations_append, declarations_eq_nil (by simp [Action.definitions]),
      declarations_eq_nil (by simp [Action.definitions]),
      declarations_eq_nil (A := [.endSite]) (by simp [Action.definitions]), List.append_nil,
      List.nil_append, List.nil_append]
  rw [hnone]
  rintro ⟨c, d⟩ he
  obtain ⟨B, C, rfl, hB, -⟩ := h.mem_declarations he
  have houtline : c.outline = b₂.outline := Outline.Run.eq_of_declare
    (fun a ha => hA a (List.mem_append_left _ ha)) (hB.ran hB.start.wellFormed).outline
  have hsites : c.sites = b₂.sites := congrArg Outline.sites houtline
  have heffect := hbegin.single
  cases heffect with
  | beginSite _ hu =>
    rw [hstack] at hu
    cases hu
    rw [hsites]
    rfl

/-- The site of a declaration is chosen by the kind of what is declared. -/
theorem placedAt_of_floats {reach : Reach} {d : Definition} {u : Nat} (hb : WellFormed b)
    (hu : b.stack.head? = some u) (hd : d.Floats reach) :
    d.PlacedAt o b.toAnalysis u (b.receiver u reach) := by
  obtain ⟨kind, i, node⟩ := d
  cases kind with
  | importBinding =>
    cases hd
    rfl
  | declared declaration index kind =>
    simp only [Definition.PlacedAt]
    cases hd
    split
    · rfl
    · have hmem := List.mem_of_head? hu
      obtain ⟨f, -, hf, -⟩ := hb.layout.chained_stack.exists_frame hmem
      obtain ⟨y, hy, rfl⟩ := Analysis.frame?_eq_some hf
      obtain ⟨g, hg, hkind, -⟩ := hb.layout.variableScope_nearest hf
      obtain ⟨z, hz, rfl⟩ := Analysis.frame?_eq_some hg
      have hreceiver : b.receiver u .variableScope = y.variableScope := by
        rw [receiver, variableScope, hy]
      rw [hreceiver]
      exact ⟨y, z, hy, rfl, hz, (ScopeKind.isVariableScope_iff _).mp hkind⟩
  | _ => exact hd.elim

/-- Code that leaves no scope open leaves the stack as it was. -/
theorem Effects.stack_eq (h : Effects o b A b') (hhosts : Hosts mode M b.outline)
    (hA : Action.Enclosed none false (M.map (Mark.mk · default)) A) : b'.stack = b.stack := by
  obtain ⟨τ, hτ⟩ := hhosts.embed.exists_leaves hA (h.ran h.start.wellFormed).outline
  have hstack : b'.stack = τ ++ b.stack := hτ.stack
  rwa [hτ.eq_nil rfl] at hstack

/-- A single name, declared in the innermost open scope. -/
theorem houses_here {d : Definition}
    (h : Effects o b (Action.site .innermost [.declare d]) b')
    (hhosts : Hosts mode [d.name.mark.id] b.outline) :
    Houses o (fun e => e.2 = d ∧ e.1.stack = b.stack ∧ e.1.sites.head? = b.stack.head?)
      [d.name.mark.id] (Action.site .innermost [.declare d]) b b' := by
  obtain ⟨u, hu, hhouses⟩ := houses_site (· = d) h hhosts fun h _ => houses_declare _ rfl h
  rw [hu]
  exact hhouses

/-- A scope with a single name. -/
theorem houses_named {d : Definition} {kind : ScopeKind} {block : Anchor} {strict : Bool}
    (h : Effects o b (Action.scope kind block strict [.declare d]) b')
    (hhosts : Hosts (.code (some block.id)) [d.name.mark.id] b.outline)
    (hplaced : ∀ (a : Analysis) (t : Nat), a.Opens t kind block → d.PlacedAt o a t t) :
    Houses o Q [d.name.mark.id] (Action.scope kind block strict [.declare d]) b b' := by
  refine houses_scope (· = d) h hhosts (fun h _ => houses_declare _ rfl h) ?_
  rintro _ rfl
  exact hplaced

private theorem functionName_none (form : FunctionForm) (block : Anchor) :
    Tree.functionName form block none = [] := by
  cases form <;> rfl

private theorem functionName_declaration (block : Anchor) (i : Identifier) :
    Tree.functionName .declaration block (some i) =
      Action.site .innermost [.declare ⟨.functionName, i, block⟩] :=
  rfl

theorem functionName_expression (block : Anchor) (i : Identifier) :
    Tree.functionName .expression block (some i) =
      Action.scope .functionName block false [.declare ⟨.functionName, i, block⟩] :=
  rfl

/-- The name of a function expression has a scope of its own; that of a function declaration is
declared where the function stands. -/
theorem houses_functionName {form : FunctionForm} {m : Mark} {name : Option Identifier}
    (h : Effects o b (Tree.functionName form ⟨.function form, m⟩ name) b')
    (hhosts : Hosts (.code (some m.id)) (name.map (·.mark.id)).toList b.outline) :
    Houses o (fun e => e.2.kind = .functionName ∧ e.2.node = ⟨.function form, m⟩ ∧
        form = .declaration ∧ b'.stack = b.stack ∧ e.1.stack = b.stack ∧
        e.1.sites.head? = b.stack.head?)
      (name.map (·.mark.id)).toList (Tree.functionName form ⟨.function form, m⟩ name) b b' := by
  cases name with
  | none =>
    rw [functionName_none] at h ⊢
    exact .of_eq_nil h (List.forall_mem_nil _)
  | some i =>
    cases form with
    | arrow => exact .of_eq_nil h (List.forall_mem_nil _)
    | expression =>
      rw [functionName_expression] at h ⊢
      exact houses_named h hhosts fun a t hopens => .inl ⟨rfl, hopens⟩
    | declaration =>
      rw [functionName_declaration] at h ⊢
      have hstack := h.stack_eq hhosts (.site (.of_declare (by simp)))
      refine (houses_here h hhosts).settle ?_
      rintro ⟨c, d⟩ - ⟨rfl, hcstack, hcsites⟩
      exact .inr ⟨rfl, rfl, rfl, hstack, hcstack, hcsites⟩

private theorem className_some (block : Anchor) (i : Identifier) :
    Tree.className block (some i) =
      Action.site .innermost [.declare ⟨.className, i, block⟩] :=
  rfl

/-- The name of a class, declared where the class stands. -/
theorem houses_className {block : Anchor} {name : Option Identifier}
    (h : Effects o b (Tree.className block name) b')
    (hhosts : Hosts mode (name.map (·.mark.id)).toList b.outline) :
    Houses o (fun e => e.2.kind = .className ∧ e.2.node = block ∧ e.1.stack = b.stack ∧
        e.1.sites.head? = b.stack.head?)
      (name.map (·.mark.id)).toList (Tree.className block name) b b' := by
  cases name with
  | none => exact .of_eq_nil h (List.forall_mem_nil _)
  | some i =>
    rw [className_some] at h ⊢
    refine (houses_here h hhosts).settle ?_
    rintro ⟨c, d⟩ - ⟨rfl, hcstack, hcsites⟩
    exact .inr ⟨rfl, rfl, hcstack, hcsites⟩

/-- The name of a class, declared in the scope of the class. -/
theorem houses_classBody {block : Anchor} {name : Option Identifier}
    (h : Effects o b ([Action.openScope .classBody block true] ++ Tree.className block name) b')
    (hhosts : Hosts (.code (some block.id)) (name.map (·.mark.id)).toList b.outline) :
    Houses o Q (name.map (·.mark.id)).toList
        ([Action.openScope .classBody block true] ++ Tree.className block name) b b' ∧
      ∀ e ∈ declarations o b
          ([Action.openScope .classBody block true] ++ Tree.className block name),
        e.1.sites.head? = some b.scopes.size := by
  cases name with
  | none =>
    have hnone : ∀ a ∈ [Action.openScope .classBody block true] ++ Tree.className block none,
        a.definitions = [] := by simp [Tree.className, Action.definitions]
    refine ⟨.of_eq_nil h hnone, ?_⟩
    rw [declarations_eq_nil hnone]
    exact List.forall_mem_nil _
  | some i =>
    rw [className_some] at h ⊢
    exact ⟨houses_named h hhosts fun a t hopens => .inl hopens, sites_of_scope (by simp) h⟩

end Builder

end EcmaScope
