import EcmaScope.Proofs.Around
import EcmaScope.Proofs.Regions
import EcmaScope.Proofs.Spans

/-!
# Loops over values with variables of their own

If the head of a loop over a value declares variables with `let` or `const`, then two scopes bind
them. While the value is evaluated, a first scope reserves the names, and nothing can be done with
them. That scope is closed before the second one is opened, which binds the names for the rounds of
the loop. So the two scopes stand side by side, and nothing sees both of them.

The first scope belongs to the node of the value, and if the value is a function or a class, then
so do other scopes inside. They are all closed together.

## Main definitions

* `Analysis.Separates`: two scopes side by side, with the references that see them.

## Main results

* `Builder.Effects.stack_of_closed`: closing all scopes of a node restores the stack.
* `Program.loop_separates`: the two scopes of a loop over a value.
-/

namespace EcmaScope

open EcmaScope.Action

/-! ## Scopes side by side -/

/-- The scopes `s` and `t` lie right inside the same scope. The references to the identifiers with
the numbers `I` lie inside `s` and stand for no variable of `t`, and those to the identifiers with
the numbers `J` lie inside `t` and stand for no variable of `s`. -/
structure Analysis.Separates (a : Analysis) (s t : Nat) (I J : List Nat) : Prop where
  upper : ∃ u, a.upper? s = some u ∧ a.upper? t = some u
  left : ∀ (r : Nat) (x : Reference), a.references[r]? = some x → x.identifier.mark.id ∈ I →
    a.Inside x.scope s ∧ ∀ v z, x.resolved = some v → a.vars[v]? = some z → z.scope ≠ t
  right : ∀ (r : Nat) (x : Reference), a.references[r]? = some x → x.identifier.mark.id ∈ J →
    a.Inside x.scope t ∧ ∀ v z, x.resolved = some v → a.vars[v]? = some z → z.scope ≠ s

/-- Nothing lies inside two scopes that stand side by side. -/
theorem Analysis.IsTree.eq_of_siblings {a : Analysis} (ha : a.IsTree) {q s t u : Nat}
    (hs : a.upper? s = some u) (ht : a.upper? t = some u) (hqs : a.Inside q s)
    (hqt : a.Inside q t) : s = t := by
  have hwithin {s t : Nat} (hs : a.upper? s = some u) (ht : a.upper? t = some u) :
      ¬ a.Within s t := fun hst => by
    -- the way from `s` to `t` goes through `u`, which is not inside `t`
    obtain ⟨w, hw, hwt⟩ := Relation.TransGen.head'_iff.mp hst
    cases hs.symm.trans hw
    exact absurd (ha.lt_of_upper? ht) (Nat.not_lt.mpr (ha.le_of_inside hwt))
  rcases Analysis.inside_cases hqs hqt with heq | hst | hts
  · exact heq
  · exact absurd hst (hwithin hs ht)
  · exact absurd hts (hwithin ht hs)

/-- Closing the scopes of a node takes off the stack what belongs to the node. -/
theorem Outline.Run.stack_of_replicate {w w' : Outline} {n k : Nat} {τ σ : List Nat}
    (h : Outline.Run w (List.replicate (k + 1) (.closeScopes n)) w') (hstack : w.stack = τ ++ σ)
    (hτ : ∀ t ∈ τ, t ∈ w.scopesOf n) (hσ : ∀ t ∈ σ, t ∉ w.scopesOf n) : w'.stack = σ := by
  cases h with
  | cons hstep hrun =>
    cases hstep with
    | plain ha => cases ha
    | closeScopes =>
      have hdrop : w.stack.dropWhile (· ∈ w.scopesOf n) = σ := by
        rw [hstack, List.dropWhile_append_of_pos fun t ht => decide_eq_true (hτ t ht)]
        cases σ with
        | nil => rfl
        | cons t σ => exact List.dropWhile_cons_of_neg (by simpa using hσ t List.mem_cons_self)
      rw [hdrop] at hrun
      rw [hrun.eq_of_replicate hσ]

namespace Builder

variable {b b₁ b' b'' : Builder} {o : Options} {A C W : List Action}

/-- Scopes of a node are opened one inside the other, and then all of them are closed. If no open
scope belonged to the node before, the stack is as it was. -/
theorem Effects.stack_of_closed {kind : ScopeKind} {block : Anchor} {strict : Bool} {k : Nat}
    {M : List Mark} (hopen : Effects o b [.openScope kind block strict] b₁)
    (h : Effects o b₁ W b')
    (hclose : Effects o b' (List.replicate (k + 1) (.closeScopes block.id)) b'')
    (hW : Enclosed (some block.id) false M W) (hnot : .closeScopes block.id ∉ W)
    (hfresh : ∀ q ∈ b.stack, q ∉ b'.scopesOf block.id) : b''.stack = b.stack := by
  have hall : Enclosed (some block.id) false M ([Action.openScope kind block strict] ++ W) :=
    (Enclosed.openScope block.mark).after hW
  obtain ⟨I, -, hnested⟩ := hall
  obtain ⟨τ, ρ, hstack, ⟨σ, hσ⟩, hτ⟩ := hnested.rests (hopen.append h).outline
  obtain ⟨l, hl⟩ := hopen.suffix_of_opened h hnot
  change b'.stack = τ ++ ρ at hstack
  change σ ++ ρ = b.stack at hσ
  have hsplit : l ++ b.scopes.size :: σ ++ ρ = τ ++ ρ := by
    rw [← hstack, ← hl, ← hσ, List.append_assoc, List.cons_append]
  rw [List.append_cons] at hl
  refine hclose.outline.stack_of_replicate hl.symm (fun q hq => ?_) hfresh
  obtain ⟨n, hn, hmem⟩ := hτ q (by
    rw [← List.append_cancel_right hsplit, List.append_cons]
    exact List.mem_append_left σ hq)
  cases hn
  exact hmem

private theorem Effects.upper?_of_opened {kind : ScopeKind} {block : Anchor} {strict : Bool}
    (hopen : Effects o b [.openScope kind block strict] b₁) (h : Effects o b₁ A b') :
    b'.upper? b.scopes.size = b.stack.head? := by
  rw [h.upper?_eq hopen.lt_of_opened, hopen.opened.2.1]

private theorem closeScopes_notMem_bindFirst (n : Nat) (definition : DefinitionKind)
    (reserved : Bool) (ds : Tree (.list .declarator)) :
    .closeScopes n ∉ bindFirst definition reserved ds := by
  have henclosed : Enclosed none false [] (bindFirst definition reserved ds) :=
    enclosed_bindFirst definition reserved ds
  exact fun hmem => List.not_mem_nil (henclosed.mem_of_closeScopes hmem)

private theorem closeScopes_notMem_bindItems (n : Nat) (value : Anchor)
    (ds : Tree (.list .declarator)) : .closeScopes n ∉ bindItems value ds := by
  have henclosed : Enclosed none false [] (bindItems value ds) := enclosed_bindItems value ds
  exact fun hmem => List.not_mem_nil (henclosed.mem_of_closeScopes hmem)

/-- The names of the first declarator of a loop, in a scope that has just been opened. -/
theorem Effects.bindsBy_first {kind : ScopeKind} {block : Anchor} {strict : Bool}
    {definition : DefinitionKind} {reserved : Bool} {ds : Tree (.list .declarator)}
    (hb : Effects o {} C b) (hopen : Effects o b [.openScope kind block strict] b₁)
    (h : Effects o b₁ (bindFirst definition reserved ds) b') (h' : Effects o b' A b'') (m : Mark)
    (target : Pat) (init : Tree (.optional .expression)) (rest : Tree (.list .declarator))
    (hds : ds = .cons (.declarator m target init) rest) :
    ∀ t ∈ Pat.targets target, b''.BindsBy b.scopes.size
      ⟨definition, t.identifier, ⟨.declarator, m⟩⟩ := by
  subst hds
  intro t ht
  refine hb.bindsBy (fun a => isPlain_or_declare_of_mem_bindDeclarator) (hopen.append h) h' ?_
  exact List.mem_flatMap.mpr ⟨t, ht, List.mem_cons_self⟩

end Builder

section

variable {o : Options} {p : Program} {a : Analysis}

/-- What sees one of two scopes that stand side by side does not see the other one. -/
theorem Program.separates (hids : (Tree.ids p).Nodup) (h : Program.analyze o p = .ok a)
    {s t u : Nat} {I J : List Nat} (hs : a.upper? s = some u) (ht : a.upper? t = some u)
    (hne : s ≠ t)
    (hI : ∀ (r : Nat) (x : Reference), a.references[r]? = some x → x.identifier.mark.id ∈ I →
      a.Inside x.scope s)
    (hJ : ∀ (r : Nat) (x : Reference), a.references[r]? = some x → x.identifier.mark.id ∈ J →
      a.Inside x.scope t) : a.Separates s t I J where
  upper := ⟨u, hs, ht⟩
  left r x hx hmem := ⟨hI r x hx hmem, fun v z hv hz hscope => by
    have hinside := Program.inside_of_resolved hids h hx hv hz
    rw [hscope] at hinside
    exact hne ((Program.ordered hids h).isTree.eq_of_siblings hs ht (hI r x hx hmem) hinside)⟩
  right r x hx hmem := ⟨hJ r x hx hmem, fun v z hv hz hscope => by
    have hinside := Program.inside_of_resolved hids h hx hv hz
    rw [hscope] at hinside
    exact hne ((Program.ordered hids h).isTree.eq_of_siblings hs ht hinside (hJ r x hx hmem))⟩

/-- A scope that reserves names is the first one of its node. -/
theorem Program.block_ne_of_tdz (hids : (Tree.ids p).Nodup) (h : Program.analyze o p = .ok a)
    {q s : Nat} {block : Anchor} (hopens : a.Opens s .tdz block) {y : Scope}
    (hy : a.scopes[q]? = some y) (hlt : q < s) : y.block.id ≠ block.id := by
  obtain ⟨z, hz, hkind, rfl⟩ := hopens
  intro hid
  have hq : a.openings[q]? = some (y.kind, y.block.id) := by
    rw [a.getElem?_openings, hy]
    rfl
  have hs : a.openings[s]? = some (z.kind, y.block.id) := by
    rw [a.getElem?_openings, hz, hid]
    rfl
  exact ne_tdz_of_lt (Program.reservesFirst hids h) hq hs hlt hkind

/-- The actions of a loop over a value whose rounds have their own variables. The value may have
scopes of its own, which are closed together with the one that reserves the names. -/
theorem Tree.actions_lexicalLoop {kind : VariableKind} (hkind : (kind.isLexical && o.isEs6) = true)
    (form : IterationForm) (m dm : Mark) (ds : Tree (.list .declarator)) {right : Expr}
    (hright : right.ids.Nodup) (body : Stmt) (await method : Bool) : ∃ k B,
    ↑(B.flatMap Action.uses) = (ledger o (right.pieces o .code)).1 ∧
    Enclosed (some (Expr.anchor right).id) false right.marks B ∧
    .closeScopes (Expr.anchor right).id ∉ B ∧
    (Tree.iterationStatement form m (.targetDeclaration (.declaration dm kind ds)) right body
      await).actions o (.code method) =
      [Action.openScope .tdz (Expr.anchor right) false] ++
      bindFirst (.tdz ⟨.declaration, dm⟩ 0 kind) true ds ++ B ++
      List.replicate (k + 1) (Action.closeScopes (Expr.anchor right).id) ++
      [Action.openScope .loop ⟨.iteration form, m⟩ false] ++
      bindFirst (.declared ⟨.declaration, dm⟩ 0 kind) false ds ++
      (ds.actions o .head ++ bindItems (Expr.anchor right) ds) ++
      body.actions o (.code method) ++ [Action.closeScopes m.id] := by
  obtain ⟨N, hN⟩ := Expr.marks_eq_cons right
  have hvalue : Roots o right.marks (ledger o (right.pieces o .code))
    (right.actions o (.code method)) := (right.walked o).told rfl method
  rw [hN] at hvalue
  rw [ids, hN] at hright
  obtain ⟨k, B, hclose, hB⟩ := hvalue.exists_scopes
  change _ ++ [Action.closeScopes (Expr.anchor right).id] =
    B ++ List.replicate (k + 1) (Action.closeScopes (Expr.anchor right).id) at hclose
  have henclosed : Enclosed (some (Expr.anchor right).id) false N B := hB.enclosed
  obtain ⟨I, -, hphrase⟩ := hB
  refine ⟨k, B, hphrase.uses, hN ▸ henclosed.cons, fun hmem => ?_, ?_⟩
  · exact (List.nodup_cons.mp hright).1 (henclosed.mem_of_closeScopes hmem)
  · change (if (kind.isLexical && o.isEs6) = true then _ else _) = _
    rw [if_pos hkind, append_closing hclose, List.append_assoc _ (ds.actions o .head)]

/-- What is done in the scope of the rounds does not close it. -/
theorem Tree.closeScopes_notMem_rounds {m dm : Mark} {ds : Tree (.list .declarator)} {right : Expr}
    {body : Stmt}
    (hids : (m.id :: (dm :: ds.marks ++ right.marks ++ body.marks).map (·.id)).Nodup)
    (definition : DefinitionKind) (value : Anchor) (method : Bool) :
    .closeScopes m.id ∉ bindFirst definition false ds ++
        (ds.actions o .head ++ bindItems value ds) ∧
      .closeScopes m.id ∉ body.actions o (.code method) := by
  have hm := (List.nodup_cons.mp hids).1
  simp only [List.map_append, List.mem_append, not_or] at hm ⊢
  refine ⟨⟨Builder.closeScopes_notMem_bindFirst _ _ _ _, fun hmem => hm.1.1 ?_,
    Builder.closeScopes_notMem_bindItems _ _ _⟩, fun hmem => hm.2 ?_⟩
  · exact List.mem_cons_of_mem _ ((ds.actions_nested o .head).mem_of_closeScopes hmem)
  · exact (body.actions_nested o (.code method)).mem_of_closeScopes hmem

/-- The two scopes of a loop stand side by side. -/
theorem Program.exists_upper_of_closed {b₀ b₁ b₃ b₄ b₅ b : Builder} (hids : (Tree.ids p).Nodup)
    (h : Program.analyze o p = .ok b.toAnalysis) {value block : Anchor} {W Z : List Action}
    {k : Nat} {M : List Mark} (htdz : Builder.Effects o b₀ [.openScope .tdz value false] b₁)
    (hW : Builder.Effects o b₁ W b₃)
    (hclose : Builder.Effects o b₃ (List.replicate (k + 1) (.closeScopes value.id)) b₄)
    (hloop : Builder.Effects o b₄ [.openScope .loop block false] b₅)
    (hZ : Builder.Effects o b₅ Z b) (henclosed : Enclosed (some value.id) false M W)
    (hnot : .closeScopes value.id ∉ W) :
    b₀.scopes.size ≠ b₄.scopes.size ∧ ∃ u, b.upper? b₀.scopes.size = some u ∧
      b.upper? b₄.scopes.size = some u := by
  have hafter := hclose.append (hloop.append hZ)
  have hs : b.Opens b₀.scopes.size .tdz value :=
    (hW.append hafter).opens hW.start.wellFormed htdz.opened.1
  have hfresh : ∀ q ∈ b₀.stack, q ∉ b₃.scopesOf value.id := fun q hq hmem => by
    obtain ⟨f, hf, hid⟩ := (Builder.mem_scopesOf_iff hclose.start.wellFormed q _).mp hmem
    obtain ⟨y, hy, rfl⟩ := Analysis.frame?_eq_some hf
    obtain ⟨z, hz, -, hblock, -⟩ := hafter.exists_scope hclose.start.wellFormed hy
    have hlt := htdz.start.wellFormed.layout.stack_lt hq
    exact Program.block_ne_of_tdz hids h hs hz hlt ((congrArg Anchor.id hblock).trans hid)
  have hstack := htdz.stack_of_closed hW hclose henclosed hnot hfresh
  have hlt := Nat.lt_of_lt_of_le htdz.lt_of_opened (hW.append hclose).size_le
  obtain ⟨u, hu, -⟩ := (Program.ordered hids h).isTree.upper?_lt b₄.scopes.size (by omega)
    (Nat.lt_of_lt_of_le hloop.lt_of_opened hZ.size_le)
  refine ⟨Nat.ne_of_lt hlt, u, ?_, hu⟩
  rw [htdz.upper?_of_opened (hW.append hafter), ← hstack, ← hloop.upper?_of_opened hZ, hu]

/-- If the rounds of a loop over a value have variables of their own, then two scopes that stand
side by side bind them: one that reserves the names while the value is evaluated, and one for the
rounds. What is evaluated first does not see the second scope, nor what is done in the rounds the
first one. -/
theorem Program.loop_separates (hids : (Tree.ids p).Nodup) (h : Program.analyze o p = .ok a)
    (hes6 : o.isEs6 = true) {kind : VariableKind} (hkind : kind.isLexical = true) {role : Role}
    {form : IterationForm} {m dm : Mark} {ds : Tree (.list .declarator)} {right : Expr}
    {body : Stmt} {await : Bool}
    (hu : ⟨_, role, .iterationStatement form m (.targetDeclaration (.declaration dm kind ds)) right
      body await⟩ ∈ Program.pieces o p) (hrole : role ≠ .skipped) :
    ∃ s t, a.Opens s .tdz (Expr.anchor right) ∧ a.Opens t .loop ⟨.iteration form, m⟩ ∧
      (∀ fm target init rest, ds = .cons (.declarator fm target init) rest →
        ∀ e ∈ Pat.targets target,
          a.BindsBy s ⟨.tdz ⟨.declaration, dm⟩ 0 kind, e.identifier, ⟨.declarator, fm⟩⟩ ∧
          a.BindsBy t ⟨.declared ⟨.declaration, dm⟩ 0 kind, e.identifier, ⟨.declarator, fm⟩⟩) ∧
      a.Separates s t right.ids body.ids := by
  obtain ⟨rfl, method, hactions, -⟩ := Program.spans o p _ hu hrole rfl
  have hpieces := p.gathered o .code _ hu
  have hright : right.pieces o .code <:+: Program.pieces o p :=
    .trans ⟨_ :: Tree.pieces o .code (.targetDeclaration (.declaration dm kind ds)), _, rfl⟩ hpieces
  have hbody : body.pieces o .code <:+: Program.pieces o p :=
    .trans (List.suffix_append (_ :: (_ ++ right.pieces o .code)) _).isInfix hpieces
  obtain ⟨k, B, huses, henclosed, hcloseB, hshape⟩ := Tree.actions_lexicalLoop
    (Bool.and_eq_true_iff.mpr ⟨hkind, hes6⟩) form m dm ds
    (Program.nodup_ids_of_infix hids hright) body await method
  obtain ⟨hcloseHead, hcloseBody⟩ := Tree.closeScopes_notMem_rounds (o := o)
    (Program.nodup_ids_of_infix hids hpieces) (.declared ⟨.declaration, dm⟩ 0 kind)
    (Expr.anchor right) method
  have hcloseFirst := Builder.closeScopes_notMem_bindFirst (Expr.anchor right).id
    (.tdz ⟨.declaration, dm⟩ 0 kind) true ds
  obtain ⟨J, -, hround⟩ := (body.walked o).speaks method
  obtain ⟨b, rfl, heffects⟩ := Program.exists_effects h
  obtain ⟨A, C, hsplit⟩ := hactions
  change A ++ Tree.actions o (.code method) _ ++ C = _ at hsplit
  rw [← hsplit, hshape] at heffects
  obtain ⟨b₉, hstart, hC⟩ := heffects.exists_of_append
  obtain ⟨b₀, hA, hall⟩ := hstart.exists_of_append
  obtain ⟨b₈, hall, hlast⟩ := hall.exists_of_append
  obtain ⟨b₇, hall, hrounds⟩ := hall.exists_of_append
  obtain ⟨b₆, hall, hhead⟩ := hall.exists_of_append
  obtain ⟨b₅, hall, hfirst⟩ := hall.exists_of_append
  obtain ⟨b₄, hall, hloop⟩ := hall.exists_of_append
  obtain ⟨b₃, hall, hclose⟩ := hall.exists_of_append
  obtain ⟨b₂, hall, hvalue⟩ := hall.exists_of_append
  obtain ⟨b₁, htdz, hreserve⟩ := hall.exists_of_append
  have hend := hlast.append hC
  have hafter := hfirst.append (hhead.append (hrounds.append hend))
  have hlater := hclose.append (hloop.append hafter)
  have hwhole := hreserve.append (hvalue.append hlater)
  have hnames (fm target init rest) (hds : ds = .cons (.declarator fm target init) rest) :
      ∀ e ∈ Pat.targets target, b.BindsBy b₀.scopes.size _ ∧ b.BindsBy b₄.scopes.size _ :=
    fun e he => ⟨hA.bindsBy_first htdz hreserve (hvalue.append hlater) fm target init rest hds e he,
      (hA.append (htdz.append (hreserve.append (hvalue.append hclose)))).bindsBy_first hloop hfirst
        (hhead.append (hrounds.append hend)) fm target init rest hds e he⟩
  obtain ⟨hne, u, hs, ht⟩ := Program.exists_upper_of_closed hids h htdz (hreserve.append hvalue)
    hclose hloop hafter (.append (M := []) (enclosed_bindFirst _ _ ds) henclosed) (by
      simp only [List.mem_append, not_or]
      exact ⟨hcloseFirst, hcloseB⟩)
  refine ⟨b₀.scopes.size, b₄.scopes.size, hwhole.opens hwhole.start.wellFormed htdz.opened.1,
    hafter.opens hafter.start.wellFormed hloop.opened.1, hnames,
    Program.separates hids h hs ht hne (fun r x hx hmem => ?_) fun r x hx hmem => ?_⟩
  · exact Program.inside_of_mem_marks hids h htdz hreserve hvalue hlater hcloseFirst hcloseB hright
      huses hx ((right.perm_ids o .code).mem_iff.mpr hmem)
  · exact Program.inside_of_mem_marks hids h hloop (hfirst.append hhead) hrounds hend hcloseHead
      hcloseBody hbody hround.uses hx ((body.perm_ids o .code).mem_iff.mpr hmem)

end

/-- The program `for (const x of function f() { x }) x;`. -/
def Program.loopWithUses : Program :=
  let mark (n : Nat) : Mark := ⟨n, ⟨n, n⟩⟩
  let use (n : Nat) : Stmt := .expressionStatement (mark n) (.identifier ⟨mark (n + 1), "x"⟩) none
  .program (mark 0) (.cons (.iterationStatement .forOf (mark 1)
    (.targetDeclaration (.declaration (mark 2) .constKind
      (.cons (.declarator (mark 3) (.identifierPattern ⟨mark 4, "x"⟩) .absent) .nil)))
    (.functionExpression (.function .expression (mark 5) (some ⟨mark 6, "f"⟩) .nil
      (.blockBody (.block (mark 7) (.cons (use 8) .nil))) false false false))
    (use 10) false) .nil)

/-- The `x` in the function is the reserved one, though the function shares its node with the scope
that reserves it, and the `x` in the body is that of the round. -/
theorem Program.loop_separates_uses : (Tree.ids Program.loopWithUses).Nodup ∧
    ∃ a s t, Program.analyze .es6 .loopWithUses = .ok a ∧
      (a.references.toList.map fun x => (x.identifier.mark.id, x.resolved)) =
        [(9, some 0), (4, some 3), (11, some 3)] ∧
      a.Opens s .tdz ⟨.expression "FunctionExpression", ⟨5, ⟨5, 5⟩⟩⟩ ∧
      a.Opens t .loop ⟨.iteration .forOf, ⟨1, ⟨1, 1⟩⟩⟩ ∧
      a.BindsBy s ⟨.tdz ⟨.declaration, ⟨2, ⟨2, 2⟩⟩⟩ 0 .constKind, ⟨⟨4, ⟨4, 4⟩⟩, "x"⟩,
        ⟨.declarator, ⟨3, ⟨3, 3⟩⟩⟩⟩ ∧
      a.Separates s t [5, 6, 7, 8, 9] [10, 11] := by
  have hids : (Tree.ids Program.loopWithUses).Nodup := by decide
  have hresolved : ((Program.analyze .es6 .loopWithUses).toOption.map fun a =>
      a.references.toList.map fun x => (x.identifier.mark.id, x.resolved)) =
    some [(9, some 0), (4, some 3), (11, some 3)] := by decide +kernel
  cases h : Program.analyze .es6 .loopWithUses with
  | error e =>
    rw [h] at hresolved
    cases hresolved
  | ok a =>
    rw [h] at hresolved
    have hloop : (Program.pieces .es6 .loopWithUses)[2]? = some _ := rfl
    obtain ⟨s, t, hs, ht, hnames, hseparates⟩ :=
      Program.loop_separates hids h rfl rfl (List.mem_of_getElem? hloop) (by decide)
    exact ⟨hids, a, s, t, rfl, Option.some.inj hresolved, hs, ht,
      (hnames _ _ _ _ rfl _ List.mem_cons_self).1, hseparates⟩

end EcmaScope
