import EcmaScope.Proofs.Housing
import EcmaScope.Proofs.Resolution
import EcmaScope.Proofs.Uses

/-!
# What is done while a scope is open

A scope stays open until its node is closed, and what has been closed is not opened again. So the
references that are made while a scope is open lie inside it, and those that are made before it is
opened or after it has been closed do not.

References are numbered in the order in which they are made, and the nodes of a part of a program
occur nowhere else. So the references to the identifiers of a part are those that its actions make.

## Main definitions

* `Builder.Made`: a reference has been made between two states.
* `Analysis.BindsBy`: a scope binds a name by a definition.

## Main results

* `Builder.Effects.suffix_of_opened`, `Builder.Effects.mem_of_mem_stack`: which scopes are open.
* `Builder.Made.inside`, `Builder.Made.of_inside`: where references lie.
* `Builder.Effects.bindsBy`: names that are declared in a scope as soon as it has been opened.
* `Program.mem_marks_iff_made`: the actions of a part make the references to its identifiers.
* `Program.exists_region`: the references inside a scope that is opened for a name.
-/

namespace EcmaScope

/-- The scope `s` binds a name by the definition `d`. -/
def Analysis.BindsBy (a : Analysis) (s : Nat) (d : Definition) : Prop :=
  ∃ v x, a.variableIn? d.name.name s = some v ∧ a.vars[v]? = some x ∧ d ∈ x.defs

/-! ## Open scopes -/

/-- Only the nodes of nested actions are closed by them. -/
theorem Action.Nested.mem_of_closeScopes {owner : Option Nat} {sited : Bool} {I : List Nat}
    {A : List Action} (h : Action.Nested owner sited I A) {n : Nat} (hn : .closeScopes n ∈ A) :
    n ∈ I := by
  induction h with
  | nil => cases hn
  | append _ _ ihA ihB => exact List.mem_append.mpr ((List.mem_append.mp hn).imp ihA ihB)
  | plain a ha =>
    rw [← List.mem_singleton.mp hn] at ha
    cases ha
  | declare | openScope => cases List.mem_singleton.mp hn
  | site reach _ ih =>
    refine ih ?_
    simpa using hn
  | scopes k _ ih =>
    rcases List.mem_append.mp hn with hn | hn
    · exact List.mem_cons_of_mem _ (ih hn)
    · cases List.eq_of_mem_replicate hn
      exact List.mem_cons_self

theorem Action.Enclosed.mem_of_closeScopes {owner : Option Nat} {sited : Bool} {M : List Mark}
    {A : List Action} (h : Action.Enclosed owner sited M A) {n : Nat} (hn : .closeScopes n ∈ A) :
    n ∈ M.map (·.id) := by
  obtain ⟨I, hcount, hnested⟩ := h
  have hpos := List.count_pos_iff.mpr (hnested.mem_of_closeScopes hn)
  exact List.count_pos_iff.mp (Nat.lt_of_lt_of_le hpos (hcount n))

theorem Speaks.enclosed {o : Options} {mode : Mode} {M : List Mark} {L : Ledger} {A : List Action}
    (h : Speaks o mode M L A) : Action.Enclosed mode.owner mode.sited M A := by
  obtain ⟨I, hI, hphrase⟩ := h
  exact hphrase.enclosed.mono fun n => by simpa [Function.comp_def] using hI n

namespace Outline

variable {w w' : Outline} {A : List Action} {s : Nat} {σ : List Nat}

private theorem Step.size_le {a : Action} (h : Step w a w') : w.size ≤ w'.size := by
  cases h with
  | openScope => exact Nat.le_succ _
  | closeScopes | beginSite | endSite | declare | plain => exact Nat.le_refl _

private theorem Run.size_le (h : Run w A w') : w.size ≤ w'.size := by
  induction h with
  | nil => exact Nat.le_refl _
  | cons h _ ih => exact Nat.le_trans h.size_le ih

private theorem Step.suffix_stack {a : Action} (h : Step w a w') (hs : s :: σ <:+ w.stack)
    (ha : ∀ n, a = .closeScopes n → s ∉ w.scopesOf n) : s :: σ <:+ w'.stack := by
  cases h with
  | openScope => exact hs.trans (List.suffix_cons _ _)
  | closeScopes n =>
    obtain ⟨τ, hτ⟩ := hs
    have hstop : (s :: σ).dropWhile (· ∈ w.scopesOf n) = s :: σ :=
      List.dropWhile_cons_of_neg (by simpa using ha n rfl)
    change _ <:+ w.stack.dropWhile _
    rw [← hτ, List.dropWhile_append, hstop]
    split
    · exact List.suffix_rfl
    · exact List.suffix_append _ _
  | beginSite | endSite | declare | plain => exact hs

/-- A scope stays open, with those around it, as long as none of its nodes is closed. -/
theorem Run.suffix_stack (h : Run w A w') (hs : s :: σ <:+ w.stack)
    (hA : ∀ n, .closeScopes n ∈ A → s ∉ w'.scopesOf n) : s :: σ <:+ w'.stack := by
  induction h with
  | nil => exact hs
  | cons h hrun ih =>
    refine ih (h.suffix_stack hs fun n hn hmem => ?_) fun n hn => hA n (List.mem_cons_of_mem _ hn)
    exact hA n (hn ▸ List.mem_cons_self) (hrun.mem_scopesOf (h.mem_scopesOf hmem))

private theorem Step.mem_of_mem_stack {a : Action} (h : Step w a w') (hlt : s < w.size)
    (hs : s ∈ w'.stack) : s ∈ w.stack := by
  cases h with
  | openScope => exact (List.mem_cons.mp hs).resolve_left (Nat.ne_of_lt hlt)
  | closeScopes => exact (List.dropWhile_suffix _).subset hs
  | beginSite | endSite | declare | plain => exact hs

/-- A scope that has been closed is not opened again. -/
theorem Run.mem_of_mem_stack (h : Run w A w') (hlt : s < w.size) (hs : s ∈ w'.stack) :
    s ∈ w.stack := by
  induction h with
  | nil => exact hs
  | cons h _ ih => exact h.mem_of_mem_stack hlt (ih (Nat.lt_of_lt_of_le hlt h.size_le) hs)

end Outline

namespace Builder

variable {b b' b'' : Builder} {o : Options} {A C : List Action} {s : Nat}

theorem Effects.outline (h : Effects o b A b') : Outline.Run b.outline A b'.outline :=
  (h.ran h.start.wellFormed).outline

theorem Effects.size_le (h : Effects o b A b') : b.scopes.size ≤ b'.scopes.size :=
  h.outline.size_le

theorem Effects.lt_of_opened {kind : ScopeKind} {block : Anchor} {strict : Bool}
    (hopen : Effects o b [.openScope kind block strict] b') : b.scopes.size < b'.scopes.size := by
  obtain ⟨⟨y, hy, -⟩, -⟩ := hopen.opened
  exact (Array.getElem?_eq_some_iff.mp hy).1

/-- A scope that has been opened stays open, with those around it, until its node is closed. -/
theorem Effects.suffix_of_opened {kind : ScopeKind} {block : Anchor} {strict : Bool}
    (hopen : Effects o b [.openScope kind block strict] b') (h : Effects o b' A b'')
    (hA : .closeScopes block.id ∉ A) : b.scopes.size :: b.stack <:+ b''.stack := by
  obtain ⟨hopens, -, hstack⟩ := hopen.opened
  have hstart : b.scopes.size :: b.stack <:+ b'.outline.stack := by
    rw [← hstack]
    exact List.suffix_rfl
  refine h.outline.suffix_stack hstart fun n hn hmem => ?_
  obtain ⟨f, hf, rfl⟩ := (mem_scopesOf_iff h.sound.wellFormed _ n).mp hmem
  obtain ⟨y, hy, rfl⟩ := Analysis.frame?_eq_some hf
  obtain ⟨z, hz, -, rfl⟩ := h.opens h.start.wellFormed hopens
  cases hy.symm.trans hz
  exact hA hn

theorem Effects.mem_of_opened {kind : ScopeKind} {block : Anchor} {strict : Bool}
    (hopen : Effects o b [.openScope kind block strict] b') (h : Effects o b' A b'')
    (hA : .closeScopes block.id ∉ A) : b.scopes.size ∈ b''.stack :=
  (hopen.suffix_of_opened h hA).subset List.mem_cons_self

/-- A scope that has been closed is not opened again. -/
theorem Effects.mem_of_mem_stack (h : Effects o b A b') (hlt : s < b.scopes.size)
    (hs : s ∈ b'.stack) : s ∈ b.stack :=
  h.outline.mem_of_mem_stack hlt hs

theorem Effects.references_size (h : Effects o b A b') (hA : A.flatMap Action.uses = []) :
    b'.references.size = b.references.size := by
  have huses := h.uses
  rw [hA, List.append_nil] at huses
  simpa [Analysis.uses] using congrArg List.length huses

/-- What leaves no scope open takes scopes off the stack at most. -/
theorem Effects.suffix (h : Effects o b A b') {sited : Bool} {M : List Mark}
    (hA : Action.Enclosed none sited M A) : b'.stack <:+ b.stack := by
  obtain ⟨I, -, hnested⟩ := hA
  exact (hnested.rests h.outline).suffix

/-! ## Where references lie -/

private theorem length_record (b : Builder) : b.record.length = b.references.size := by
  simp [Analysis.record]

/-- A reference is made by using its name, in the scope that is the innermost one then. -/
theorem Effects.exists_refer (h : Effects o b A b') {r : Nat} {x : Reference}
    (hr : b.record.length ≤ r) (hx : b'.record[r]? = some x) :
    ∃ B C c creator, A = B ++ .refer x.identifier x.use creator :: C ∧ Effects o b B c ∧
      Effects o c (.refer x.identifier x.use creator :: C) b' ∧
      c.stack.head? = some x.scope := by
  induction h with
  | nil =>
    rw [List.getElem?_eq_none hr] at hx
    cases hx
  | @cons b b₁ b' a A hb hstep heffect hA ih =>
    by_cases hlt : r < b₁.record.length
    · have hfirst : b₁.record[r]? = some x := by
        obtain ⟨l, hl⟩ := hA.record_prefix
        rwa [← hl, List.getElem?_append_left hlt] at hx
      rcases heffect.record_cases with ⟨-, heq⟩ | ⟨i, use, creator, s, rfl, hs, heq⟩
      · rw [heq] at hlt
        exact absurd hlt (Nat.not_lt.mpr hr)
      · rw [heq, List.getElem?_append_right hr] at hfirst
        cases List.mem_singleton.mp (List.mem_of_getElem? hfirst)
        exact ⟨[], A, b, creator, rfl, .nil hb, .cons hb hstep heffect hA, hs⟩
    · obtain ⟨B, C, c, creator, rfl, hB, hC, hscope⟩ := ih (Nat.le_of_not_lt hlt) hx
      exact ⟨a :: B, C, c, creator, rfl, .cons hb hstep heffect hB, hC, hscope⟩

/-- The innermost scope lies inside all open ones, and inside no other. -/
theorem Effects.inside_iff (h : Effects o b A b') {t : Nat} (ht : b.stack.head? = some t) :
    b'.Inside t s ↔ s ∈ b.stack := by
  have hwell := h.start.wellFormed
  obtain ⟨rest, hstack⟩ := List.head?_eq_some_iff.mp ht
  have hchained := hwell.layout.chained_stack
  rw [hstack] at hchained
  obtain ⟨f, hf, henclosing⟩ := hchained.frame
  obtain ⟨children, isOpen, hf'⟩ := (h.ran hwell).moves.exists_frame hwell hf
  rw [Analysis.inside_iff h.sound.wellFormed.layout hf', hstack, ← henclosing]

section

variable {r : Nat} {x : Reference}

/-- The reference `r` of `b''` has been made on the way from `b` to `b'`. -/
structure Made (b b' b'' : Builder) (r : Nat) (x : Reference) : Prop where
  le : b.references.size ≤ r
  lt : r < b'.references.size
  getElem? : b''.references[r]? = some x

/-- The reference has been made in the scope that was the innermost one in between. -/
theorem Made.exists_between (hmade : Made b b' b'' r x) (h : Effects o b A b')
    (h' : Effects o b' C b'') : ∃ B D c, Effects o b B c ∧ Effects o c D b' ∧
      ∀ s, b''.Inside x.scope s ↔ s ∈ c.stack := by
  have hx : b'.record[r]? = some x.lasting := by
    obtain ⟨l, hl⟩ := h'.record_prefix
    have hall : (b'.record ++ l)[r]? = some x.lasting := by
      rw [hl]
      simp [Analysis.record, hmade.getElem?]
    rwa [List.getElem?_append_left (by rw [length_record]; exact hmade.lt)] at hall
  obtain ⟨B, D, c, creator, -, hB, hD, hscope⟩ :=
    h.exists_refer (by rw [length_record]; exact hmade.le) hx
  exact ⟨B, _, c, hB, hD, fun s => (hD.append h').inside_iff hscope⟩

/-- What is made while a scope is open lies inside it. -/
theorem Made.inside (hmade : Made b b' b'' r x) (h : Effects o b A b') (h' : Effects o b' C b'')
    (hlt : s < b.scopes.size) (hs : s ∈ b'.stack) : b''.Inside x.scope s := by
  obtain ⟨B, D, c, hB, hD, hinside⟩ := hmade.exists_between h h'
  exact (hinside s).mpr (hD.mem_of_mem_stack (Nat.lt_of_lt_of_le hlt hB.size_le) hs)

/-- What is made before a scope is opened, or after it has been closed, does not lie inside it. -/
theorem Made.of_inside (hmade : Made b b' b'' r x) (h : Effects o b A b') (h' : Effects o b' C b'')
    (hinside : b''.Inside x.scope s) :
    s < b'.scopes.size ∧ (s < b.scopes.size → s ∈ b.stack) := by
  obtain ⟨B, D, c, hB, hD, hiff⟩ := hmade.exists_between h h'
  have hs := (hiff s).mp hinside
  have hlt := hD.start.wellFormed.layout.stack_lt hs
  exact ⟨Nat.lt_of_lt_of_le hlt hD.size_le, fun hlt => hB.mem_of_mem_stack hlt hs⟩

end

/-- What is declared at a scope is a definition of its name there. -/
theorem Effects.bindsBy_of_declared (h : Effects o {} A b) {c : Builder} {d : Definition}
    (hd : (c, d) ∈ declarations o {} A) (hs : c.sites.head? = some s) : b.BindsBy s d := by
  have hmem := mem_definitionsIn.mpr ⟨c, hd, hs, rfl⟩
  have hrecords := h.records .empty
  rw [List.nil_append] at hrecords
  cases hv : b.variableIn? d.name.name s with
  | none =>
    rw [hrecords.unbound hv] at hmem
    cases hmem
  | some v =>
    obtain ⟨x, hx, hdefs, -⟩ := hrecords.bound hv
    exact ⟨v, x, hv, hx, Array.mem_toList_iff.mp (hdefs ▸ hmem)⟩

/-- What is declared in a scope right after it has been opened is a definition of its name there. -/
theorem Effects.bindsBy {kind : ScopeKind} {block : Anchor} {strict : Bool}
    {D : List Action} (hb : Effects o {} C b)
    (hD : ∀ a ∈ D, a.isPlain = true ∨ ∃ d, a = .declare d)
    (h : Effects o b (Action.scope kind block strict D) b') (h' : Effects o b' A b'')
    {d : Definition} (hd : .declare d ∈ D) : b''.BindsBy b.scopes.size d := by
  have hscope : .declare d ∈ Action.scope kind block strict D := by simp [hd]
  obtain ⟨D₁, D₂, hsplit⟩ := List.append_of_mem hscope
  obtain ⟨c, hdeclared⟩ : ∃ c, (c, d) ∈ declarations o b (Action.scope kind block strict D) := by
    rw [hsplit] at h ⊢
    obtain ⟨c, hD₁, hD₂⟩ := h.exists_of_append
    exact ⟨c, mem_declarations_of_append hD₁ hD₂⟩
  refine (hb.append (h.append h')).bindsBy_of_declared (c := c) ?_
    (sites_of_scope hD h _ hdeclared)
  rw [hb.declarations_append, h.declarations_append]
  exact List.mem_append_right _ (List.mem_append_left _ hdeclared)

end Builder

/-! ## The references to the identifiers of a part -/

/-- A reference stands for a variable of a scope around it. -/
theorem Program.inside_of_resolved {o : Options} {p : Program} {a : Analysis}
    (hids : (Tree.ids p).Nodup) (h : Program.analyze o p = .ok a) {r v : Nat} {x : Reference}
    {z : Variable} (hx : a.references[r]? = some x) (hv : x.resolved = some v)
    (hz : a.vars[v]? = some z) : a.Inside x.scope z.scope := by
  obtain ⟨b, rfl, hb⟩ := Program.exists_finished h
  obtain ⟨z', hz', -, hinside, -⟩ :=
    (hb.journeys hids r x hx).exists_variable hb.wellFormed hb.stack hv
  cases hz.symm.trans hz'
  exact hinside

/-- What is used by pieces is one of their nodes. -/
private theorem mem_marks_of_mem_ledger {o : Options} {P : List Piece} {e : Identifier × String}
    (he : e ∈ (ledger o P).1) : e.1.mark.id ∈ (P.flatMap Piece.marks).map (·.id) := by
  rw [ledger_fst, Multiset.mem_coe] at he
  obtain ⟨⟨i, role⟩, hoccurs, he⟩ := List.mem_flatMap.mp he
  obtain ⟨u, hu, hi⟩ := List.mem_flatMap.mp hoccurs
  obtain ⟨flag, -, rfl⟩ := List.mem_map.mp he
  have hmark : i.mark ∈ u.marks := u.occurrences_sublist.subset (List.mem_map_of_mem hi)
  exact List.mem_map_of_mem (List.mem_flatMap_of_mem hu hmark)

/-- The nodes of the pieces of a tree are those of the tree. -/
theorem Tree.perm_ids {c : Category} (o : Options) (role : Role) (t : Tree c) :
    (((t.pieces o role).flatMap Piece.marks).map (·.id)).Perm t.ids :=
  (t.accounts o role).perm.map _

/-- The nodes of a construct of a program are different ones. -/
theorem Program.nodup_ids_of_infix {o : Options} {p : Program} {c : Category} {t : Tree c}
    {role : Role} (hids : (Tree.ids p).Nodup) (ht : t.pieces o role <:+: Program.pieces o p) :
    t.ids.Nodup := by
  obtain ⟨P, R, hsplit⟩ := ht
  have hnodup := (Tree.perm_ids o .code p).nodup_iff.mpr hids
  change (((Program.pieces o p).flatMap _).map _).Nodup at hnodup
  rw [← hsplit, List.flatMap_append, List.flatMap_append, List.map_append, List.map_append]
    at hnodup
  exact (t.perm_ids o role).nodup_iff.mp (List.nodup_append.mp (List.nodup_append.mp hnodup).1).2.1

/-- Some of the pieces of a program have no nodes in common with the others. -/
theorem Program.disjoint_marks {o : Options} {p : Program} (hids : (Tree.ids p).Nodup)
    {P Q R : List Piece} (hpieces : Program.pieces o p = P ++ Q ++ R) :
    (((P ++ R).flatMap Piece.marks).map (·.id)).Disjoint
      ((Q.flatMap Piece.marks).map (·.id)) := by
  have hnodup := (Tree.perm_ids o .code p).nodup_iff.mpr hids
  change (((Program.pieces o p).flatMap _).map _).Nodup at hnodup
  rw [hpieces, List.append_assoc] at hnodup
  have hswap : (P ++ (Q ++ R)).Perm (P ++ R ++ Q) := by
    rw [List.append_assoc]
    exact List.perm_append_comm.append_left P
  rw [((hswap.flatMap_right Piece.marks).map (·.id)).nodup_iff, List.flatMap_append,
    List.map_append] at hnodup
  exact List.disjoint_of_nodup_append hnodup

/-- The references to the identifiers of some of the pieces of a program are those that are made by
the actions that have the uses of these pieces. -/
theorem Program.mem_marks_iff_made {o : Options} {p : Program} {b b' b'' : Builder}
    (hids : (Tree.ids p).Nodup) (h : Program.analyze o p = .ok b''.toAnalysis)
    {P Q R : List Piece} (hpieces : Program.pieces o p = P ++ Q ++ R) {W C : List Action}
    (huses : ↑(W.flatMap Action.uses) = (ledger o Q).1) (hW : Builder.Effects o b W b')
    (hC : Builder.Effects o b' C b'') {r : Nat} {x : Reference}
    (hx : b''.references[r]? = some x) :
    x.identifier.mark.id ∈ (Q.flatMap Piece.marks).map (·.id) ↔ Builder.Made b b' b'' r x := by
  have hsize (c : Builder) : c.uses.length = c.references.size := by simp [Analysis.uses]
  have hlist : b''.uses = b.uses ++ W.flatMap Action.uses ++ C.flatMap Action.uses := by
    rw [hC.uses, hW.uses]
  have hrest : (↑(b.uses ++ C.flatMap Action.uses) : Multiset _) = (ledger o (P ++ R)).1 := by
    have hall := Multiset.coe_eq_coe.mpr (Program.uses_perm h)
    rw [Program.occurrences, ← ledger_fst, hpieces, hlist, ledger_append, ledger_append,
      Prod.fst_add, Prod.fst_add, ← huses, ← Multiset.coe_add, ← Multiset.coe_add,
      add_right_comm, add_right_comm _ _ (ledger o R).1] at hall
    rw [← Multiset.coe_add, add_right_cancel hall, ledger_append, Prod.fst_add]
  have huse : b''.uses[r]? = some (x.identifier, x.use.flag) := by
    simp [Analysis.uses, hx]
  have hmiddle : b'.references.size = b.uses.length + (W.flatMap Action.uses).length := by
    rw [← hsize, hW.uses, List.length_append]
  constructor
  · intro hmem
    by_contra hout
    have hmade : ¬ (b.references.size ≤ r ∧ r < b'.references.size) := fun hr =>
      hout ⟨hr.1, hr.2, hx⟩
    refine Program.disjoint_marks hids hpieces
      (mem_marks_of_mem_ledger (o := o) (e := (x.identifier, x.use.flag)) ?_) hmem
    rw [← hrest, Multiset.mem_coe, List.mem_append]
    rw [hlist] at huse
    by_cases hlt : r < b.uses.length
    · rw [List.append_assoc, List.getElem?_append_left hlt] at huse
      exact .inl (List.mem_of_getElem? huse)
    · rw [List.getElem?_append_right] at huse
      · exact .inr (List.mem_of_getElem? huse)
      · rw [← hsize] at hmade
        rw [List.length_append]
        omega
  · rintro ⟨hle, hlt, -⟩
    refine mem_marks_of_mem_ledger (o := o) (e := (x.identifier, x.use.flag)) ?_
    rw [← huses, Multiset.mem_coe]
    rw [hlist, List.getElem?_append_left (by rw [List.length_append]; omega),
      List.getElem?_append_right (by rw [hsize]; exact hle)] at huse
    exact List.mem_of_getElem? huse

/-- The references to the identifiers of a part that is walked while a scope is open lie inside the
scope. -/
theorem Program.inside_of_mem_marks {o : Options} {p : Program} {b₀ b₁ b₂ b₃ b : Builder}
    (hids : (Tree.ids p).Nodup) (h : Program.analyze o p = .ok b.toAnalysis) {kind : ScopeKind}
    {block : Anchor} {strict : Bool} {H W Z : List Action}
    (hopen : Builder.Effects o b₀ [.openScope kind block strict] b₁)
    (hH : Builder.Effects o b₁ H b₂) (hW : Builder.Effects o b₂ W b₃)
    (hZ : Builder.Effects o b₃ Z b) (hcloseH : .closeScopes block.id ∉ H)
    (hcloseW : .closeScopes block.id ∉ W) {Q : List Piece} (hQ : Q <:+: Program.pieces o p)
    (huses : ↑(W.flatMap Action.uses) = (ledger o Q).1) {r : Nat} {x : Reference}
    (hx : b.references[r]? = some x)
    (hmem : x.identifier.mark.id ∈ (Q.flatMap Piece.marks).map (·.id)) :
    b.Inside x.scope b₀.scopes.size := by
  obtain ⟨P, R, hparts⟩ := hQ
  have hmade := (Program.mem_marks_iff_made hids h hparts.symm huses hW hZ hx).mp hmem
  have hlt := Nat.lt_of_lt_of_le hopen.lt_of_opened hH.size_le
  refine hmade.inside hW hZ hlt (hopen.mem_of_opened (hH.append hW) fun hclose => ?_)
  exact (List.mem_append.mp hclose).elim hcloseH hcloseW

/-- A scope that one construct opens for a name and closes at its end: the references inside it are
those to the identifiers of the parts that are walked in between. -/
theorem Program.exists_region {o : Options} {p : Program} {a : Analysis}
    (hids : (Tree.ids p).Nodup) (h : Program.analyze o p = .ok a) {B V : List Action}
    {d : Definition} {kind : ScopeKind} {block : Anchor} {strict sited : Bool} {M : List Mark}
    (hactions : B ++ Action.scope kind block strict [.declare d] ++ V ++
      [Action.closeScopes block.id] <:+: Program.actions o p)
    (henclosed : Action.Enclosed none sited M
      (B ++ Action.scope kind block strict [.declare d] ++ V ++ [Action.closeScopes block.id]))
    (hclose : .closeScopes block.id ∉ V) {Q : List Piece} (hpieces : Q <:+: Program.pieces o p)
    (huses : ↑(V.flatMap Action.uses) = (ledger o Q).1) :
    ∃ s, a.Opens s kind block ∧ a.BindsBy s d ∧
      ∀ (r : Nat) (x : Reference), a.references[r]? = some x →
        (a.Inside x.scope s ↔ x.identifier.mark.id ∈ (Q.flatMap Piece.marks).map (·.id)) := by
  obtain ⟨b, rfl, heffects⟩ := Program.exists_effects h
  obtain ⟨A, C, hsplit⟩ := hactions
  rw [← hsplit] at heffects
  obtain ⟨b₅, hstart, hC⟩ := heffects.exists_of_append
  obtain ⟨b₀, hA, hall⟩ := hstart.exists_of_append
  obtain ⟨b₄, hmost, hlast⟩ := hall.exists_of_append
  obtain ⟨b₃, hhead, hV⟩ := hmost.exists_of_append
  obtain ⟨b₁, hB, hscope⟩ := hhead.exists_of_append
  obtain ⟨b₂, hopen, hsite⟩ := hscope.exists_of_append
  have hrest := hV.append (hlast.append hC)
  refine ⟨b₁.scopes.size, (hsite.append hrest).opens hsite.start.wellFormed hopen.opened.1,
    (hA.append hB).bindsBy (by simp) hscope hrest List.mem_cons_self, fun r x hx => ?_⟩
  constructor
  · intro hinside
    have hbefore : b₃.references.size = b₁.references.size := hscope.references_size rfl
    have hafter : b₅.references.size = b₄.references.size := hlast.references_size rfl
    obtain ⟨P, R, hparts⟩ := hpieces
    rw [Program.mem_marks_iff_made hids h hparts.symm huses hV (hlast.append hC) hx]
    by_contra hout
    by_cases hr : r < b₁.references.size
    · have hmade : Builder.Made {} b₁ b r x := ⟨Nat.zero_le r, hr, hx⟩
      exact Nat.lt_irrefl _ (hmade.of_inside (hA.append hB) (hscope.append hrest) hinside).1
    · have hr' : b₅.references.size ≤ r := by
        by_contra hr'
        exact hout ⟨by omega, by omega, hx⟩
      have hmade : Builder.Made b₅ b b r x := ⟨hr', (Array.getElem?_eq_some_iff.mp hx).1, hx⟩
      have hopen₅ := (hmade.of_inside hC (.nil hC.sound) hinside).2
        (Nat.lt_of_lt_of_le hopen.lt_of_opened (hsite.append (hV.append hlast)).size_le)
      have hopen₀ := (hall.suffix henclosed).subset hopen₅
      exact Nat.lt_irrefl _
        (Nat.lt_of_lt_of_le (hall.start.wellFormed.layout.stack_lt hopen₀) hB.size_le)
  · exact Program.inside_of_mem_marks hids h hopen hsite hV (hlast.append hC) (by simp) hclose
      hpieces huses hx

end EcmaScope
