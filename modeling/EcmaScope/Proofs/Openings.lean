import EcmaScope.Proofs.Lasting
import EcmaScope.Proofs.ScopeTree
import EcmaScope.Proofs.Walks

/-!
# Which scopes there are

The scopes of an analysis are those that the pieces of the program open, one for each: the roles of
the pieces decide whether a block or a loop opens a scope, and nothing is opened in what is skipped.
No node opens two scopes of one kind. There is one global scope, which is the first. The scope of a
function expression's name lies right around that of the function, and it is opened right before it.

## Main definitions

* `Analysis.openings`: the kinds and the nodes of the scopes.
* `OneGlobal`: at most the first scope is a global one.

## Main results

* `Builder.Effects.openings`: the actions of a walk open their scopes, in order.
* `Program.nodup_openings`: no node opens two scopes of one kind.
* `Program.oneGlobal_actions`: a program opens one global scope, before all others.
* `Program.scopes_eq_openings`: the scopes are those of the pieces.
-/

namespace EcmaScope

/-- The kind and the number of the node of a scope. -/
def Scope.opening (y : Scope) : ScopeKind × Nat :=
  (y.kind, y.block.id)

/-- The kinds and the numbers of the nodes of the scopes, in the order in which these are opened. -/
def Analysis.openings (a : Analysis) : List (ScopeKind × Nat) :=
  a.scopes.toList.map Scope.opening

theorem Analysis.getElem?_openings (a : Analysis) (s : Nat) :
    a.openings[s]? = (a.scopes[s]?).map Scope.opening := by
  rw [openings, List.getElem?_map, Array.getElem?_toList]

private theorem Analysis.getElem?_openings_core (a : Analysis) (s : Nat) :
    a.openings[s]? = (a.core? s).map Scope.opening := by
  rw [a.getElem?_openings, core?, Option.map_map]
  rfl

namespace Builder

variable {b b' : Builder} {o : Options}

theorem Effect.openings {a : Action} (h : Effect o b a b') :
    b'.openings = b.openings ++ a.openings := by
  have hsize : b.openings.length = b.scopes.size := by simp [Analysis.openings]
  refine List.ext_getElem? fun s => ?_
  rw [Analysis.getElem?_openings_core]
  rcases h.core? with ⟨kind, block, strict, v, rfl, hcore⟩ | ⟨rfl, u, -, hcore⟩ | ⟨ha, -, hcore⟩
  · rw [hcore]
    by_cases hs : s = b.scopes.size
    · rw [if_pos hs, hs, ← hsize]
      exact List.getElem?_concat_length.symm
    · rw [if_neg hs, ← Analysis.getElem?_openings_core]
      by_cases hlt : s < b.scopes.size
      · rw [List.getElem?_append_left (by omega)]
      · rw [List.getElem?_eq_none (by omega), List.getElem?_eq_none]
        simp only [Action.openings, List.length_append, List.length_singleton]
        omega
  · change _ = (b.openings ++ [])[s]?
    rw [hcore, Option.map_map, List.append_nil, Analysis.getElem?_openings_core]
    rfl
  · rw [hcore, ha, List.append_nil, Analysis.getElem?_openings_core]

/-- The actions of a walk open their scopes, in order. -/
theorem Effects.openings {A : List Action} (h : Effects o b A b') :
    b'.openings = b.openings ++ A.flatMap Action.openings := by
  induction h with
  | nil => simp
  | cons _ _ h _ ih => rw [ih, h.openings, List.flatMap_cons, List.append_assoc]

end Builder

/-! ## The scopes of pieces -/

/-- The openings in the ledger of pieces are theirs. -/
theorem ledger_openings (o : Options) (P : List Piece) :
    (ledger o P).2.1 = ↑(P.flatMap (Piece.openings o)) := by
  induction P with
  | nil => rfl
  | cons u P ih =>
    rw [ledger_cons, Prod.snd_add, Prod.fst_add, ih, List.flatMap_cons, ← Multiset.coe_add]
    rfl

/-- If the nodes of a program are distinct, no node opens two scopes of one kind. -/
theorem Program.nodup_openings {p : Program} (o : Options) (hids : (Tree.ids p).Nodup) :
    ((Program.pieces o p).flatMap (Piece.openings o)).Nodup := by
  have haccounts : Accounts o .code (Program.pieces o p) p.marks := Tree.accounts o .code p
  have hcount (P : List Piece) {kind : ScopeKind} (hkind : kind ≠ .tdz) (n : Nat) :
      (P.flatMap (Piece.openings o)).count (kind, n) ≤
        ((P.flatMap Piece.marks).map (·.id)).count n := by
    induction P with
    | nil => exact Nat.le_refl _
    | cons u P ih =>
      rw [List.flatMap_cons, List.count_append, List.flatMap_cons, List.map_append,
        List.count_append]
      exact Nat.add_le_add (u.count_openings_le hkind n) ih
  rw [List.nodup_iff_count_le_one]
  rintro ⟨kind, n⟩
  have hone : (Tree.ids p).count n ≤ 1 := List.nodup_iff_count_le_one.mp hids n
  by_cases hkind : kind = .tdz
  · subst hkind
    exact Nat.le_trans (haccounts.tdz_le n) (Nat.le_trans (Accounts.count_tail_le _ n) hone)
  · refine Nat.le_trans (hcount _ hkind n) ?_
    rwa [(haccounts.perm.map (·.id)).count_eq]

/-! ## The global scope -/

/-- Trees of the category may have programs among their pieces. -/
def Category.holdsProgram : Category → Bool
  | .program => true
  | .list c | .optional c => c.holdsProgram
  | _ => false

/-- There are no programs among the pieces. -/
def WithoutProgram (P : List Piece) : Prop :=
  ∀ u ∈ P, u.category.holdsProgram = false

namespace WithoutProgram

variable {P Q : List Piece} {c : Category} {role : Role} {t : Tree c}

private theorem cons (hc : c.holdsProgram = false) (hP : WithoutProgram P) :
    WithoutProgram (⟨c, role, t⟩ :: P) :=
  List.forall_mem_cons.2 ⟨hc, hP⟩

private theorem append (hP : WithoutProgram P) (hQ : WithoutProgram Q) : WithoutProgram (P ++ Q) :=
  List.forall_mem_append.2 ⟨hP, hQ⟩

end WithoutProgram

/-- A program stands inside of nothing else. -/
theorem Tree.withoutProgram_pieces (o : Options) {c : Category} (t : Tree c) :
    c.holdsProgram = false → ∀ role, WithoutProgram (t.pieces o role) := by
  induction t with
  | program => exact nofun
  | cons head tail ihhead ihtail =>
    exact fun hc role => .cons hc (.append (ihhead hc _) (ihtail hc _))
  | present part ih => exact fun hc role => .cons hc (ih hc _)
  | _ =>
    intro hc role
    refine .cons hc ?_
    repeat' first
      | exact List.forall_mem_nil _
      | (apply_assumption; rfl)
      | apply WithoutProgram.append

private theorem Piece.global_notMem_openings {o : Options} (u : Piece)
    (hu : u.category.holdsProgram = false) (n : Nat) : (.global, n) ∉ u.openings o := by
  obtain ⟨c, role, t⟩ := u
  have ht : (ScopeKind.global, n) ∉ t.openings o role := by
    cases t with
    | program => cases hu
    | function | block | switchStatement | classNode | forStatement | catchClause | withStatement
    | iterationStatement =>
      unfold Tree.openings
      grind
    | _ => exact List.not_mem_nil
  cases role <;> first | exact ht | exact List.not_mem_nil

/-- At most the first of the scopes is a global one. -/
def OneGlobal (l : List (ScopeKind × Nat)) : Prop :=
  ∀ s n : Nat, l[s]? = some (.global, n) → s = 0

/-- A program opens its global scope, and nothing in it opens another one. -/
theorem Program.exists_openings (o : Options) : (p : Program) → ∃ l,
    (Program.pieces o p).flatMap (Piece.openings o) = (.global, (Program.mark p).id) :: l ∧
      ∀ n, (.global, n) ∉ l
  | .program m body => by
    refine ⟨(if o.nodejsScope then [(ScopeKind.function, m.id)] else []) ++
      (if o.isEs6 && o.isModule then [(ScopeKind.module, m.id)] else []) ++
      (body.pieces o .code).flatMap (Piece.openings o), rfl, fun n hn => ?_⟩
    rcases List.mem_append.1 hn with hprogram | hbody
    · rcases List.mem_append.1 hprogram with hfunction | hmodule
      · split at hfunction <;> simp at hfunction
      · split at hmodule <;> simp at hmodule
    · obtain ⟨u, hu, hglobal⟩ := List.mem_flatMap.1 hbody
      exact u.global_notMem_openings (body.withoutProgram_pieces o rfl .code u hu) n hglobal

/-- The actions of a program open one global scope, and that comes first. -/
theorem Program.oneGlobal_actions (o : Options) (p : Program) :
    OneGlobal ((Program.actions o p).flatMap Action.openings) := by
  obtain ⟨strict, -, L, A, hactions, -, ⟨M, -, hphrase⟩, hledger⟩ := Program.speaks o p
  obtain ⟨l, hl, hglobal⟩ := Program.exists_openings o p
  have hperm : ((.global, (Program.mark p).id) :: l).Perm
      ((.global, (Program.mark p).id) :: A.flatMap Action.openings) := by
    rw [← hl, ← Multiset.coe_eq_coe, ← ledger_openings, hledger, Prod.snd_add, Prod.fst_add,
      ← hphrase.openings]
    rfl
  intro s n hs
  cases s with
  | zero => rfl
  | succ s =>
    have hA : (.global, n) ∈ A.flatMap Action.openings := by
      rw [hactions] at hs
      simp only [List.flatMap_append, List.flatMap_singleton, Action.openings, List.append_nil,
        List.singleton_append] at hs
      exact List.mem_of_getElem? hs
    exact absurd (hperm.cons_inv.mem_iff.2 hA) (hglobal n)

/-! ## The scopes of an analysis -/

/-- The openings of an analysis are those of the actions of the program, in order. -/
theorem Program.openings_eq {o : Options} {p : Program} {a : Analysis}
    (h : Program.analyze o p = .ok a) :
    ∃ M L A, Phrase o (.code (some (Program.mark p).id)) M L A ∧
      a.openings = (.global, (Program.mark p).id) :: A.flatMap Action.openings ∧
      ledger o (Program.pieces o p) = .openings [(.global, (Program.mark p).id)] + L := by
  obtain ⟨b, rfl, heffects⟩ := Program.exists_effects h
  obtain ⟨strict, -, L, A, hactions, -, ⟨M, -, hphrase⟩, hledger⟩ := Program.speaks o p
  refine ⟨M, L, A, hphrase, ?_, hledger⟩
  rw [heffects.openings, hactions]
  simp [Analysis.openings, Action.openings, Anchor.id]

/-- Neighbours among the numbers up to `size` that a property picks are neighbours. -/
private theorem rel_of_isChain_filter_range {R : Nat → Nat → Prop} {p : Nat → Bool} {size s : Nat}
    (h : ((List.range size).filter p).IsChain R) (hlt : s + 1 < size) (hs : p s = true)
    (hnext : p (s + 1) = true) : R s (s + 1) := by
  obtain ⟨k, rfl⟩ : ∃ k, size = s + (2 + k) := ⟨size - (s + 2), by omega⟩
  rw [List.range_add, List.filter_append, List.range_add] at h
  have hpair : ((List.range 2).map (s + ·)).filter p = [s, s + 1] := by
    simp [List.range_succ, hs, hnext]
  rw [List.map_append, List.filter_append, hpair] at h
  exact (List.isChain_append_cons_cons.mp h).2.1

/-- The scopes of an analysis are those that the pieces of the program open, each one once, and the
scope of a function's name lies right around that of the function and comes right before it. -/
theorem Program.scopes_eq_openings {o : Options} {p : Program} {a : Analysis}
    (hids : (Tree.ids p).Nodup) (h : Program.analyze o p = .ok a) :
    (a.scopes.toList.map fun y => (y.kind, y.block.id)).Perm
        ((Program.pieces o p).flatMap (Piece.openings o)) ∧
      (a.scopes.toList.map fun y => (y.kind, y.block.id)).Nodup ∧
      ∀ (s : Nat) (y : Scope), a.scopes[s]? = some y → y.kind = .functionName →
        ∃ z, a.scopes[s + 1]? = some z ∧ z.kind = .function ∧ z.block.id = y.block.id ∧
          z.upper? = some s := by
  obtain ⟨M, L, A, hphrase, hopenings, hledger⟩ := Program.openings_eq h
  have hperm : a.openings.Perm ((Program.pieces o p).flatMap (Piece.openings o)) := by
    rw [← Multiset.coe_eq_coe, hopenings, ← ledger_openings, hledger, Prod.snd_add, Prod.fst_add,
      ← hphrase.openings]
    rfl
  refine ⟨hperm, hperm.nodup_iff.mpr (Program.nodup_openings o hids), ?_⟩
  intro s y hy hkind
  have hfollowed : Phrase.Followed a.openings := by
    rw [hopenings]
    exact (Phrase.Followed.single _ (by decide)).append hphrase.followed
  have hnext := hfollowed s y.block.id (by rw [a.getElem?_openings, hy, ← hkind]; rfl)
  rw [a.getElem?_openings] at hnext
  obtain ⟨z, hz, hopening⟩ := Option.map_eq_some_iff.mp hnext
  obtain ⟨hzkind, hzblock⟩ := Prod.mk.inj hopening
  refine ⟨z, hz, hzkind, hzblock, ?_⟩
  -- both scopes belong to one node, so they are neighbours in the chain of its scopes
  obtain ⟨b, rfl, hfinished⟩ := Program.exists_finished h
  have hlayout := hfinished.wellFormed.layout
  have hmoves := hfinished.moves.mono fun _ : True => hids
  have hchain := (hmoves.family .empty .empty).chain y.block.id
  rw [hlayout.owned_eq] at hchain
  have hf := Analysis.frame?_of_getElem? hy
  have hg := Analysis.frame?_of_getElem? hz
  have hupper := rel_of_isChain_filter_range hchain (hlayout.lt_size hg)
    (by rw [hf]; exact decide_eq_true rfl) (by rw [hg]; exact decide_eq_true hzblock)
  rwa [Analysis.upper?_of_frame hg] at hupper

/-- In a loop over the value of a function expression, the value has three scopes: one for the name
of the loop that is not initialized, one for the name of the function, and that of the function. -/
theorem Program.scopes_eq_openings_loop : (Tree.ids (Program.loopOverFunction id)).Nodup ∧
    ∃ a, Program.analyze .es6 (.loopOverFunction id) = .ok a ∧
      (a.scopes.toList.map fun y => (y.kind, y.block.id)).Perm
        [(.global, 0), (.tdz, 5), (.loop, 1), (.functionName, 5), (.function, 5)] ∧
      (a.scopes.toList.map fun y => (y.kind, y.block.id)).Nodup := by
  have hids : (Tree.ids (Program.loopOverFunction id)).Nodup := by decide
  have hok : (Program.analyze .es6 (.loopOverFunction id)).isOk = true := by decide +kernel
  have hopenings : (Program.pieces .es6 (.loopOverFunction id)).flatMap (Piece.openings .es6) =
    [(.global, 0), (.tdz, 5), (.loop, 1), (.functionName, 5), (.function, 5)] := by decide +kernel
  cases h : Program.analyze .es6 (.loopOverFunction id) with
  | error e =>
    rw [h] at hok
    cases hok
  | ok a =>
    obtain ⟨hperm, hnodup, -⟩ := Program.scopes_eq_openings hids h
    exact ⟨hids, a, rfl, hopenings ▸ hperm, hnodup⟩

end EcmaScope
