import EcmaScope.Proofs.Arrangement
import EcmaScope.Proofs.Housing
import EcmaScope.Proofs.Through

/-!
# The scope around the scopes of a node

The scopes of a node lie one inside the other. What is around the first of them is looked for in two
steps: the scope right around it leads to a node, and the scope of that node is the answer. If the
node has several scopes, this may be another one than the scope that has led to it.

It is still a scope around those of the first node, unless the scope that has led to the second node
reserves names. In all other cases the second node has opened its scopes one right after the other,
and it closes them together; so whatever is opened by other nodes right inside one of them is opened
inside the last one.

## Main definitions

* `Analysis.Adjoins`, `Builder.Compact`: scopes of one node that lie directly in each other.
* `Analysis.upperOf?`: the scope right around the scopes of a node.
* `Analysis.Ordered`: what is known of the order of scopes that belong to one node.
* `Analysis.InReserved`: the exception.

## Main results

* `Builder.Effects.compact`: nothing is opened any more around the last open scope of a node.
* `Analysis.Ordered.exists_append`: scopes of other nodes lie in the last scope of a node.
* `Program.scopeAround_encloses_iff`: where the scope that is found encloses the scopes of a node.
-/

namespace EcmaScope

/-! ## Scopes of one node that lie directly in each other -/

/-- The scope `t` lies directly in the scope `u` of the same node. -/
def Analysis.Adjoins (a : Analysis) (t u : Nat) : Prop :=
  a.upper? t = some u ∧ ∃ n, t ∈ a.scopesOf n ∧ u ∈ a.scopesOf n

theorem Analysis.lt_size_of_upper? {a : Analysis} {t u : Nat} (h : a.upper? t = some u) :
    t < a.scopes.size := by
  obtain ⟨y, hy, -⟩ := Option.bind_eq_some_iff.mp h
  exact (Array.getElem?_eq_some_iff.mp hy).1

/-- Of two neighbours in a list, the first one is not dropped alone. -/
private theorem mem_dropWhile_of_next {p : Nat → Bool} {l l' : List Nat} {t u : Nat}
    (hnodup : (l ++ t :: u :: l').Nodup) (hp : p t = true → p u = true)
    (hu : u ∈ (l ++ t :: u :: l').dropWhile p) : t ∈ (l ++ t :: u :: l').dropWhile p := by
  induction l with
  | nil =>
    rw [List.nil_append] at hu hnodup ⊢
    by_cases ht : p t = true
    · rw [List.dropWhile_cons_of_pos ht, List.dropWhile_cons_of_pos (hp ht)] at hu
      have hmem : u ∈ l' := (List.dropWhile_sublist p).subset hu
      exact absurd hmem (List.nodup_cons.mp hnodup.of_cons).1
    · rw [List.dropWhile_cons_of_neg ht]
      exact List.mem_cons_self
  | cons s l ih =>
    rw [List.cons_append] at hu hnodup ⊢
    by_cases hs : p s = true
    · rw [List.dropWhile_cons_of_pos hs] at hu ⊢
      exact ih hnodup.of_cons hu
    · rw [List.dropWhile_cons_of_neg hs]
      simp

namespace Builder

variable {b b' : Builder} {o : Options}

/-- A scope that lies directly in another scope of its node is open as long as that one. So no other
scope is opened there later. -/
structure Compact (b : Builder) : Prop where
  mem_stack : ∀ {t u}, b.Adjoins t u → u ∈ b.stack → t ∈ b.stack
  le_of_upper? : ∀ {t u w}, b.Adjoins t u → b.upper? w = some u → w ≤ t

/-- A scope that was there keeps the scope around it. -/
theorem Effects.upper?_eq {A : List Action} (h : Effects o b A b') {t : Nat}
    (ht : t < b.scopes.size) : b'.upper? t = b.upper? t := by
  have hy : b.scopes[t]? = some b.scopes[t] := Array.getElem?_eq_getElem ht
  obtain ⟨y', hy', -, -, henclosing, -⟩ := h.exists_scope h.start.wellFormed hy
  rw [Analysis.upper?, Analysis.upper?, hy, hy', Option.bind_some, Option.bind_some, Scope.upper?,
    Scope.upper?, henclosing]

/-- Only the new scope has been added. -/
theorem Effects.upper?_of_ne {A : List Action} (h : Effects o b A b')
    (hsize : b'.scopes.size = b.scopes.size + 1) {t u : Nat} (hupper : b'.upper? t = some u)
    (ht : t ≠ b.scopes.size) : b.upper? t = some u := by
  have hlt := Analysis.lt_size_of_upper? hupper
  rwa [← h.upper?_eq (by omega)]

/-- A scope that was there lies directly in a scope of the same node if it did so before. -/
theorem Effects.adjoins_of_ne {A : List Action} {block : Anchor} (h : Effects o b A b')
    (hsize : b'.scopes.size = b.scopes.size + 1)
    (hscopes : ∀ n, b'.scopesOf n = b.scopesOf n ++ if block.id = n then [b.scopes.size] else [])
    {t u : Nat} (hadjoins : b'.Adjoins t u) (ht : t ≠ b.scopes.size) : b.Adjoins t u := by
  obtain ⟨hupper, n, htn, hun⟩ := hadjoins
  have hupper := h.upper?_of_ne hsize hupper ht
  have hlt := Analysis.lt_size_of_upper? hupper
  have hut := Analysis.lt_of_upper? h.start.wellFormed.layout hupper
  have hmem {s : Nat} (hs : s < b.scopes.size) (hsn : s ∈ b'.scopesOf n) : s ∈ b.scopesOf n := by
    rw [hscopes] at hsn
    rcases List.mem_append.mp hsn with hsn | hsn
    · exact hsn
    · split at hsn
      · exact absurd (List.mem_singleton.mp hsn) (Nat.ne_of_lt hs)
      · cases hsn
  exact ⟨hupper, n, hmem hlt htn, hmem (Nat.lt_trans hut hlt) hun⟩

/-- Closing all open scopes of a node closes none of two that lie directly in each other alone. -/
theorem WellFormed.mem_dropWhile (hb : WellFormed b) {t u : Nat} (h : b.Adjoins t u) (n : Nat)
    (ht : t ∈ b.stack) (hu : u ∈ b.stack.dropWhile (· ∈ b.scopesOf n)) :
    t ∈ b.stack.dropWhile (· ∈ b.scopesOf n) := by
  have hnodup := hb.layout.nodup_of_chained hb.layout.chained_stack
  obtain ⟨hupper, m, htm, hum⟩ := h
  obtain ⟨f, l, hf, hstack⟩ := hb.layout.chained_stack.exists_frame ht
  rw [Analysis.upper?_of_frame hf] at hupper
  obtain ⟨l', hl'⟩ := List.head?_eq_some_iff.mp hupper
  rw [hl'] at hstack
  rw [hstack] at hnodup hu ⊢
  refine mem_dropWhile_of_next hnodup (fun htn => decide_eq_true ?_) hu
  obtain ⟨f₁, hf₁, rfl⟩ := (mem_scopesOf_iff hb t m).mp htm
  obtain ⟨f₂, hf₂, rfl⟩ := (mem_scopesOf_iff hb t n).mp (of_decide_eq_true htn)
  cases hf₁.symm.trans hf₂
  exact hum

namespace Compact

private theorem empty : Compact {} where
  mem_stack h := by simp [Analysis.Adjoins, Analysis.upper?] at h
  le_of_upper? h := by simp [Analysis.Adjoins, Analysis.upper?] at h

/-- As long as no scope is opened, only what happens to the stack counts. -/
private theorem of_stack (hb : Compact b) (hscopes : b'.scopesOf = b.scopesOf)
    (hupper : b'.upper? = b.upper?) (hsubset : b'.stack ⊆ b.stack)
    (hstack : ∀ {t u}, b.Adjoins t u → t ∈ b.stack → u ∈ b'.stack → t ∈ b'.stack) :
    Compact b' := by
  have hadjoins {t u : Nat} (h : b'.Adjoins t u) : b.Adjoins t u := by
    rwa [Analysis.Adjoins, hupper, hscopes] at h
  constructor
  · intro t u h hu
    exact hstack (hadjoins h) (hb.mem_stack (hadjoins h) (hsubset hu)) hu
  · intro t u w h hw
    rw [hupper] at hw
    exact hb.le_of_upper? (hadjoins h) hw

/-- A new scope lies in the innermost open one, which has no scope of its node inside it. -/
private theorem openScope {kind : ScopeKind} {block : Anchor} {strict : Bool} (hb : Compact b)
    (h : Effects o b [.openScope kind block strict] b') (hsize : b'.scopes.size = b.scopes.size + 1)
    (hscopes : ∀ n, b'.scopesOf n = b.scopesOf n ++ if block.id = n then [b.scopes.size] else []) :
    Compact b' := by
  have hlayout := h.start.wellFormed.layout
  obtain ⟨-, hnew, hstack⟩ := h.opened
  constructor
  · intro t u hadjoins hu
    rw [hstack] at hu ⊢
    by_cases ht : t = b.scopes.size
    · rw [ht]
      exact List.mem_cons_self
    · have hadjoins := h.adjoins_of_ne hsize hscopes hadjoins ht
      have hut := Analysis.lt_of_upper? hlayout hadjoins.1
      have hlt := Analysis.lt_size_of_upper? hadjoins.1
      have hu := (List.mem_cons.mp hu).resolve_left (by omega)
      exact List.mem_cons_of_mem _ (hb.mem_stack hadjoins hu)
  · intro t u w hadjoins hw
    by_cases ht : t = b.scopes.size
    · have := Analysis.lt_size_of_upper? hw
      omega
    · have hadjoins := h.adjoins_of_ne hsize hscopes hadjoins ht
      by_cases hnewest : w = b.scopes.size
      · rw [hnewest, hnew] at hw
        obtain ⟨rest, hrest⟩ := List.head?_eq_some_iff.mp hw
        have ht := hb.mem_stack hadjoins (List.mem_of_head? hw)
        have hut := Analysis.lt_of_upper? hlayout hadjoins.1
        have hpairwise := hlayout.pairwise_of_chained hlayout.chained_stack
        rw [hrest] at ht hpairwise
        rcases List.mem_cons.mp ht with rfl | ht
        · exact absurd hut (Nat.lt_irrefl _)
        · exact absurd (List.rel_of_pairwise_cons hpairwise ht) (Nat.lt_asymm hut)
      · exact hb.le_of_upper? hadjoins (h.upper?_of_ne hsize hw hnewest)

private theorem step {a : Action} (hb : Compact b) (h : Effects o b [a] b') : Compact b' := by
  have hwell := h.start.wellFormed
  have hstep := (h.ran hwell).outline.step
  have hupper (hsize : b'.scopes.size = b.scopes.size) : b'.upper? = b.upper? := by
    funext t
    by_cases ht : t < b.scopes.size
    · exact h.upper?_eq ht
    · rw [Analysis.upper?, Analysis.upper?, Array.getElem?_eq_none (by omega),
        Array.getElem?_eq_none (by omega)]
  obtain ⟨w, hw⟩ : ∃ w, b'.outline = w := ⟨_, rfl⟩
  have hsize : b'.scopes.size = w.size := congrArg Outline.size hw
  have hstack : b'.stack = w.stack := congrArg Outline.stack hw
  have hscopes : b'.scopesOf = w.scopesOf := congrArg Outline.scopesOf hw
  rw [hw] at hstep
  cases hstep with
  | openScope => exact hb.openScope h hsize (congrFun hscopes)
  | closeScopes n =>
    have hstack : b'.stack = b.stack.dropWhile (· ∈ b.scopesOf n) := hstack
    refine hb.of_stack hscopes (hupper hsize) ?_ fun hadjoins ht hu => ?_
    · rw [hstack]
      exact List.dropWhile_subset _
    · rw [hstack] at hu ⊢
      exact hwell.mem_dropWhile hadjoins n ht hu
  | beginSite | endSite | declare | plain =>
    have hstack : b'.stack = b.stack := hstack
    exact hb.of_stack hscopes (hupper hsize) (hstack ▸ List.Subset.refl _) fun _ ht _ => hstack ▸ ht

end Compact

theorem Effects.compact {A : List Action} (h : Effects o b A b') (hb : Compact b) :
    Compact b' := by
  induction h with
  | nil => exact hb
  | cons hsound hstep heffect hA ih =>
    exact ih (hb.step (.cons hsound hstep heffect (.nil hA.start)))

end Builder

/-! ## The scopes of a node -/

namespace Analysis

variable {a : Analysis} {n s t u : Nat}

theorem IsTree.lt_of_upper? (ha : a.IsTree) (h : a.upper? t = some u) : u < t := by
  rcases Nat.eq_zero_or_pos t with rfl | hpos
  · rw [ha.upper?_zero] at h
    cases h
  · obtain ⟨u', hu', hlt⟩ := ha.upper?_lt t hpos (lt_size_of_upper? h)
    cases h.symm.trans hu'
    exact hlt

theorem IsTree.le_of_inside (ha : a.IsTree) (h : a.Inside t s) : s ≤ t := by
  induction h with
  | refl => exact Nat.le_refl t
  | tail _ hu ih => exact Nat.le_trans (Nat.le_of_lt (ha.lt_of_upper? hu)) ih

theorem IsTree.mem_scopesOf_iff (ha : a.IsTree) :
    t ∈ a.scopesOf n ↔ ∃ k, a.openings[t]? = some (k, n) := by
  rw [ha.scopesOf_eq, List.mem_filter, List.mem_range, Option.any_eq_true, a.getElem?_openings]
  constructor
  · rintro ⟨-, y, hy, hn⟩
    rw [hy, ← of_decide_eq_true hn]
    exact ⟨y.kind, rfl⟩
  · rintro ⟨k, hk⟩
    obtain ⟨y, hy, hk⟩ := Option.map_eq_some_iff.mp hk
    exact ⟨(Array.getElem?_eq_some_iff.mp hy).1, y, hy, decide_eq_true (congrArg Prod.snd hk)⟩

/-- The scopes of a node are in the order of their numbers, and each one lies within those before
it. -/
theorem IsTree.pairwise_scopesOf (ha : a.IsTree) (n : Nat) :
    (a.scopesOf n).Pairwise fun s t => s < t ∧ a.Within t s := by
  have hlt : (a.scopesOf n).Pairwise (· < ·) := by
    rw [ha.scopesOf_eq]
    exact List.pairwise_lt_range.filter _
  have htrans : IsTrans Nat fun s t => a.Within t s := ⟨fun _ _ _ h h' => h'.trans h⟩
  exact hlt.and (((ha.scopesOf_chain n).imp fun _ _ h => .single h).pairwise)

/-- Of two scopes of a node, the one that has been opened later lies inside the other one. -/
theorem IsTree.inside_of_le (ha : a.IsTree) (hs : s ∈ a.scopesOf n)
    (ht : t ∈ a.scopesOf n) (hle : s ≤ t) : a.Inside t s := by
  rcases Nat.eq_or_lt_of_le hle with rfl | hlt
  · exact .refl
  have hpairwise : (a.scopesOf n).Pairwise fun s t =>
      (s < t → a.Within t s) ∧ (t < s → a.Within s t) :=
    (ha.pairwise_scopesOf n).imp fun h => ⟨fun _ => h.2, fun hgt => absurd h.1 (Nat.lt_asymm hgt)⟩
  have hsymm : Std.Symm fun s t => (s < t → a.Within t s) ∧ (t < s → a.Within s t) :=
    ⟨fun _ _ h => h.symm⟩
  exact ((hpairwise.forall hs ht (Nat.ne_of_lt hlt)).1 hlt).to_reflTransGen

/-- The scope right around the scopes of a node. -/
def upperOf? (a : Analysis) (n : Nat) : Option Nat :=
  (a.scopesOf n).head?.bind a.upper?

private theorem scopeAround?_eq (a : Analysis) (n : Nat) (inner : Bool) :
    a.scopeAround? n inner = (a.upperOf? n).bind fun u =>
      (a.scopes[u]?).bind fun y => a.scopeOf? y.block.id inner := by
  unfold scopeAround? upperOf? upper?
  cases (a.scopesOf n).head? with
  | none => rfl
  | some first => cases h : a.scopes[first]? <;> simp [h]

private theorem IsTree.upperOf?_eq_none_iff (ha : a.IsTree) :
    a.upperOf? n = none ↔ a.scopesOf n = [] ∨ 0 ∈ a.scopesOf n := by
  unfold upperOf?
  cases hscopes : a.scopesOf n with
  | nil => simp
  | cons first rest =>
    have hfirst : first ∈ a.scopesOf n := by
      rw [hscopes]
      exact List.mem_cons_self
    have hpairwise := ha.pairwise_scopesOf n
    rw [hscopes] at hpairwise
    constructor
    · intro hnone
      rcases Nat.eq_zero_or_pos first with rfl | hpos
      · exact Or.inr List.mem_cons_self
      · rw [ha.scopesOf_eq] at hfirst
        have hlt := List.mem_range.mp (List.mem_filter.mp hfirst).1
        obtain ⟨u, hu, -⟩ := ha.upper?_lt first hpos hlt
        cases hnone.symm.trans hu
    · rintro (hnil | hzero)
      · cases hnil
      · rcases List.mem_cons.mp hzero with rfl | hzero
        · exact ha.upper?_zero
        · exact absurd (List.rel_of_pairwise_cons hpairwise hzero).1 (Nat.not_lt_zero first)

/-- All scopes of a node lie within what is around the first one. -/
theorem IsTree.forall_within_iff (ha : a.IsTree) (hu : a.upperOf? n = some u) :
    (∀ t ∈ a.scopesOf n, a.Within t s) ↔ a.Inside u s := by
  obtain ⟨first, hfirst, hupper⟩ := Option.bind_eq_some_iff.mp hu
  obtain ⟨rest, hrest⟩ := List.head?_eq_some_iff.mp hfirst
  have hpairwise := ha.pairwise_scopesOf n
  rw [hrest] at hpairwise ⊢
  constructor
  · intro hall
    obtain ⟨u', hu', hinside⟩ := Relation.TransGen.head'_iff.mp (hall first List.mem_cons_self)
    cases hupper.symm.trans hu'
    exact hinside
  · intro hinside t ht
    have hwithin : a.Within first s := .head' hupper hinside
    rcases List.mem_cons.mp ht with rfl | ht
    · exact hwithin
    · exact (List.rel_of_pairwise_cons hpairwise ht).2.trans hwithin

/-! ## The scope of a node -/

theorem isMain_iff {k : ScopeKind} (h : a.openings[t]? = some (k, n)) :
    a.isMain t = true ↔ k ≠ .functionName ∧ k ≠ .tdz := by
  rw [a.getElem?_openings] at h
  obtain ⟨y, hy, hk⟩ := Option.map_eq_some_iff.mp h
  cases hk
  simp [isMain, hy, Scope.isFunctionName]

theorem mem_of_scopeOf? {inner : Bool} (h : a.scopeOf? n inner = some s) :
    s ∈ a.scopesOf n ∧ (a.scopesOf n = [s] ∨ a.isMain s = true) := by
  unfold scopeOf? at h
  split at h
  · next hscopes =>
    cases h
    rw [hscopes]
    exact ⟨List.mem_cons_self, Or.inl rfl⟩
  · have hmem := List.mem_of_find?_eq_some h
    refine ⟨?_, Or.inr (List.find?_some h)⟩
    split at hmem
    · exact List.mem_reverse.mp hmem
    · exact hmem

theorem scopeOf?_of_singleton (h : a.scopesOf n = [s]) (inner : Bool) :
    a.scopeOf? n inner = some s := by
  rw [scopeOf?, h]

theorem exists_scopeOf?_of_isMain (hs : s ∈ a.scopesOf n) (hmain : a.isMain s = true)
    (inner : Bool) : ∃ t, a.scopeOf? n inner = some t := by
  unfold scopeOf?
  split
  · exact ⟨_, rfl⟩
  · refine Option.isSome_iff_exists.mp (List.find?_isSome.mpr ⟨s, ?_, hmain⟩)
    split
    · exact List.mem_reverse.mpr hs
    · exact hs

private theorem scopeOf?_of_append {l : List Nat} (h : a.scopesOf n = l ++ [s])
    (hmain : a.isMain s = true) : a.scopeOf? n true = some s := by
  unfold scopeOf?
  split
  · next t ht =>
    have hlast := congrArg List.getLast? (h.symm.trans ht)
    rw [List.getLast?_concat] at hlast
    exact hlast.symm
  · simp [h, hmain]

/-! ## Scopes in order -/

/-- What is known of the order of scopes that belong to one node. -/
structure Ordered (a : Analysis) : Prop where
  isTree : a.IsTree
  le_of_upper? : ∀ {t u w}, a.Adjoins t u → a.upper? w = some u → w ≤ t
  reservesFirst : a.openings.Pairwise ReservesFirst
  followed : Phrase.Followed a.openings
  eq_of_between : ∀ {s t u n m : Nat} {k k' k'' : ScopeKind}, a.openings[s]? = some (k, n) →
    k ≠ .tdz → a.openings[t]? = some (k', n) → a.openings[u]? = some (k'', m) → s < u → u < t →
    m = n

namespace Ordered

/-- Of several scopes of a node, one stands for it. -/
theorem exists_isMain (ha : a.Ordered) (hs : s ∈ a.scopesOf n) (ht : t ∈ a.scopesOf n)
    (hlt : s < t) : ∃ u ∈ a.scopesOf n, a.isMain u = true := by
  obtain ⟨k, hk⟩ := ha.isTree.mem_scopesOf_iff.mp hs
  obtain ⟨k', hk'⟩ := ha.isTree.mem_scopesOf_iff.mp ht
  have htdz := ne_tdz_of_lt ha.reservesFirst hk hk' hlt
  by_cases hname : k' = .functionName
  · subst hname
    have hnext := ha.followed t n hk'
    exact ⟨t + 1, ha.isTree.mem_scopesOf_iff.mpr ⟨_, hnext⟩, (isMain_iff hnext).mpr (by decide)⟩
  · exact ⟨t, ht, (isMain_iff hk').mpr ⟨hname, htdz⟩⟩

theorem exists_scopeOf? (ha : a.Ordered) (hs : s ∈ a.scopesOf n) (inner : Bool) :
    ∃ t, a.scopeOf? n inner = some t := by
  cases hscopes : a.scopesOf n with
  | nil =>
    rw [hscopes] at hs
    cases hs
  | cons first rest =>
    cases rest with
    | nil => exact ⟨first, scopeOf?_of_singleton hscopes inner⟩
    | cons second rest =>
      have hpairwise := ha.isTree.pairwise_scopesOf n
      rw [hscopes] at hpairwise
      have hlt := (List.rel_of_pairwise_cons hpairwise List.mem_cons_self).1
      obtain ⟨u, hu, hmain⟩ := ha.exists_isMain (n := n) (by simp [hscopes]) (by simp [hscopes]) hlt
      exact exists_scopeOf?_of_isMain hu hmain inner

/-- A scope right inside of which another node has a scope is the last one of its own node, unless
it reserves names. -/
theorem exists_append (ha : a.Ordered) {k k' : ScopeKind} {m w : Nat}
    (hu : a.openings[u]? = some (k, m)) (hk : k ≠ .tdz) (hw : a.openings[w]? = some (k', n))
    (hne : n ≠ m) (hupper : a.upper? w = some u) : ∃ l, a.scopesOf m = l ++ [u] := by
  have hum := ha.isTree.mem_scopesOf_iff.mpr ⟨k, hu⟩
  obtain ⟨l, l', hl⟩ := List.append_of_mem hum
  cases l' with
  | nil => exact ⟨l, hl⟩
  | cons t l' =>
    -- the next scope of the node would have been opened at once
    have hchain := ha.isTree.scopesOf_chain m
    rw [hl] at hchain
    have ht := (List.isChain_append_cons_cons.mp hchain).2.1
    have htm : t ∈ a.scopesOf m := by simp [hl]
    obtain ⟨k'', hk''⟩ := ha.isTree.mem_scopesOf_iff.mp htm
    have hle := ha.le_of_upper? ⟨ht, m, htm, hum⟩ hupper
    have hwt : w ≠ t := by
      rintro rfl
      cases hw.symm.trans hk''
      exact hne rfl
    have huw := ha.isTree.lt_of_upper? hupper
    exact absurd (ha.eq_of_between hu hk hk'' hw huw (by omega)) hne

end Ordered

/-- The scopes of a node lie right inside a scope that reserves names for another node, and that
node has other scopes as well. -/
def InReserved (a : Analysis) (n : Nat) : Prop :=
  ∃ u y, a.upperOf? n = some u ∧ a.scopes[u]? = some y ∧ y.kind = .tdz ∧
    a.scopesOf y.block.id ≠ [u]

/-- A node as seen from the scope right around its scopes. -/
theorem Ordered.exists_openings (ha : a.Ordered) (hu : a.upperOf? n = some u) :
    ∃ k m k' w, a.openings[u]? = some (k, m) ∧ a.openings[w]? = some (k', n) ∧ n ≠ m ∧
      a.upper? w = some u := by
  obtain ⟨w, hw, hupper⟩ := Option.bind_eq_some_iff.mp hu
  have hwn := List.mem_of_head? hw
  have huw := ha.isTree.lt_of_upper? hupper
  obtain ⟨k', hk'⟩ := ha.isTree.mem_scopesOf_iff.mp hwn
  have hlt := Nat.lt_trans huw (List.getElem?_eq_some_iff.mp hk').1
  obtain ⟨⟨k, m⟩, hk⟩ : ∃ e, a.openings[u]? = some e := ⟨_, List.getElem?_eq_getElem hlt⟩
  refine ⟨k, m, k', w, hk, hk', ?_, hupper⟩
  rintro rfl
  have hun := ha.isTree.mem_scopesOf_iff.mpr ⟨k, hk⟩
  obtain ⟨rest, hrest⟩ := List.head?_eq_some_iff.mp hw
  have hpairwise := ha.isTree.pairwise_scopesOf n
  rw [hrest] at hun hpairwise
  rcases List.mem_cons.mp hun with rfl | hun
  · exact Nat.lt_irrefl _ huw
  · exact Nat.lt_asymm huw (List.rel_of_pairwise_cons hpairwise hun).1

private theorem scopeAround?_of_upperOf? {k : ScopeKind} {m : Nat} (hu : a.upperOf? n = some u)
    (hk : a.openings[u]? = some (k, m)) (inner : Bool) :
    a.scopeAround? n inner = a.scopeOf? m inner := by
  rw [a.getElem?_openings] at hk
  obtain ⟨y, hy, hk⟩ := Option.map_eq_some_iff.mp hk
  cases hk
  rw [scopeAround?_eq, hu, Option.bind_some, hy, Option.bind_some]

private theorem inReserved_iff {k : ScopeKind} {m : Nat} (hu : a.upperOf? n = some u)
    (hk : a.openings[u]? = some (k, m)) :
    a.InReserved n ↔ k = .tdz ∧ a.scopesOf m ≠ [u] := by
  rw [a.getElem?_openings] at hk
  obtain ⟨y, hy, hk⟩ := Option.map_eq_some_iff.mp hk
  cases hk
  constructor
  · rintro ⟨u', y', hu', hy', hkind, hscopes⟩
    cases hu.symm.trans hu'
    cases hy.symm.trans hy'
    exact ⟨hkind, hscopes⟩
  · rintro ⟨hkind, hscopes⟩
    exact ⟨u, y, hu, hy, hkind, hscopes⟩

namespace Ordered

theorem scopeAround?_eq_none_iff (ha : a.Ordered) (inner : Bool) :
    a.scopeAround? n inner = none ↔ a.upperOf? n = none := by
  cases hu : a.upperOf? n with
  | none => simp [scopeAround?_eq, hu]
  | some u =>
    obtain ⟨k, m, -, -, hk, -⟩ := ha.exists_openings hu
    obtain ⟨s, hs⟩ := ha.exists_scopeOf? (ha.isTree.mem_scopesOf_iff.mpr ⟨k, hk⟩) inner
    rw [scopeAround?_of_upperOf? hu hk, hs]
    simp

/-- The scope around the scopes of a node is found in the wrong place exactly where names have been
reserved. -/
theorem inside_scopeAround?_iff (ha : a.Ordered) {inner : Bool} (hu : a.upperOf? n = some u)
    (hs : a.scopeAround? n inner = some s) : a.Inside u s ↔ ¬ a.InReserved n := by
  obtain ⟨k, m, k', w, hk, hw, hne, hupper⟩ := ha.exists_openings hu
  rw [scopeAround?_of_upperOf? hu hk] at hs
  rw [inReserved_iff hu hk]
  obtain ⟨hsm, hcases⟩ := mem_of_scopeOf? hs
  have hum := ha.isTree.mem_scopesOf_iff.mpr ⟨k, hk⟩
  by_cases htdz : k = .tdz
  · subst htdz
    constructor
    · rintro hinside ⟨-, hscopes⟩
      rcases hcases with hsingle | hmain
      · rw [hsingle, List.mem_singleton] at hum
        exact hscopes (hum ▸ hsingle)
      · -- names are reserved first, so `u` comes before `s`
        obtain ⟨k'', hk''⟩ := ha.isTree.mem_scopesOf_iff.mp hsm
        rcases Nat.eq_or_lt_of_le (ha.isTree.le_of_inside hinside) with rfl | hlt
        · exact ((isMain_iff hk).mp hmain).2 rfl
        · exact ne_tdz_of_lt ha.reservesFirst hk'' hk hlt rfl
    · intro hscopes
      have hsingle : a.scopesOf m = [u] := by simpa using hscopes
      rw [hsingle, List.mem_singleton] at hsm
      rw [hsm]
      exact .refl
  · obtain ⟨l, hl⟩ := ha.exists_append hk htdz hw hne hupper
    have hpairwise := ha.isTree.pairwise_scopesOf m
    rw [hl] at hsm hpairwise
    refine iff_of_true ?_ fun hreserved => htdz hreserved.1
    rcases List.mem_append.mp hsm with hsl | hsu
    · have hlast := (List.pairwise_append.mp hpairwise).2.2 s hsl u List.mem_cons_self
      exact hlast.2.to_reflTransGen
    · rw [List.mem_singleton.mp hsu]
      exact .refl

/-- From the inside, it is the scope right around the scopes of the node that is found. -/
theorem scopeAround?_true (ha : a.Ordered) (h : ¬ a.InReserved n) :
    a.scopeAround? n true = a.upperOf? n := by
  cases hu : a.upperOf? n with
  | none => exact (ha.scopeAround?_eq_none_iff true).mpr hu
  | some u =>
    obtain ⟨k, m, k', w, hk, hw, hne, hupper⟩ := ha.exists_openings hu
    rw [scopeAround?_of_upperOf? hu hk]
    by_cases htdz : k = .tdz
    · rw [inReserved_iff hu hk] at h
      refine scopeOf?_of_singleton ?_ true
      by_contra hscopes
      exact h ⟨htdz, hscopes⟩
    · obtain ⟨l, hl⟩ := ha.exists_append hk htdz hw hne hupper
      refine scopeOf?_of_append hl ((isMain_iff hk).mpr ⟨?_, htdz⟩)
      -- a function's name would be followed by the function
      rintro rfl
      have hnext := ha.isTree.mem_scopesOf_iff.mpr ⟨_, ha.followed u m hk⟩
      have hpairwise := ha.isTree.pairwise_scopesOf m
      rw [hl] at hnext hpairwise
      rcases List.mem_append.mp hnext with hnext | hnext
      · have hlt := (List.pairwise_append.mp hpairwise).2.2 _ hnext u List.mem_cons_self
        exact absurd hlt.1 (by omega)
      · exact absurd (List.mem_singleton.mp hnext) (by omega)

end Ordered

end Analysis

/-! ## Programs -/

/-- The scopes of a program whose nodes are distinct are in order. -/
theorem Program.ordered {o : Options} {p : Program} {a : Analysis} (hids : (Tree.ids p).Nodup)
    (h : Program.analyze o p = .ok a) : a.Ordered := by
  have hreserves := Program.reservesFirst hids h
  have hfollowed := Program.followed h
  have hbetween := @Program.eq_of_between o p a hids h
  obtain ⟨b, rfl, heffects⟩ := Program.exists_effects h
  have hcompact := heffects.compact .empty
  obtain ⟨b', hb', hfinished⟩ := Program.exists_finished h
  obtain ⟨f, hf, -⟩ := hfinished.zero
  have hmoves := hfinished.moves.mono fun _ : True => hids
  have htree := hfinished.wellFormed.isTree (hmoves.family .empty .empty)
    (hfinished.wellFormed.layout.lt_size hf)
  rw [hb'] at htree
  exact ⟨htree, hcompact.le_of_upper?, hreserves, hfollowed, hbetween⟩

/-- The program `for (let x of class extends function () {} {});`. The names of the loop are
reserved while the class is evaluated, and the function belongs to what is evaluated before the
class has its own scope. -/
def Program.loopOverClass : Program :=
  let mark (n : Nat) : Mark := ⟨n, ⟨n, n⟩⟩
  .program (mark 0) (.cons (.iterationStatement .forOf (mark 1)
    (.targetDeclaration (.declaration (mark 2) .letKind
      (.cons (.declarator (mark 3) (.identifierPattern ⟨mark 4, "x"⟩) .absent) .nil)))
    (.classExpression (.classNode .expression (mark 5) none
      (.present (.functionExpression (.function .expression (mark 6) none .nil
        (.blockBody (.block (mark 7) .nil)) false false false)))
      (.classBody (mark 8) .nil)))
    (.emptyStatement (mark 9)) false) .nil)

/-- The scope that is found around the scopes of a node really encloses them, except where they lie
right inside a scope that reserves names for a node with other scopes. No scope is found exactly if
the node has no scopes or the first one of all. From the inside, the scope that is found is the
nearest one. -/
theorem Program.scopeAround_encloses_iff {o : Options} {p : Program} {a : Analysis}
    (hids : (Tree.ids p).Nodup) (h : Program.analyze o p = .ok a) (n : Nat) (inner : Bool) :
    (a.scopeAround? n inner = none ↔ a.scopesOf n = [] ∨ 0 ∈ a.scopesOf n) ∧
      (∀ s, a.scopeAround? n inner = some s →
        ((∀ t ∈ a.scopesOf n, a.Within t s) ↔ ¬ a.InReserved n)) ∧
      (¬ a.InReserved n → a.scopeAround? n true = a.upperOf? n) := by
  have ha := Program.ordered hids h
  refine ⟨?_, fun s hs => ?_, ha.scopeAround?_true⟩
  · rw [ha.scopeAround?_eq_none_iff, ha.isTree.upperOf?_eq_none_iff]
  · cases hu : a.upperOf? n with
    | none =>
      rw [(ha.scopeAround?_eq_none_iff inner).mpr hu] at hs
      cases hs
    | some u => rw [ha.isTree.forall_within_iff hu, ha.inside_scopeAround?_iff hu hs]

/-- The scope around the two scopes of the class. -/
theorem Program.scopeAround_encloses_iff_class : (Tree.ids Program.loopOverClass).Nodup ∧
    ∃ a, Program.analyze .es6 .loopOverClass = .ok a ∧ a.scopesOf 5 = [1, 3] ∧
      a.scopeAround? 5 false = some 0 ∧ ∀ t ∈ a.scopesOf 5, a.Within t 0 := by
  have hids : (Tree.ids Program.loopOverClass).Nodup := by decide
  have hvalues : ((Program.analyze .es6 .loopOverClass).toOption.map fun a =>
      (a.scopesOf 5, a.scopeAround? 5 false, a.upperOf? 5, a.scopes[0]?.map (·.kind))) =
    some ([1, 3], some 0, some 0, some .global) := by decide +kernel
  cases h : Program.analyze .es6 .loopOverClass with
  | error e =>
    rw [h] at hvalues
    cases hvalues
  | ok a =>
    rw [h] at hvalues
    obtain ⟨hscopes, haround, hupper, hkind⟩ : a.scopesOf 5 = [1, 3] ∧
        a.scopeAround? 5 false = some 0 ∧ a.upperOf? 5 = some 0 ∧
        a.scopes[0]?.map (·.kind) = some .global := by
      simpa using Option.some.inj hvalues
    refine ⟨hids, a, rfl, hscopes, haround, ?_⟩
    refine ((Program.scopeAround_encloses_iff hids h 5 false).2.1 0 haround).mpr ?_
    rintro ⟨u, y, hu, hy, htdz, -⟩
    cases hupper.symm.trans hu
    rw [hy] at hkind
    cases htdz.symm.trans (Option.some.inj hkind)

/-- The scope that is found around the function is that of the class, which does not enclose it. -/
theorem Program.scopeAround_loopOverClass : (Tree.ids Program.loopOverClass).Nodup ∧
    ∃ a, Program.analyze .es6 .loopOverClass = .ok a ∧ a.scopesOf 6 = [2] ∧
      (∀ inner, a.scopeAround? 6 inner = some 3) ∧ ¬ a.Within 2 3 := by
  have hids : (Tree.ids Program.loopOverClass).Nodup := by decide
  have hvalues : ((Program.analyze .es6 .loopOverClass).toOption.map fun a =>
      (a.scopesOf 6, a.scopeAround? 6 false, a.scopeAround? 6 true)) =
    some ([2], some 3, some 3) := by decide +kernel
  cases h : Program.analyze .es6 .loopOverClass with
  | error e =>
    rw [h] at hvalues
    cases hvalues
  | ok a =>
    rw [h] at hvalues
    obtain ⟨hscopes, hfalse, htrue⟩ : a.scopesOf 6 = [2] ∧ a.scopeAround? 6 false = some 3 ∧
        a.scopeAround? 6 true = some 3 := by
      simpa using Option.some.inj hvalues
    refine ⟨hids, a, rfl, hscopes, fun inner => ?_, fun hwithin => ?_⟩
    · cases inner with
      | false => exact hfalse
      | true => exact htrue
    · have hle := (Program.ordered hids h).isTree.le_of_inside hwithin.to_reflTransGen
      omega

end EcmaScope
