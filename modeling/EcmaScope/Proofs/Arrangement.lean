import EcmaScope.Proofs.Openings

/-!
# The order of the scopes of a node

A node has more than one scope if it is a program, a function expression with a name, or the value
of a loop whose names are reserved. In the last case the scope of the reserved names comes first,
and other nodes may have scopes before the node itself has its next one. In the other cases the
scopes of the node are opened one right after the other.

## Main definitions

* `Arranged`: which nodes have openings, and that names are reserved first.

## Main results

* `Phrase.arranged`: the openings of every phrase are arranged.
* `Program.kinds_of_node`: which kinds of scopes one node has.
* `Program.eq_of_between`: where scopes of one node are opened one right after the other.
-/

namespace EcmaScope

/-- If the openings belong to the same node, the second one does not reserve names. -/
def ReservesFirst (e e' : ScopeKind × Nat) : Prop :=
  e.2 = e'.2 → e'.1 ≠ .tdz

/-- A scope of a node that has been opened after another one of it reserves no names. -/
theorem ne_tdz_of_lt {l : List (ScopeKind × Nat)} (h : l.Pairwise ReservesFirst) {s t n : Nat}
    {k k' : ScopeKind} (hs : l[s]? = some (k, n)) (ht : l[t]? = some (k', n)) (hlt : s < t) :
    k' ≠ .tdz := by
  obtain ⟨hslt, hse⟩ := List.getElem?_eq_some_iff.mp hs
  obtain ⟨htlt, hte⟩ := List.getElem?_eq_some_iff.mp ht
  have hfirst := List.pairwise_iff_getElem.mp h s t hslt htlt hlt
  rw [hse, hte] at hfirst
  exact hfirst rfl

/-- The openings belong to the `owner` and to the nodes `M`. If these are distinct, names are
reserved before a node has other scopes, and none are reserved for the owner. -/
structure Arranged (owner : Option Nat) (M : List Nat) (l : List (ScopeKind × Nat)) : Prop where
  node_mem : ∀ e ∈ l, e.2 ∈ owner.toList ++ M
  pairwise : (owner.toList ++ M).Nodup → l.Pairwise ReservesFirst
  tdz_notMem : (owner.toList ++ M).Nodup → ∀ n ∈ owner, (.tdz, n) ∉ l

namespace Arranged

variable {owner : Option Nat} {n : Nat} {M N : List Nat} {l l' : List (ScopeKind × Nat)}

theorem nil : Arranged owner M [] where
  node_mem := by simp
  pairwise _ := .nil
  tdz_notMem _ _ _ := List.not_mem_nil

theorem append (h : Arranged owner M l) (h' : Arranged owner N l') :
    Arranged owner (M ++ N) (l ++ l') := by
  have hM : (owner.toList ++ M).Sublist (owner.toList ++ (M ++ N)) :=
    (List.sublist_append_left M N).append_left _
  have hN : (owner.toList ++ N).Sublist (owner.toList ++ (M ++ N)) :=
    (List.sublist_append_right M N).append_left _
  refine ⟨fun e he => ?_, fun hnodup => ?_, fun hnodup n hn hmem => ?_⟩
  · rcases List.mem_append.mp he with he | he
    · exact hM.subset (h.node_mem e he)
    · exact hN.subset (h'.node_mem e he)
  · have hdisjoint : (owner.toList ++ M).Disjoint N := by
      rw [← List.append_assoc] at hnodup
      exact List.disjoint_of_nodup_append hnodup
    refine List.pairwise_append.mpr ⟨h.pairwise (hnodup.sublist hM),
      h'.pairwise (hnodup.sublist hN), fun e he e' he' hnode hkind => ?_⟩
    -- a node with openings in both parts is the owner
    rcases List.mem_append.mp (h'.node_mem e' he') with howner | hmem
    · refine h'.tdz_notMem (hnodup.sublist hN) e'.2 (Option.mem_toList.mp howner) ?_
      rwa [← hkind]
    · exact hdisjoint (h.node_mem e he) (hnode ▸ hmem)
  · rcases List.mem_append.mp hmem with hmem | hmem
    · exact h.tdz_notMem (hnodup.sublist hM) n hn hmem
    · exact h'.tdz_notMem (hnodup.sublist hN) n hn hmem

theorem single {kind : ScopeKind} (n : Nat) (hkind : kind ≠ .tdz) :
    Arranged (some n) [] [(kind, n)] where
  node_mem := by simp
  pairwise _ := List.pairwise_singleton _ _
  tdz_notMem _ m _ hm := hkind (congrArg Prod.fst (List.mem_singleton.mp hm)).symm

/-- More nodes that have no openings. -/
theorem right (h : Arranged owner M l) (N : List Nat) : Arranged owner (N ++ M) l :=
  (nil (M := N)).append h

/-- Openings that belong to nodes other than the owner. -/
theorem embed (h : Arranged none M l) : Arranged owner M l where
  node_mem e he := List.mem_append_right _ (h.node_mem e he)
  pairwise hnodup := h.pairwise (List.nodup_append.mp hnodup).2.1
  tdz_notMem hnodup _ hn hmem :=
    List.disjoint_of_nodup_append hnodup (Option.mem_toList.mpr hn) (h.node_mem _ hmem)

/-- The owner becomes one of the nodes. -/
theorem close (h : Arranged (some n) M l) : Arranged none (n :: M) l where
  node_mem := h.node_mem
  pairwise := h.pairwise
  tdz_notMem _ m hm := by cases hm

/-- Names are reserved for the owner first of all. -/
theorem reserve (h : Arranged (some n) M l) : Arranged none (n :: M) ((.tdz, n) :: l) where
  node_mem e he := by
    rcases List.mem_cons.mp he with rfl | he
    · exact List.mem_cons_self
    · exact h.node_mem e he
  pairwise hnodup := by
    refine List.pairwise_cons.mpr ⟨fun e he hnode hkind => ?_, h.pairwise hnodup⟩
    refine h.tdz_notMem hnodup n rfl ?_
    rwa [← hkind, show n = e.2 from hnode]
  tdz_notMem _ m hm := by cases hm

end Arranged

namespace Phrase

variable {o : Options} {mode : Mode} {M : List Nat} {L : Ledger} {A : List Action}

private theorem openings_of_declare (hA : ∀ a ∈ A, a.isPlain = true ∨ ∃ d, a = .declare d) :
    A.flatMap Action.openings = [] := by
  refine List.flatMap_eq_nil_iff.mpr fun a ha => ?_
  rcases hA a ha with hplain | ⟨d, rfl⟩
  · cases a <;> first | rfl | cases hplain
  · rfl

/-- The openings of a phrase are arranged. -/
theorem arranged (h : Phrase o mode M L A) :
    Arranged mode.owner M (A.flatMap Action.openings) := by
  induction h with
  | nil => exact .nil
  | append _ _ ihA ihB =>
    rw [List.flatMap_append]
    exact ihA.append ihB
  | embed _ ih => exact ih.embed
  | quiet a ha =>
    cases a with
    | needScope | useThis | refuseImport => exact .nil
    | _ => cases ha
  | refer | call | declare => exact .nil
  | openScope kind block strict hkind => exact .single _ hkind.2
  | site reach _ ih => rwa [openings_site]
  | function form m name strict _ ih =>
    rw [List.flatMap_append, openings_functionName, List.flatMap_append, openings_site,
      ← List.append_assoc]
    refine .right (Arranged.append (M := []) (Arranged.append (M := []) ?_ ?_) ih.embed) _
    · split
      · exact .single m.id (by decide)
      · exact .nil
    · exact .single m.id (by decide)
  | @classNode M _ _ form m name _ ih =>
    rw [List.flatMap_append, List.flatMap_append]
    refine .right ?_ _
    rw [← List.append_nil M, ← List.nil_append M]
    refine .append (.append ?_ ih.embed) ?_
    · split
      · rw [openings_className]
        exact .nil
      · exact .nil
    · split
      · rw [List.flatMap_cons, openings_className]
        exact .single m.id (by decide)
      · exact .nil
  | catchClause m _ ih =>
    rw [List.flatMap_append, openings_site]
    exact (Arranged.single m.id (by decide)).append ih.embed
  | @loop N M _ _ _ _ _ _ value block k _ hA' _ _ hC' _ ihB _ =>
    simp only [List.flatMap_append, openings_closeScopes, List.flatMap_singleton, Action.openings,
      openings_of_declare hA', openings_of_declare hC', List.append_nil]
    have hloop : Arranged (some block.id) [] [(.loop, block.id)] := .single _ (by decide)
    have hboth := (Arranged.reserve ihB).embed.append hloop
    rw [List.append_nil] at hboth
    exact hboth.right N
  | value value k _ ih =>
    rw [List.flatMap_append, openings_closeScopes, List.append_nil, List.flatMap_append]
    exact Arranged.reserve ih
  | scopes k _ ih =>
    rw [List.flatMap_append, openings_closeScopes, List.append_nil]
    exact Arranged.close ih

end Phrase

/-! ## The openings of a program -/

/-- The own scopes of a program are opened first, and then those of other nodes. -/
theorem Program.openings_eq_append {o : Options} {p : Program} {a : Analysis}
    (hids : (Tree.ids p).Nodup) (h : Program.analyze o p = .ok a) :
    ∃ M l, a.openings = p.openings o .code ++ l ∧ ((Program.mark p).id :: M).Nodup ∧
      Arranged none M l := by
  obtain ⟨b, rfl, heffects⟩ := Program.exists_effects h
  cases p with
  | program m body =>
    obtain ⟨M, hcount, hphrase⟩ := (body.walked o).speaks false
    obtain ⟨hM, hroot⟩ := nodup_of_count_le hids hcount
    refine ⟨M, (body.actions o (.code false)).flatMap Action.openings, ?_,
      List.nodup_cons.mpr ⟨fun hmem => hroot m.id hmem rfl, hM⟩, hphrase.arranged⟩
    have hif (p : Prop) [Decidable p] (kind : ScopeKind) (strict : Bool) :
        (if p then [Action.openScope kind ⟨.program, m⟩ strict] else []).flatMap Action.openings =
          if p then [(kind, m.id)] else [] := by
      split <;> rfl
    rw [heffects.openings]
    change [] ++ List.flatMap Action.openings ([_] ++ _ ++ _ ++ _ ++ [_]) = _
    simp only [List.flatMap_append, hif, List.flatMap_singleton, List.nil_append, List.append_nil,
      Action.openings]
    rfl

/-- The own scopes of a program belong to it and reserve no names. -/
theorem Program.of_mem_openings {o : Options} {e : ScopeKind × Nat} : {p : Program} →
    e ∈ p.openings o .code → e.2 = (Program.mark p).id ∧ e.1 ≠ .tdz
  | .program m body, he => by
    have hif {p : Prop} [Decidable p] {kind : ScopeKind} (hkind : kind ≠ .tdz)
        (hmem : e ∈ if p then [(kind, m.id)] else []) : e.2 = m.id ∧ e.1 ≠ .tdz := by
      split at hmem
      · rw [List.mem_singleton.mp hmem]
        exact ⟨rfl, hkind⟩
      · cases hmem
    rcases List.mem_append.mp he with he | he
    · rcases List.mem_append.mp he with he | he
      · rw [List.mem_singleton.mp he]
        exact ⟨rfl, nofun⟩
      · exact hif (by decide) he
    · exact hif (by decide) he

/-- Where names are reserved for a node, that comes before its other scopes. -/
theorem Program.reservesFirst {o : Options} {p : Program} {a : Analysis}
    (hids : (Tree.ids p).Nodup) (h : Program.analyze o p = .ok a) :
    a.openings.Pairwise ReservesFirst := by
  obtain ⟨M, l, hopenings, hnodup, harranged⟩ := Program.openings_eq_append hids h
  rw [hopenings]
  refine List.pairwise_append.mpr ⟨?_, harranged.pairwise (List.nodup_cons.mp hnodup).2, ?_⟩
  · exact List.pairwise_iff_forall_sublist.mpr fun hsublist _ =>
      (Program.of_mem_openings (hsublist.subset (by simp))).2
  · intro e he e' he' hnode
    have hmem := harranged.node_mem e' he'
    rw [← show e.2 = e'.2 from hnode, (Program.of_mem_openings he).1] at hmem
    exact absurd hmem (List.nodup_cons.mp hnodup).1

/-- A piece that is not a program opens several scopes of its node only for a function expression
with a name. -/
theorem Piece.kinds_of_openings {o : Options} (u : Piece) {k k' : ScopeKind} {n : Nat}
    (hk : (k, n) ∈ u.openings o) (hk' : (k', n) ∈ u.openings o) (htdz : k ≠ .tdz)
    (htdz' : k' ≠ .tdz) (hne : k ≠ k') : u.category.holdsProgram = true ∨
      (k = .functionName ∧ k' = .function) ∨ (k = .function ∧ k' = .functionName) := by
  obtain ⟨c, role, t⟩ := u
  have ht (hk : (k, n) ∈ t.openings o role) (hk' : (k', n) ∈ t.openings o role) :
      c.holdsProgram = true ∨ (k = .functionName ∧ k' = .function) ∨
        (k = .function ∧ k' = .functionName) := by
    cases t with
    | program => exact Or.inl rfl
    | function | block | switchStatement | classNode | forStatement | catchClause | withStatement
    | iterationStatement =>
      unfold Tree.openings at hk hk'
      grind
    | _ => exact absurd hk List.not_mem_nil
  cases role <;> first | exact ht hk hk' | exact absurd hk List.not_mem_nil

/-- No program but the whole is a piece of a program. -/
theorem Program.eq_of_holdsProgram {o : Options} : {p : Program} → {u : Piece} →
    u ∈ Program.pieces o p → u.category.holdsProgram = true → u = ⟨.program, .code, p⟩
  | .program m body, u, hu, hprogram => by
    rcases List.mem_cons.mp hu with rfl | hu
    · rfl
    · rw [body.withoutProgram_pieces o rfl .code u hu] at hprogram
      cases hprogram

/-- The openings of an analysis are those of the pieces of the program. -/
theorem Program.openings_perm {o : Options} {p : Program} {a : Analysis}
    (h : Program.analyze o p = .ok a) :
    a.openings.Perm ((Program.pieces o p).flatMap (Piece.openings o)) := by
  obtain ⟨M, L, A, hphrase, hopenings, hledger⟩ := Program.openings_eq h
  rw [← Multiset.coe_eq_coe, hopenings, ← ledger_openings, hledger, Prod.snd_add, Prod.fst_add,
    ← hphrase.openings]
  rfl

/-- The scopes of an analysis belong to different nodes or are of different kinds. -/
theorem Program.nodup_openings_of_analyze {o : Options} {p : Program} {a : Analysis}
    (hids : (Tree.ids p).Nodup) (h : Program.analyze o p = .ok a) : a.openings.Nodup :=
  (Program.openings_perm h).nodup_iff.mpr (Program.nodup_openings o hids)

/-- A scope is known by its kind and its node. -/
theorem Program.eq_of_opening {o : Options} {p : Program} {a : Analysis}
    (hids : (Tree.ids p).Nodup) (h : Program.analyze o p = .ok a) {s t : Nat} {e : ScopeKind × Nat}
    (hs : a.openings[s]? = some e) (ht : a.openings[t]? = some e) : s = t :=
  (List.getElem?_inj (List.getElem?_eq_some_iff.mp hs).1
    (Program.nodup_openings_of_analyze hids h)).mp (hs.trans ht.symm)

/-- The scope of a function's name is directly followed by that of the function. -/
theorem Program.followed {o : Options} {p : Program} {a : Analysis}
    (h : Program.analyze o p = .ok a) : Phrase.Followed a.openings := by
  obtain ⟨M, L, A, hphrase, hopenings, -⟩ := Program.openings_eq h
  rw [hopenings]
  exact (Phrase.Followed.single _ (by decide)).append hphrase.followed

/-- If the lists that belong to the members of a list have nothing in common, what is in two of them
belongs to one member. -/
theorem eq_of_nodup_flatMap {α β : Type} {f : α → List β} {l : List α} (h : (l.flatMap f).Nodup)
    {a b : α} {x : β} (ha : a ∈ l) (hb : b ∈ l) (hxa : x ∈ f a) (hxb : x ∈ f b) : a = b := by
  by_contra hne
  have hsymm : Std.Symm (Function.onFun List.Disjoint f) := ⟨fun _ _ => List.Disjoint.symm⟩
  exact (List.nodup_flatMap.mp h).2.forall ha hb hne hxa hxb

/-- A node is a node of one piece only. -/
theorem Program.eq_of_mem_marks {o : Options} {p : Program} (hids : (Tree.ids p).Nodup)
    {u v : Piece} (hu : u ∈ Program.pieces o p) (hv : v ∈ Program.pieces o p) {n : Nat}
    (hnu : n ∈ u.marks.map (·.id)) (hnv : n ∈ v.marks.map (·.id)) : u = v := by
  have haccounts : Accounts o .code (Program.pieces o p) p.marks := Tree.accounts o .code p
  have hnodup : ((Program.pieces o p).flatMap fun u => u.marks.map (·.id)).Nodup := by
    rw [← List.map_flatMap]
    exact (haccounts.perm.map _).nodup_iff.mpr hids
  exact eq_of_nodup_flatMap hnodup hu hv hnu hnv

/-- The node of a scope that reserves no names belongs to the piece that opens the scope. -/
theorem Piece.mem_marks_of_mem_openings {o : Options} {u : Piece} {k : ScopeKind} {n : Nat}
    (h : (k, n) ∈ u.openings o) (hk : k ≠ .tdz) : n ∈ u.marks.map (·.id) :=
  List.count_pos_iff.mp
    (Nat.lt_of_lt_of_le (List.count_pos_iff.mpr h) (u.count_openings_le hk n))

/-- A node other than the program has scopes of different kinds that reserve no names only if it is
a function expression with a name. -/
theorem Program.kinds_of_node {o : Options} {p : Program} {a : Analysis}
    (hids : (Tree.ids p).Nodup) (h : Program.analyze o p = .ok a) {k k' : ScopeKind} {n : Nat}
    (hk : (k, n) ∈ a.openings) (hk' : (k', n) ∈ a.openings) (htdz : k ≠ .tdz) (htdz' : k' ≠ .tdz)
    (hne : k ≠ k') : n = (Program.mark p).id ∨
      (k = .functionName ∧ k' = .function) ∨ (k = .function ∧ k' = .functionName) := by
  have hperm := Program.openings_perm h
  obtain ⟨u, hu, hmem⟩ := List.mem_flatMap.mp (hperm.mem_iff.mp hk)
  obtain ⟨u', hu', hmem'⟩ := List.mem_flatMap.mp (hperm.mem_iff.mp hk')
  obtain rfl := Program.eq_of_mem_marks hids hu hu' (Piece.mem_marks_of_mem_openings hmem htdz)
    (Piece.mem_marks_of_mem_openings hmem' htdz')
  refine (u.kinds_of_openings hmem hmem' htdz htdz' hne).imp_left fun hprogram => ?_
  rw [Program.eq_of_holdsProgram hu hprogram] at hmem
  exact (Program.of_mem_openings hmem).1

/-- Between two scopes of a node of which the first one reserves no names, only scopes of the node
are opened. -/
theorem Program.eq_of_between {o : Options} {p : Program} {a : Analysis}
    (hids : (Tree.ids p).Nodup) (h : Program.analyze o p = .ok a) {s t u n m : Nat}
    {k k' k'' : ScopeKind} (hs : a.openings[s]? = some (k, n)) (hk : k ≠ .tdz)
    (ht : a.openings[t]? = some (k', n)) (hu : a.openings[u]? = some (k'', m)) (hsu : s < u)
    (hut : u < t) : m = n := by
  have hfollowed := Program.followed h
  have hst := Nat.lt_trans hsu hut
  have htdz : k' ≠ .tdz := ne_tdz_of_lt (Program.reservesFirst hids h) hs ht hst
  have hne : k ≠ k' := by
    rintro rfl
    exact Nat.ne_of_lt hst (Program.eq_of_opening hids h hs ht)
  rcases Program.kinds_of_node hids h (List.mem_of_getElem? hs) (List.mem_of_getElem? ht) hk htdz
    hne with hn | ⟨rfl, rfl⟩ | ⟨rfl, rfl⟩
  · obtain ⟨M, l, hopenings, hM, harranged⟩ := Program.openings_eq_append hids h
    rw [hopenings] at ht hu
    have hown : t < (p.openings o .code).length := by
      by_contra hle
      rw [List.getElem?_append_right (Nat.le_of_not_lt hle)] at ht
      have hmem := harranged.node_mem _ (List.mem_of_getElem? ht)
      exact (List.nodup_cons.mp hM).1 (hn ▸ hmem)
    rw [List.getElem?_append_left (Nat.lt_trans hut hown)] at hu
    exact (Program.of_mem_openings (List.mem_of_getElem? hu)).1.trans hn.symm
  · have hnext := Program.eq_of_opening hids h (hfollowed s n hs) ht
    omega
  · have hnext := Program.eq_of_opening hids h (hfollowed t n ht) hs
    omega

end EcmaScope
