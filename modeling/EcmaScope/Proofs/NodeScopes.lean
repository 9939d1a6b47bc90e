import EcmaScope.Proofs.Around
import EcmaScope.Proofs.Spans

/-!
# The scope that stands for a node

A node is asked for one scope, though it may have several of them. The scopes of a function's name
and of names that are reserved for a loop stand for the node only if there is no other one. Which
kinds of scopes a node may have at all then says which scope is found: for a function the scope of
its parameters and its body, for a class that of its members, and a program is the only node for
which it matters whether the search begins at the inner or at the outer end.

## Main definitions

* `Tree.bodyScope?`: the scope of the body of a function or of a class.

## Main results

* `Program.mem_openings_of_bodyScope?`: a function or a class that has any scope has that of its
  body.
* `Program.scopeOf?_of_isMain`: a scope that stands for a node other than the program is found from
  both ends.
* `Program.scopeOf_finds_body`: which scope is found for a node.
-/

namespace EcmaScope

variable {o : Options} {p : Program} {a : Analysis} {k : ScopeKind} {n s t : Nat}

/-! ## Functions and classes -/

/-- The scope of the body of a function or of a class, by its kind and the number of its node. -/
def Tree.bodyScope? {c : Category} : Tree c → Option (ScopeKind × Nat)
  | .function _ m _ _ _ _ _ _ => some (.function, m.id)
  | .classNode _ m _ _ _ => some (.classBody, m.id)
  | _ => none

namespace Piece

variable {u : Piece}

private theorem mem_marks_of_bodyScope? (h : u.tree.bodyScope? = some (k, n)) :
    n ∈ u.marks.map (·.id) := by
  obtain ⟨c, role, t⟩ := u
  cases t with
  | function | classNode =>
    cases h
    exact List.mem_cons_self
  | _ => cases h

private theorem isMain_of_bodyScope? (h : u.tree.bodyScope? = some (k, n)) :
    k ≠ .functionName ∧ k ≠ .tdz := by
  obtain ⟨c, role, t⟩ := u
  cases t with
  | function | classNode =>
    cases h
    exact ⟨nofun, nofun⟩
  | _ => cases h

private theorem holdsProgram_of_bodyScope? (h : u.tree.bodyScope? = some (k, n)) :
    u.category.holdsProgram = false := by
  obtain ⟨c, role, t⟩ := u
  cases t with
  | function | classNode => rfl
  | _ => cases h

private theorem openings_of_role (o : Options) (hrole : u.role ≠ .skipped) :
    u.openings o = u.tree.openings o u.role := by
  obtain ⟨c, role, t⟩ := u
  cases role with
  | skipped => exact absurd rfl hrole
  | _ => rfl

private theorem role_ne_of_mem_openings {e : ScopeKind × Nat} (h : e ∈ u.openings o) :
    u.role ≠ .skipped := by
  obtain ⟨c, role, t⟩ := u
  rintro rfl
  exact absurd h List.not_mem_nil

/-- A function that is looked at opens the scope of its body. So does a class from the sixth edition
on, and it opens no other scope. -/
theorem mem_openings_of_bodyScope? (h : u.tree.bodyScope? = some (k, n))
    (hrole : u.role ≠ .skipped) (hopens : o.isEs6 = true ∨ ∃ e, e ∈ u.openings o) :
    (k, n) ∈ u.openings o := by
  rw [openings_of_role o hrole] at hopens ⊢
  obtain ⟨c, role, t⟩ := u
  cases t with
  | function =>
    cases h
    exact List.mem_append_right _ (List.mem_singleton_self _)
  | classNode form m name superclass body =>
    cases h
    have hopenings : (Tree.classNode form m name superclass body).openings o role =
        if o.isEs6 then [(ScopeKind.classBody, m.id)] else [] := rfl
    by_cases hes6 : o.isEs6 = true
    · rw [hopenings, if_pos hes6]
      exact List.mem_singleton_self _
    · rcases hopens with hopens | ⟨e, he⟩
      · exact absurd hopens hes6
      · rw [hopenings, if_neg hes6] at he
        cases he
  | _ => cases h

/-- Names are reserved for the value of a loop, and from the sixth edition on. -/
theorem exists_of_tdz_mem_openings (h : (.tdz, n) ∈ u.openings o) : o.isEs6 = true ∧
    ∃ e : Expr, n = (Expr.mark e).id ∧ e.pieces o u.role ⊆ u.tree.pieces o u.role := by
  rw [openings_of_role o (role_ne_of_mem_openings h)] at h
  obtain ⟨c, role, t⟩ := u
  cases t with
  | iterationStatement form m left right body await =>
    change _ ∈ if ForTarget.isLexical left && o.isEs6 then
      [(ScopeKind.tdz, (Expr.mark right).id), (ScopeKind.loop, m.id)] else [] at h
    split at h
    · next hlexical =>
      refine ⟨(Bool.and_eq_true _ _ ▸ hlexical).2, right, ?_, ?_⟩
      · rcases List.mem_cons.mp h with h | h
        · exact congrArg Prod.snd h
        · cases List.mem_singleton.mp h
      · change _ ⊆ _ :: (left.pieces o role ++ right.pieces o role ++ body.pieces o role)
        intro v hv
        simp [hv]
    · cases h
  | program | function | block | switchStatement | classNode | forStatement | catchClause
  | withStatement =>
    unfold Tree.openings at h
    grind
  | _ => exact absurd h List.not_mem_nil

end Piece

/-- An expression is a node of one of its pieces, which stands in the role of the expression. -/
theorem Expr.exists_piece (o : Options) (role : Role) (e : Expr) :
    ∃ u ∈ e.pieces o role, u.role = role ∧ (Expr.mark e).id ∈ u.marks.map (·.id) := by
  cases e with
  | arrowFunction f | functionExpression f =>
    cases f
    exact ⟨_, List.mem_cons_of_mem _ List.mem_cons_self, rfl, List.mem_cons_self⟩
  | classExpression c =>
    cases c
    exact ⟨_, List.mem_cons_of_mem _ List.mem_cons_self, rfl, List.mem_cons_self⟩
  | memberExpression m =>
    cases m
    exact ⟨_, List.mem_cons_of_mem _ List.mem_cons_self, rfl, List.mem_cons_self⟩
  | spreadExpression s =>
    cases s
    exact ⟨_, List.mem_cons_of_mem _ List.mem_cons_self, rfl, List.mem_cons_self⟩
  | templateExpression t =>
    cases t
    exact ⟨_, List.mem_cons_of_mem _ List.mem_cons_self, rfl, List.mem_cons_self⟩
  | _ => exact ⟨_, List.mem_cons_self, rfl, List.mem_cons_self⟩

namespace Program

/-- A function or a class that has any scope has the scope of its body. -/
theorem mem_openings_of_bodyScope? (hids : (Tree.ids p).Nodup) (h : Program.analyze o p = .ok a)
    {u : Piece} (hu : u ∈ Program.pieces o p) (hbody : u.tree.bodyScope? = some (k, n))
    {k' : ScopeKind} (hk' : (k', n) ∈ a.openings) : (k, n) ∈ a.openings := by
  have hperm := Program.openings_perm h
  have hnode := Piece.mem_marks_of_bodyScope? hbody
  obtain ⟨v, hv, hmem⟩ := List.mem_flatMap.mp (hperm.mem_iff.mp hk')
  refine hperm.mem_iff.mpr (List.mem_flatMap.mpr ⟨u, hu, ?_⟩)
  by_cases htdz : k' = .tdz
  · -- the function or the class is the value of a loop, so it is looked at as the loop is
    subst htdz
    obtain ⟨hes6, e, rfl, hpieces⟩ := Piece.exists_of_tdz_mem_openings hmem
    obtain ⟨w, hw, hrole, hmarks⟩ := Expr.exists_piece o v.role e
    have hw : w ∈ Program.pieces o p := (p.gathered o .code v hv).subset (hpieces hw)
    obtain rfl := Program.eq_of_mem_marks hids hu hw hnode hmarks
    exact Piece.mem_openings_of_bodyScope? hbody (hrole ▸ Piece.role_ne_of_mem_openings hmem)
      (Or.inl hes6)
  · have hmarks := Piece.mem_marks_of_mem_openings hmem htdz
    obtain rfl := Program.eq_of_mem_marks hids hu hv hnode hmarks
    exact Piece.mem_openings_of_bodyScope? hbody (Piece.role_ne_of_mem_openings hmem)
      (Or.inr ⟨_, hmem⟩)

/-- A function or a class is not the whole program. -/
theorem ne_mark_of_bodyScope? (hids : (Tree.ids p).Nodup) {u : Piece}
    (hu : u ∈ Program.pieces o p) (hbody : u.tree.bodyScope? = some (k, n)) :
    n ≠ (Program.mark p).id := by
  rintro rfl
  have hp : (⟨.program, .code, p⟩ : Piece) ∈ Program.pieces o p := by
    cases p
    exact List.mem_cons_self
  have hmark : (Program.mark p).id ∈ (Piece.marks ⟨.program, .code, p⟩).map (·.id) := by
    cases p
    exact List.mem_cons_self
  obtain rfl := Program.eq_of_mem_marks hids hu hp (Piece.mem_marks_of_bodyScope? hbody) hmark
  cases Piece.holdsProgram_of_bodyScope? hbody

/-! ## The search for a scope -/

/-- At most one scope stands for a node other than the program. -/
theorem eq_of_isMain (hids : (Tree.ids p).Nodup) (h : Program.analyze o p = .ok a)
    (hn : n ≠ (Program.mark p).id) (hs : s ∈ a.scopesOf n) (hsmain : a.isMain s = true)
    (ht : t ∈ a.scopesOf n) (htmain : a.isMain t = true) : s = t := by
  have htree := (Program.ordered hids h).isTree
  obtain ⟨k, hk⟩ := htree.mem_scopesOf_iff.mp hs
  obtain ⟨k', hk'⟩ := htree.mem_scopesOf_iff.mp ht
  have hkmain := (Analysis.isMain_iff hk).mp hsmain
  have hkmain' := (Analysis.isMain_iff hk').mp htmain
  by_cases hkind : k = k'
  · subst hkind
    exact Program.eq_of_opening hids h hk hk'
  · rcases Program.kinds_of_node hids h (List.mem_of_getElem? hk) (List.mem_of_getElem? hk')
      hkmain.2 hkmain'.2 hkind with hroot | ⟨hname, -⟩ | ⟨-, hname⟩
    · exact absurd hroot hn
    · exact absurd hname hkmain.1
    · exact absurd hname hkmain'.1

/-- A scope that stands for a node other than the program is found from both ends. -/
theorem scopeOf?_of_isMain (hids : (Tree.ids p).Nodup) (h : Program.analyze o p = .ok a)
    (hn : n ≠ (Program.mark p).id) (hs : s ∈ a.scopesOf n) (hmain : a.isMain s = true)
    (inner : Bool) : a.scopeOf? n inner = some s := by
  obtain ⟨t, ht⟩ := Analysis.exists_scopeOf?_of_isMain hs hmain inner
  obtain ⟨htn, hsingle | htmain⟩ := Analysis.mem_of_scopeOf? ht
  · rw [hsingle, List.mem_singleton] at hs
    rw [ht, hs]
  · rw [ht, Program.eq_of_isMain hids h hn hs hmain htn htmain]

/-- The two ends of the search make no difference for a node other than the program. -/
theorem scopeOf?_eq (hids : (Tree.ids p).Nodup) (h : Program.analyze o p = .ok a)
    (hn : n ≠ (Program.mark p).id) : a.scopeOf? n false = a.scopeOf? n true := by
  cases ht : a.scopeOf? n true with
  | some t =>
    obtain ⟨htn, hsingle | hmain⟩ := Analysis.mem_of_scopeOf? ht
    · exact Analysis.scopeOf?_of_singleton hsingle false
    · exact Program.scopeOf?_of_isMain hids h hn htn hmain false
  | none =>
    cases hs : a.scopeOf? n false with
    | none => rfl
    | some s =>
      obtain ⟨hsn, -⟩ := Analysis.mem_of_scopeOf? hs
      obtain ⟨t, ht'⟩ := (Program.ordered hids h).exists_scopeOf? hsn true
      cases ht.symm.trans ht'

end Program

/-- The scope that is found for a node is not that of a function's name. It reserves names only if
the node has no other scope. -/
theorem Analysis.Ordered.kind_of_scopeOf? (ha : a.Ordered) {inner : Bool}
    (hs : a.scopeOf? n inner = some s) (hk : a.openings[s]? = some (k, n)) :
    k ≠ .functionName ∧ (k = .tdz → a.scopesOf n = [s]) := by
  obtain ⟨hsn, hsingle | hmain⟩ := Analysis.mem_of_scopeOf? hs
  · refine ⟨?_, fun _ => hsingle⟩
    rintro rfl
    have hnext := ha.isTree.mem_scopesOf_iff.mpr ⟨_, ha.followed s n hk⟩
    rw [hsingle, List.mem_singleton] at hnext
    exact absurd hnext (Nat.succ_ne_self s)
  · obtain ⟨hname, htdz⟩ := (Analysis.isMain_iff hk).mp hmain
    exact ⟨hname, fun h => absurd h htdz⟩

/-- A scope is found for exactly the nodes that have one, and it is one of theirs. It is never the
scope of a function's name, and it reserves names only if it is the only one. For a function it is
the scope of the function and for a class that of the class, whenever these have any. From which end
the scopes are searched makes a difference for the program alone. -/
theorem Program.scopeOf_finds_body (hids : (Tree.ids p).Nodup) (h : Program.analyze o p = .ok a)
    (n : Nat) (inner : Bool) :
    ((∃ s, a.scopeOf? n inner = some s) ↔ a.scopesOf n ≠ []) ∧
      (∀ s, a.scopeOf? n inner = some s → s ∈ a.scopesOf n ∧
        ∃ y, a.scopes[s]? = some y ∧ y.kind ≠ .functionName ∧
          (y.kind = .tdz → a.scopesOf n = [s])) ∧
      (∀ u ∈ Program.pieces o p, ∀ k, u.tree.bodyScope? = some (k, n) → a.scopesOf n ≠ [] →
        ∃ s y, a.scopeOf? n inner = some s ∧ a.scopes[s]? = some y ∧ y.kind = k) ∧
      (a.scopeOf? n false ≠ a.scopeOf? n true → n = (Program.mark p).id) := by
  have ha := Program.ordered hids h
  refine ⟨⟨?_, fun hne => ?_⟩, fun s hs => ?_, fun u hu k hbody hne => ?_, fun hne => ?_⟩
  · rintro ⟨s, hs⟩
    exact List.ne_nil_of_mem (Analysis.mem_of_scopeOf? hs).1
  · obtain ⟨s, hs⟩ := List.exists_mem_of_ne_nil _ hne
    exact ha.exists_scopeOf? hs inner
  · have hsn := (Analysis.mem_of_scopeOf? hs).1
    obtain ⟨k, hk⟩ := ha.isTree.mem_scopesOf_iff.mp hsn
    have hkind := ha.kind_of_scopeOf? hs hk
    rw [a.getElem?_openings] at hk
    obtain ⟨y, hy, hk⟩ := Option.map_eq_some_iff.mp hk
    cases hk
    exact ⟨hsn, y, hy, hkind⟩
  · obtain ⟨t, ht⟩ := List.exists_mem_of_ne_nil _ hne
    obtain ⟨k', hk'⟩ := ha.isTree.mem_scopesOf_iff.mp ht
    have hmem := Program.mem_openings_of_bodyScope? hids h hu hbody (List.mem_of_getElem? hk')
    obtain ⟨s, hs⟩ := List.getElem?_of_mem hmem
    have hmain := (Analysis.isMain_iff hs).mpr (Piece.isMain_of_bodyScope? hbody)
    have hscope := Program.scopeOf?_of_isMain hids h (Program.ne_mark_of_bodyScope? hids hu hbody)
      (ha.isTree.mem_scopesOf_iff.mpr ⟨k, hs⟩) hmain inner
    rw [a.getElem?_openings] at hs
    obtain ⟨y, hy, hk⟩ := Option.map_eq_some_iff.mp hs
    exact ⟨s, y, hscope, hy, congrArg Prod.fst hk⟩
  · by_contra hn
    exact hne (Program.scopeOf?_eq hids h hn)

/-- Of the three scopes of a function with a name that a loop goes through, the last one is
found. -/
theorem Program.scopeOf_finds_body_loop : (Tree.ids (Program.loopOverFunction id)).Nodup ∧
    ∃ a, Program.analyze .es6 (.loopOverFunction id) = .ok a ∧ a.scopesOf 5 = [1, 2, 3] ∧
      ∀ inner, ∃ s y, a.scopeOf? 5 inner = some s ∧ a.scopes[s]? = some y ∧
        y.kind = .function := by
  have hids : (Tree.ids (Program.loopOverFunction id)).Nodup := by decide
  have hscopes : ((Program.analyze .es6 (.loopOverFunction id)).toOption.map (·.scopesOf 5)) =
    some [1, 2, 3] := by decide +kernel
  cases h : Program.analyze .es6 (.loopOverFunction id) with
  | error e =>
    rw [h] at hscopes
    cases hscopes
  | ok a =>
    rw [h] at hscopes
    have hscopes : a.scopesOf 5 = [1, 2, 3] := Option.some.inj hscopes
    refine ⟨hids, a, rfl, hscopes, fun inner => ?_⟩
    have hany : ((Program.pieces .es6 (.loopOverFunction id)).any fun u =>
        u.tree.bodyScope? = some (.function, 5)) = true := by decide +kernel
    obtain ⟨u, hu, hbody⟩ := List.any_eq_true.mp hany
    exact (Program.scopeOf_finds_body hids h 5 inner).2.2.1 u hu .function (of_decide_eq_true hbody)
      (by simp [hscopes])

end EcmaScope
