import EcmaScope.Proofs.Lasting
import EcmaScope.Proofs.Walks

/-!
# How names are used

The references of an analysis are the uses of names in the program, each as often as the role of the
identifier says: what is read is read once, what is updated is updated once, and a target is written
once for every value that it may receive. Nothing is used in what is skipped.

## Main definitions

* `Analysis.uses`: the identifiers of the references, and what is done with them.

## Main results

* `Builder.Effects.uses`: the actions of a walk make their uses, in order.
* `Program.nodup_occurrences`: distinct nodes are distinct identifiers.
* `Program.references_eq_flags`: references and roles agree.
-/

namespace EcmaScope

/-- The identifiers of the references, and what is done with them, by the short forms of uses. -/
def Analysis.uses (a : Analysis) : List (Identifier × String) :=
  a.references.toList.map fun x => (x.identifier, x.use.flag)

private theorem Analysis.uses_eq_record (a : Analysis) :
    a.uses = a.record.map fun x => (x.identifier, x.use.flag) := by
  rw [record, List.map_map]
  rfl

namespace Builder

variable {b b' : Builder} {o : Options}

private theorem Effect.uses {a : Action} (h : Effect o b a b') : b'.uses = b.uses ++ a.uses := by
  obtain ⟨l, hrecord, huses, -⟩ := h.record
  rw [Analysis.uses_eq_record, hrecord, List.map_append, huses, ← Analysis.uses_eq_record]

/-- The actions of a walk make their uses, in order. -/
theorem Effects.uses {A : List Action} (h : Effects o b A b') :
    b'.uses = b.uses ++ A.flatMap Action.uses := by
  induction h with
  | nil => simp
  | cons _ _ h _ ih => rw [ih, h.uses, List.flatMap_cons, List.append_assoc]

end Builder

/-! ## Identifiers and roles -/

/-- What a role does is done several times. -/
theorem Role.exists_flags_eq (role : Role) : ∃ n flag, role.flags = List.replicate n flag := by
  cases role with
  | code => exact ⟨1, _, rfl⟩
  | updated => exact ⟨1, _, rfl⟩
  | target values => exact ⟨values, _, rfl⟩
  | head | body | skipped => exact ⟨0, "", rfl⟩

/-- The uses in the ledger of pieces are those of their identifiers. -/
theorem ledger_fst (o : Options) (P : List Piece) :
    (ledger o P).1 = ↑((P.flatMap Piece.occurrences).flatMap fun (i, role) =>
      role.flags.map (i, ·)) := by
  induction P with
  | nil => rfl
  | cons u P ih =>
    rw [ledger_cons, Prod.fst_add, ih, List.flatMap_cons, List.flatMap_append, ← Multiset.coe_add]
    rfl

/-- The identifiers of a piece are nodes of the piece. -/
theorem Piece.occurrences_sublist (u : Piece) :
    (u.occurrences.map (·.1.mark)).Sublist u.marks := by
  obtain ⟨c, role, t⟩ := u
  cases t with
  | identifier i | identifierPattern i => exact .refl _
  | labeledStatement | importDefaultSpecifier | importNamespaceSpecifier | importNamedSpecifier
  | metaProperty => exact List.sublist_cons_self _ _
  | breakStatement m name | continueStatement m name | function _ m name | classNode _ m name =>
    cases name with
    | none => exact List.nil_sublist _
    | some i => exact List.sublist_cons_self _ _
  | _ => exact List.nil_sublist _

/-- If the nodes of a program are distinct, so are its identifiers. -/
theorem Program.nodup_occurrences {p : Program} (o : Options) (hids : (Tree.ids p).Nodup) :
    ((Program.occurrences o p).map (·.1.mark.id)).Nodup := by
  have hsublist (P : List Piece) :
      ((P.flatMap Piece.occurrences).map (·.1.mark)).Sublist (P.flatMap Piece.marks) := by
    induction P with
    | nil => exact .slnil
    | cons u P ih =>
      rw [List.flatMap_cons, List.map_append, List.flatMap_cons]
      exact u.occurrences_sublist.append ih
  have hperm : (((Program.pieces o p).flatMap Piece.marks).map (·.id)).Perm (Tree.ids p) :=
    (Tree.accounts o .code p).perm.map _
  have hnodup := (hperm.nodup_iff.mpr hids).sublist ((hsublist (Program.pieces o p)).map (·.id))
  rwa [List.map_map] at hnodup

/-- In a list in which an identifier occurs once, it is used as its role says. -/
private theorem filter_flags {l : List (Identifier × Role)} (hnodup : (l.map (·.1.mark.id)).Nodup)
    {i : Identifier} {role : Role} (hmem : (i, role) ∈ l) :
    (l.flatMap fun (i, role) => role.flags.map (i, ·)).filter (·.1.mark.id = i.mark.id) =
      role.flags.map (i, ·) := by
  induction l with
  | nil => cases hmem
  | cons x l ih =>
    obtain ⟨j, role'⟩ := x
    rw [List.map_cons, List.nodup_cons] at hnodup
    rw [List.flatMap_cons, List.filter_append]
    rcases List.mem_cons.mp hmem with heq | hmem
    · cases heq
      have hothers : (l.flatMap fun (i, role) => role.flags.map (i, ·)).filter
          (·.1.mark.id = i.mark.id) = [] := by
        simp only [List.filter_eq_nil_iff, List.mem_flatMap, List.mem_map, decide_eq_true_eq]
        rintro _ ⟨⟨j, role'⟩, hj, flag, -, rfl⟩ hid
        exact hnodup.1 (hid ▸ List.mem_map_of_mem hj)
      rw [hothers, List.append_nil, List.filter_eq_self]
      simp
    · have hne : j.mark.id ≠ i.mark.id := fun hid =>
        hnodup.1 (hid ▸ List.mem_map_of_mem hmem)
      rw [ih hnodup.2 hmem, List.filter_eq_nil_iff.mpr (by simp [hne]), List.nil_append]

/-- The uses of an analysis are those of the identifiers in their roles. -/
theorem Program.uses_perm {o : Options} {p : Program} {a : Analysis}
    (h : Program.analyze o p = .ok a) :
    a.uses.Perm ((Program.occurrences o p).flatMap fun (i, role) => role.flags.map (i, ·)) := by
  obtain ⟨b, rfl, heffects⟩ := Program.exists_effects h
  obtain ⟨strict, M, L, A, hactions, -, ⟨N, -, hphrase⟩, hledger⟩ := Program.speaks o p
  have huses : b.uses = A.flatMap Action.uses := by
    rw [heffects.uses, hactions]
    simp [Analysis.uses, Action.uses]
  rw [← Multiset.coe_eq_coe, huses, hphrase.uses, Program.occurrences, ← ledger_fst, hledger,
    Prod.fst_add]
  simp [Ledger.openings]

/-- An identifier of a program is referred to as often, and in such ways, as its role says. -/
theorem Program.flags_of_mem {o : Options} {p : Program} {a : Analysis}
    (hids : (Tree.ids p).Nodup) (h : Program.analyze o p = .ok a) {i : Identifier} {role : Role}
    (hmem : (i, role) ∈ Program.occurrences o p) :
    ((a.references.toList.filter fun x => x.identifier.mark.id = i.mark.id).map fun x =>
      x.use.flag) = role.flags := by
  have hfilter := ((Program.uses_perm h).filter (·.1.mark.id = i.mark.id)).map Prod.snd
  rw [filter_flags (Program.nodup_occurrences o hids) hmem, List.map_map, Analysis.uses,
    List.filter_map, List.map_map] at hfilter
  have hsnd : role.flags.map (Prod.snd ∘ (i, ·)) = role.flags := List.map_id _
  rw [hsnd] at hfilter
  -- all flags of a role are the same, so their order does not matter
  obtain ⟨n, flag, heq⟩ := role.exists_flags_eq
  rw [heq] at hfilter ⊢
  exact List.perm_replicate.mp hfilter

/-- What is referred to is an identifier of the program, and its role says how it is used. -/
theorem Program.exists_role_of_mem {o : Options} {p : Program} {a : Analysis}
    (h : Program.analyze o p = .ok a) {x : Reference} (hx : x ∈ a.references) :
    ∃ role, (x.identifier, role) ∈ Program.occurrences o p ∧ x.use.flag ∈ role.flags := by
  have hmem : (x.identifier, x.use.flag) ∈ a.uses :=
    List.mem_map_of_mem (Array.mem_toList_iff.mpr hx)
  obtain ⟨⟨i, role⟩, hrole, hi⟩ := List.mem_flatMap.mp ((Program.uses_perm h).mem_iff.mp hmem)
  obtain ⟨flag, hflag, heq⟩ := List.mem_map.mp hi
  cases heq
  exact ⟨role, hrole, hflag⟩

/-- No use is lost, made twice or made up: every identifier of a program is referred to as often,
and in such ways, as its role says, and nothing else is referred to. -/
theorem Program.references_eq_flags {o : Options} {p : Program} {a : Analysis}
    (hids : (Tree.ids p).Nodup) (h : Program.analyze o p = .ok a) :
    (∀ i role, (i, role) ∈ Program.occurrences o p →
      ((a.references.toList.filter fun x => x.identifier.mark.id = i.mark.id).map fun x =>
        x.use.flag) = role.flags) ∧
      ∀ x ∈ a.references, ∃ role, (x.identifier, role) ∈ Program.occurrences o p := by
  refine ⟨fun i role => Program.flags_of_mem hids h, fun x hx => ?_⟩
  obtain ⟨role, hrole, -⟩ := Program.exists_role_of_mem h hx
  exact ⟨role, hrole⟩

/-- The `x` in the head of the loop, which is declared twice, is written once, and the `x` in the
function is read once. -/
theorem Program.references_eq_flags_loop : (Tree.ids (Program.loopOverFunction id)).Nodup ∧
    ∃ a, Program.analyze .es6 (.loopOverFunction id) = .ok a ∧
      ((a.references.toList.filter fun x => x.identifier.mark.id = 4).map fun x => x.use.flag) =
        ["w"] ∧
      ((a.references.toList.filter fun x => x.identifier.mark.id = 9).map fun x => x.use.flag) =
        ["r"] := by
  have hids : (Tree.ids (Program.loopOverFunction id)).Nodup := by decide
  have hok : (Program.analyze .es6 (.loopOverFunction id)).isOk = true := by decide +kernel
  have hhead : ((⟨⟨4, ⟨4, 4⟩⟩, "x"⟩, .target 1) : Identifier × Role) ∈
    Program.occurrences .es6 (.loopOverFunction id) := by decide +kernel
  have hbody : ((⟨⟨9, ⟨9, 9⟩⟩, "x"⟩, .code) : Identifier × Role) ∈
    Program.occurrences .es6 (.loopOverFunction id) := by decide +kernel
  cases h : Program.analyze .es6 (.loopOverFunction id) with
  | error e =>
    rw [h] at hok
    cases hok
  | ok a =>
    have hflags := (Program.references_eq_flags hids h).1
    exact ⟨hids, a, rfl, hflags _ _ hhead, hflags _ _ hbody⟩

end EcmaScope
