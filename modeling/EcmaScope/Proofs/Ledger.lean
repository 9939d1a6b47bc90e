import EcmaScope.Proofs.Roles
import Mathlib.Algebra.BigOperators.Group.List.Basic
import Mathlib.Algebra.Order.Group.Multiset
import Mathlib.Algebra.Group.Prod

/-!
# Ledgers

A ledger lists uses of names, openings of scopes and direct calls of `eval`, each as often as there
are of them, in no order. The pieces of a program have a ledger, and so have the actions of its
walk; that the two agree is shown construct by construct.

This module deals with patterns, which the walk takes apart: what is assigned to the targets comes
first, and the expressions that the pattern evaluates follow.

## Main definitions

* `Ledger`: uses, openings and calls.
* `Piece.ledger`, `ledger`: the ledgers of a piece and of a list of pieces.
* `Ledger.written`: the ledger of the targets of a pattern.

## Main results

* `Tree.actions_eq_evaluated`: a pattern acts by the expressions that it evaluates.
* `Tree.ledger_target`: the ledger of a pattern is that of its targets and of these expressions.
* `Tree.count_targets_le`: targets and these expressions are different nodes of the pattern.
-/

namespace EcmaScope

/-! ## Ledgers of pieces -/

/-- Uses of names by their short forms, openings of scopes by kind and node, and callees by which
`eval` is called directly. -/
abbrev Ledger : Type :=
  Multiset (Identifier × String) × Multiset (ScopeKind × Nat) × Multiset Identifier

namespace Ledger

/-- A use of a name. -/
def use (i : Identifier) (flag : String) : Ledger :=
  ({(i, flag)}, 0, 0)

/-- The openings of scopes. -/
def openings (l : List (ScopeKind × Nat)) : Ledger :=
  (0, ↑l, 0)

/-- A direct call of `eval`. -/
def call (i : Identifier) : Ledger :=
  (0, 0, {i})

/-- A write to a name. -/
def write (i : Identifier) : Ledger :=
  use i (Use.flag (.write default false false))

/-- The writes to targets that receive a value for every default and `values` more. -/
def written (values : Nat) (targets : List Target) : Ledger :=
  (targets.map fun t => (t.defaults.length + values) • write t.identifier).sum

theorem nsmul_use (n : Nat) (i : Identifier) (flag : String) :
    n • use i flag = (↑(List.replicate n (i, flag)), 0, 0) := by
  rw [use, Prod.smul_mk, Prod.smul_mk, Multiset.nsmul_singleton, Multiset.coe_replicate, nsmul_zero,
    nsmul_zero]

@[simp] theorem written_nil (values : Nat) : written values [] = 0 := rfl

@[simp] theorem written_cons (values : Nat) (t : Target) (targets : List Target) :
    written values (t :: targets) =
      (t.defaults.length + values) • write t.identifier + written values targets := by
  simp [written]

@[simp] theorem written_append (values : Nat) (targets targets' : List Target) :
    written values (targets ++ targets') = written values targets + written values targets' := by
  simp [written]

end Ledger

/-- The ledger of a piece. -/
def Piece.ledger (o : Options) (u : Piece) : Ledger :=
  (↑(u.occurrences.flatMap fun (i, role) => role.flags.map (i, ·)), ↑(u.openings o),
    ↑(u.evalCallees o))

/-- The ledger of a list of pieces. -/
def ledger (o : Options) (P : List Piece) : Ledger :=
  (P.map (Piece.ledger o)).sum

section

variable {o : Options}

@[simp] theorem ledger_nil : ledger o [] = 0 := rfl

@[simp] theorem ledger_cons (u : Piece) (P : List Piece) :
    ledger o (u :: P) = u.ledger o + ledger o P := by
  simp [ledger]

theorem ledger_cons_of_eq_zero {u : Piece} (hu : u.ledger o = 0) (P : List Piece) :
    ledger o (u :: P) = ledger o P := by
  rw [ledger_cons, hu, zero_add]

@[simp] theorem ledger_append (P Q : List Piece) :
    ledger o (P ++ Q) = ledger o P + ledger o Q := by
  simp [ledger]

/-- Nothing is entered for what is skipped. -/
theorem Piece.ledger_of_skipped {u : Piece} (hu : u.role = .skipped) : u.ledger o = 0 := by
  obtain ⟨c, role, t⟩ := u
  cases hu
  have hoccurrences : ∀ x ∈ t.occurrences .skipped, x.2 = .skipped := by
    intro x hx
    unfold Tree.occurrences at hx
    split at hx
    · rw [List.mem_singleton.mp hx]
    · rw [List.mem_singleton.mp hx]
    · obtain ⟨i, -, rfl⟩ := List.mem_map.mp hx
      rfl
  have huses : (t.occurrences .skipped).flatMap (fun (i, role) => role.flags.map (i, ·)) = [] := by
    rw [List.flatMap_eq_nil_iff]
    rintro ⟨i, role⟩ hx
    cases hoccurrences _ hx
    rfl
  rw [Piece.ledger, Piece.occurrences, huses]
  rfl

private theorem ledger_of_skipped {P : List Piece} (h : ∀ u ∈ P, u.role = .skipped) :
    ledger o P = 0 := by
  induction P with
  | nil => rfl
  | cons u P ih =>
    rw [ledger_cons, Piece.ledger_of_skipped (h u List.mem_cons_self),
      ih fun v hv => h v (List.mem_cons_of_mem u hv), add_zero]

/-- An identifier that receives values is written as often. -/
theorem Piece.ledger_target_identifier (n : Nat) (i : Identifier) :
    Piece.ledger o ⟨.pattern, .target n, .identifierPattern i⟩ = n • Ledger.write i := by
  have huses : (Piece.occurrences ⟨.pattern, .target n, .identifierPattern i⟩).flatMap
      (fun (i, role) => role.flags.map (i, ·)) =
      List.replicate n (i, Use.flag (.write default false false)) := by
    change [(i, Role.target n)].flatMap _ = _
    rw [List.flatMap_singleton]
    exact List.map_replicate
  rw [Ledger.write, Ledger.nsmul_use, Piece.ledger, huses]
  rfl

theorem Tree.ledger_skipped {c : Category} (t : Tree c) : ledger o (t.pieces o .skipped) = 0 :=
  ledger_of_skipped ((t.accounts o .skipped).skipped rfl)

end

/-! ## Patterns -/

/-- Trees of this category take values apart. -/
def Category.isPattern : Category → Bool
  | .pattern | .rest | .patternMember => true
  | .list c | .optional c => c.isPattern
  | _ => false

namespace Tree

variable {c : Category} {o : Options}

/-- A pattern acts by the expressions that it evaluates. -/
theorem actions_eq_evaluated (t : Tree c) (hc : c.isPattern = true) (method : Bool) :
    t.actions o (.code method) = t.evaluated.flatMap (Tree.actions o (.code method)) := by
  induction t with
  | nil | absent => rfl
  | cons head tail ihHead ihTail =>
    change _ = (head.evaluated ++ tail.evaluated).flatMap _
    rw [List.flatMap_append, ← ihHead hc, ← ihTail hc]
    rfl
  | present part ih => exact ih hc
  | arrayPattern m elements ih => exact ih rfl
  | assignmentPattern m left right ihLeft _ =>
    change _ = (left.evaluated ++ [right]).flatMap _
    rw [List.flatMap_append, ← ihLeft rfl, List.flatMap_singleton]
    rfl
  | identifierPattern => rfl
  | memberPattern a =>
    cases a with
    | access m object prop computed isOptional =>
      cases computed with
      | false => exact (List.flatMap_singleton ..).symm
      | true =>
        change _ = [prop, object].flatMap _
        rw [List.flatMap_cons, List.flatMap_singleton]
        rfl
  | objectPattern m members ih => exact ih rfl
  | restPattern r ih => exact ih rfl
  | rest m argument ih => exact ih rfl
  | patternProperty m key value computed shorthand _ ih =>
    cases computed with
    | false => exact ih rfl
    | true =>
      change _ = (key :: value.evaluated).flatMap _
      rw [List.flatMap_cons, ← ih rfl]
      rfl
  | restMember r ih => exact ih rfl
  | _ => cases hc

/-- The ledger of expressions that are evaluated. -/
def codeLedger (o : Options) (l : List Expr) : Ledger :=
  (l.map fun e => ledger o (Tree.pieces o .code e)).sum

@[simp] theorem codeLedger_nil : codeLedger o [] = 0 := rfl

@[simp] theorem codeLedger_cons (e : Expr) (l : List Expr) :
    codeLedger o (e :: l) = ledger o (Tree.pieces o .code e) + codeLedger o l := by
  simp [codeLedger]

@[simp] theorem codeLedger_append (l l' : List Expr) :
    codeLedger o (l ++ l') = codeLedger o l + codeLedger o l' := by
  simp [codeLedger]

/-- The ledger of a pattern is that of its targets and of the expressions that it evaluates. -/
theorem ledger_target (t : Tree c) (hc : c.isPattern = true) (root values : Nat)
    (defaults : List Default) (rest? : Option Pat) :
    ledger o (t.pieces o (.target (defaults.length + values))) =
      .written values (t.targets root defaults rest?) + codeLedger o t.evaluated := by
  have hself {c : Category} {t : Tree c} {P : List Piece} {n : Nat}
      (h : Piece.ledger o ⟨c, .target n, t⟩ = 0) :
      ledger o (⟨c, .target n, t⟩ :: P) = ledger o P := ledger_cons_of_eq_zero h P
  induction t generalizing defaults rest? with
  | nil | absent => exact (hself rfl).trans (zero_add _).symm
  | cons head tail ihHead ihTail =>
    refine (hself rfl).trans ?_
    change _ = .written values
      (head.targets root defaults rest? ++ tail.targets root defaults rest?) +
        codeLedger o (head.evaluated ++ tail.evaluated)
    rw [ledger_append, Ledger.written_append, codeLedger_append, add_add_add_comm]
    exact congrArg₂ _ (ihHead hc defaults rest?) (ihTail hc defaults rest?)
  | present part ih => exact (hself rfl).trans (ih hc defaults rest?)
  | arrayPattern m elements ih => exact (hself rfl).trans (ih rfl defaults rest?)
  | assignmentPattern m left right ihLeft _ =>
    have hleft := ihLeft rfl (defaults ++ [⟨m, left, right⟩]) rest?
    rw [List.length_append, List.length_singleton, Nat.add_right_comm] at hleft
    refine (hself rfl).trans ?_
    change _ = _ + codeLedger o (left.evaluated ++ [right])
    rw [ledger_append, codeLedger_append, ← add_assoc, codeLedger_cons, codeLedger_nil, add_zero]
    exact congrArg₂ _ hleft rfl
  | identifierPattern i =>
    change ledger o [⟨.pattern, .target (defaults.length + values), .identifierPattern i⟩] =
      .written values [⟨i, _, _, defaults⟩] + codeLedger o []
    rw [ledger_cons, Piece.ledger_target_identifier]
    simp
  | memberPattern a =>
    cases a with
    | access m object prop computed isOptional =>
      refine (hself rfl).trans ?_
      have haccess :
          Piece.ledger o ⟨.access, .code, .access m object prop computed isOptional⟩ = 0 := rfl
      change ledger o (⟨.access, .code, .access m object prop computed isOptional⟩ ::
        (object.pieces o .code ++ prop.pieces o (if computed then .code else .skipped))) =
          .written values [] + codeLedger o ((if computed then [prop] else []) ++ [object])
      rw [ledger_cons, haccess]
      cases computed <;> simp [add_comm, prop.ledger_skipped]
  | objectPattern m members ih => exact (hself rfl).trans (ih rfl defaults rest?)
  | restPattern r ih => exact (hself rfl).trans (ih rfl defaults rest?)
  | rest m argument ih => exact (hself rfl).trans (ih rfl defaults (some argument))
  | patternProperty m key value computed shorthand _ ih =>
    refine (hself rfl).trans ?_
    change _ = .written values (value.targets root defaults rest?) +
      codeLedger o ((if computed then [key] else []) ++ value.evaluated)
    rw [ledger_append, codeLedger_append, ih rfl defaults rest?, add_left_comm (Ledger.written _ _)]
    congr 1
    cases computed with
    | false => exact key.ledger_skipped
    | true => exact (add_zero _).symm
  | restMember r ih => exact (hself rfl).trans (ih rfl defaults rest?)
  | _ => cases hc

/-- The targets of a pattern and the expressions that it evaluates are different nodes of it. -/
theorem count_targets_le (t : Tree c) (root : Nat) (defaults : List Default) (rest? : Option Pat)
    (n : Nat) :
    ((t.targets root defaults rest?).map (·.identifier.mark.id)).count n +
      ((t.evaluated.flatMap Tree.marks).map (·.id)).count n ≤ (t.marks.map (·.id)).count n := by
  induction t generalizing defaults rest? with
  | cons head tail ihHead ihTail =>
    have hhead := ihHead defaults rest?
    have htail := ihTail defaults rest?
    change ((head.targets root defaults rest? ++ tail.targets root defaults rest?).map _).count n +
      (((head.evaluated ++ tail.evaluated).flatMap Tree.marks).map _).count n ≤
        ((head.marks ++ tail.marks).map _).count n
    simp only [List.map_append, List.flatMap_append, List.count_append]
    omega
  | present part ih => exact ih defaults rest?
  | arrayPattern m elements ih => exact Nat.le_trans (ih defaults rest?) List.count_le_count_cons
  | assignmentPattern m left right ihLeft _ =>
    have hleft := ihLeft (defaults ++ [⟨m, left, right⟩]) rest?
    refine Nat.le_trans ?_ (List.count_le_count_cons (a := n) (b := m.id))
    change ((left.targets root (defaults ++ [⟨m, left, right⟩]) rest?).map _).count n +
      (((left.evaluated ++ [right]).flatMap Tree.marks).map _).count n ≤
        ((left.marks ++ right.marks).map _).count n
    simp only [List.map_append, List.flatMap_append, List.count_append, List.flatMap_singleton]
    omega
  | identifierPattern i => exact Nat.le_refl _
  | memberPattern a =>
    cases a with
    | access m object prop computed isOptional =>
      refine Nat.le_trans ?_ (List.count_le_count_cons (a := n) (b := m.id))
      change 0 +
        ((((if computed then [prop] else []) ++ [object]).flatMap Tree.marks).map _).count n ≤
          ((object.marks ++ prop.marks).map _).count n
      cases computed <;> simp [Nat.add_comm]
  | objectPattern m members ih => exact Nat.le_trans (ih defaults rest?) List.count_le_count_cons
  | restPattern r ih => exact ih defaults rest?
  | rest m argument ih => exact Nat.le_trans (ih defaults (some argument)) List.count_le_count_cons
  | patternProperty m key value computed shorthand _ ih =>
    have hvalue := ih defaults rest?
    refine Nat.le_trans ?_ (List.count_le_count_cons (a := n) (b := m.id))
    change ((value.targets root defaults rest?).map _).count n +
      ((((if computed then [key] else []) ++ value.evaluated).flatMap Tree.marks).map _).count n ≤
        ((key.marks ++ value.marks).map _).count n
    simp only [List.map_append, List.flatMap_append, List.count_append]
    cases computed
    · simpa using Nat.le_add_left_of_le hvalue
    · simp only [if_true, List.flatMap_singleton]
      omega
  | restMember r ih => exact ih defaults rest?
  | _ => exact Nat.zero_le _

end Tree

end EcmaScope
