import EcmaScope.Proofs.Ledger
import EcmaScope.Proofs.Preorder
import EcmaScope.Proofs.Renaming

/-!
# The parts of a pattern

A pattern that receives a value hands parts of it to the patterns inside it: an array pattern to its
elements, a property to its value, a rest element to its argument, a default to the pattern before
it. Keys, default values and the parts of a member expression receive nothing. The ways along which
values are handed on are relations here, and the targets of a pattern and the expressions that it
evaluates are described by them.

The expressions are evaluated in the order of the traversal, with one exception: the computed
property of a member target comes before the object, which a traversal meets first.

## Main definitions

* `Link`: how a part of a pattern receives a value.
* `Tree.Hands`, `Tree.ReachedFrom`: one step and any number of steps into a pattern.
* `Tree.RestAround`: whether a part of a pattern is the argument of the rest element around it.
* `Tree.Evaluates`: a part of a pattern evaluates an expression itself.
* `Tree.Swaps`: two expressions are the property and the object of a member target.
* `InOrder`: expressions stand in the order of a traversal, but for some pairs.

## Main results

* `Tree.RestAround.any_isIdentifier`: whether an identifier takes all that is left can be told from
  its number.
* `Tree.mem_targets_iff`, `Tree.mem_evaluated_iff`: targets and evaluated expressions are what the
  ways into a pattern lead to.
* `Pat.targets_and_evaluated`: what the targets and the evaluated expressions of a pattern are.
* `Tree.inOrder_evaluated`: the order of the evaluated expressions.
* `Pat.evaluated_sorted_iff`: they are in source order if and only if no member target is computed.
-/

namespace EcmaScope

/-! ## Ways into a pattern -/

/-- How a part of a pattern receives a value from the part around it. -/
inductive Link where
  /-- It receives the value, or a part of it. -/
  | part
  /-- It receives all that is left. -/
  | rest
  /-- It receives the value, or the default in its place. -/
  | default (d : Default)

namespace Link

/-- The default on a link. -/
def default? : Link → Option Default
  | .default d => some d
  | _ => none

/-- The defaults around a part that is reached by the link. -/
def around (defaults : List Default) : Link → List Default
  | .default d => defaults ++ [d]
  | _ => defaults

private theorem around_append (defaults : List Default) (l : Link) (links : List Link) :
    l.around defaults ++ links.filterMap default? =
      defaults ++ (l :: links).filterMap default? := by
  cases l with
  | default d => exact List.append_assoc ..
  | part | rest => rfl

/-- The link is that from a rest element to its argument. -/
def isRest : Link → Bool
  | .rest => true
  | _ => false

private theorem isRest_iff {l : Link} : l.isRest = true ↔ l = .rest := by
  cases l <;> simp [isRest]

end Link

namespace Tree

/-- A part of a pattern hands a value on to a part inside it. -/
inductive Hands : {c d : Category} → Tree c → Link → Tree d → Prop
  | head {c : Category} {head : Tree c} {tail : Tree (.list c)} : Hands (.cons head tail) .part head
  | tail {c : Category} {head : Tree c} {tail : Tree (.list c)} : Hands (.cons head tail) .part tail
  | present {c : Category} {part : Tree c} : Hands (.present part) .part part
  | elements {m : Mark} {elements : Tree (.list (.optional .pattern))} :
      Hands (.arrayPattern m elements) .part elements
  | members {m : Mark} {members : Tree (.list .patternMember)} :
      Hands (.objectPattern m members) .part members
  | value {m : Mark} {key : Expr} {value : Pat} {computed shorthand : Bool} :
      Hands (.patternProperty m key value computed shorthand) .part value
  | restPattern {r : Tree .rest} : Hands (.restPattern r) .part r
  | restMember {r : Tree .rest} : Hands (.restMember r) .part r
  | argument {m : Mark} {argument : Pat} : Hands (.rest m argument) .rest argument
  | left {m : Mark} {left : Pat} {right : Expr} :
      Hands (.assignmentPattern m left right) (.default ⟨m, left, right⟩) left

/-- The part `u` of a pattern is reached from a part around it along the links. -/
inductive ReachedFrom {d : Category} (u : Tree d) : {c : Category} → Tree c → List Link → Prop
  | here : ReachedFrom u u []
  | step {c c' : Category} {t : Tree c} {t' : Tree c'} {l : Link} {links : List Link}
      (hands : t.Hands l t') (reached : ReachedFrom u t' links) : ReachedFrom u t (l :: links)

/-- A part of a pattern evaluates an expression itself. -/
inductive Evaluates : {c : Category} → Tree c → Expr → Prop
  | key {m : Mark} {key : Expr} {value : Pat} {shorthand : Bool} :
      Evaluates (.patternProperty m key value true shorthand) key
  | default {m : Mark} {left : Pat} {right : Expr} :
      Evaluates (.assignmentPattern m left right) right
  | object {m : Mark} {object property : Expr} {computed isOptional : Bool} :
      Evaluates (.memberPattern (.access m object property computed isOptional)) object
  | property {m : Mark} {object property : Expr} {isOptional : Bool} :
      Evaluates (.memberPattern (.access m object property true isOptional)) property

end Tree

/-! ## Targets -/

/-- The target that is reached from a part of a pattern along the links. -/
def Target.along (root : Nat) (defaults : List Default) (isRest : Bool) (links : List Link)
    (i : Identifier) : Target :=
  ⟨i, i.mark.id = root, links.getLast?.elim isRest Link.isRest,
    defaults ++ links.filterMap Link.default?⟩

private theorem Target.along_nil (root : Nat) (defaults : List Default) (isRest : Bool)
    (i : Identifier) :
    along root defaults isRest [] i = ⟨i, i.mark.id = root, isRest, defaults⟩ := by
  simp [along]

/-- The first link may be taken at once. -/
theorem Target.along_cons (root : Nat) (defaults : List Default) (isRest : Bool) (l : Link)
    (links : List Link) (i : Identifier) :
    along root defaults isRest (l :: links) i =
      along root (l.around defaults) l.isRest links i := by
  have hrest : (l :: links).getLast?.elim isRest Link.isRest =
      links.getLast?.elim l.isRest Link.isRest := by
    rw [List.getLast?_cons]
    cases links.getLast? <;> rfl
  rw [along, along, hrest, Link.around_append]

namespace Tree

/-- A part of a pattern is the argument of the innermost rest element around it, as `isRest` says.
Otherwise that argument, which the part lies inside of, is not an identifier. -/
inductive RestAround : Option Pat → Bool → {c : Category} → Tree c → Prop
  | argument (p : Pat) : RestAround (some p) true p
  | inside {rest? : Option Pat} (h : rest?.bind Pat.identifier? = none) {c : Category}
      (t : Tree c) : RestAround rest? false t

variable {c d : Category} {t : Tree c} {t' : Tree d} {l : Link} {links : List Link} {root : Nat}
  {defaults : List Default} {rest? : Option Pat} {isRest : Bool} {i : Identifier} {x : Target}

/-- An identifier takes all that is left if and only if it has the number of the argument of the
innermost rest element around it. -/
theorem RestAround.any_isIdentifier (h : RestAround rest? isRest (.identifierPattern i)) :
    rest?.any (Pat.isIdentifier · i) = isRest := by
  cases h with
  | argument => exact decide_eq_true rfl
  | inside h =>
    cases rest? with
    | none => rfl
    | some p =>
      have hp : Pat.identifier? p = none := h
      rw [Option.any_some, Pat.isIdentifier, hp]

/-- What hands a value on is not an identifier. -/
private theorem RestAround.within (h : RestAround rest? isRest t) (hands : t.Hands l t') :
    RestAround rest? false t' := by
  cases h with
  | argument p =>
    have hp : (some p).bind Pat.identifier? = none := by cases hands <;> rfl
    exact .inside hp t'
  | inside h => exact .inside h t'

/-- The targets of a part are targets of the part around it. -/
private theorem Hands.targets_subset (h : t.Hands l t') (hrest : RestAround rest? isRest t) :
    ∃ inner?, RestAround inner? l.isRest t' ∧
      t'.targets root (l.around defaults) inner? ⊆ t.targets root defaults rest? := by
  have hinside := hrest.within h
  cases h with
  | head => exact ⟨rest?, hinside, List.subset_append_left ..⟩
  | tail => exact ⟨rest?, hinside, List.subset_append_right ..⟩
  | @argument m p => exact ⟨some p, .argument p, List.Subset.refl _⟩
  | _ => exact ⟨rest?, hinside, List.Subset.refl _⟩

/-- What the links lead to is a target. -/
private theorem ReachedFrom.along_mem_targets (h : (Tree.identifierPattern i).ReachedFrom t links)
    (hrest : RestAround rest? isRest t) :
    .along root defaults isRest links i ∈ t.targets root defaults rest? := by
  induction h generalizing defaults isRest rest? with
  | here =>
    rw [Target.along_nil, ← hrest.any_isIdentifier]
    exact List.mem_singleton_self _
  | step hands _ ih =>
    rw [Target.along_cons]
    obtain ⟨inner?, hinner, hsubset⟩ := hands.targets_subset hrest
    exact hsubset (ih hinner)

/-- The target is reached from a part of a pattern. -/
def HasTarget (root : Nat) (defaults : List Default) (isRest : Bool) (t : Tree c) (x : Target) :
    Prop :=
  ∃ links i, (Tree.identifierPattern i).ReachedFrom t links ∧
    x = .along root defaults isRest links i

private theorem Hands.hasTarget (h : t.Hands l t')
    (hx : t'.HasTarget root (l.around defaults) l.isRest x) :
    t.HasTarget root defaults isRest x := by
  obtain ⟨links, i, hreached, rfl⟩ := hx
  exact ⟨l :: links, i, .step h hreached, (Target.along_cons ..).symm⟩

private theorem hasTarget_of_mem_targets (t : Tree c) (hrest : RestAround rest? isRest t)
    (hx : x ∈ t.targets root defaults rest?) : t.HasTarget root defaults isRest x := by
  induction t generalizing defaults isRest rest? with
  | cons head tail ihHead ihTail =>
    rcases List.mem_append.1 hx with hx | hx
    · exact Hands.head.hasTarget (ihHead (hrest.within .head) hx)
    · exact Hands.tail.hasTarget (ihTail (hrest.within .tail) hx)
  | present part ih => exact Hands.present.hasTarget (ih (hrest.within .present) hx)
  | arrayPattern m elements ih => exact Hands.elements.hasTarget (ih (hrest.within .elements) hx)
  | assignmentPattern m left right ih _ => exact Hands.left.hasTarget (ih (hrest.within .left) hx)
  | identifierPattern i =>
    rw [List.mem_singleton.1 hx, hrest.any_isIdentifier, ← Target.along_nil]
    exact ⟨[], i, .here, rfl⟩
  | objectPattern m members ih => exact Hands.members.hasTarget (ih (hrest.within .members) hx)
  | restPattern r ih => exact Hands.restPattern.hasTarget (ih (hrest.within .restPattern) hx)
  | rest m argument ih => exact Hands.argument.hasTarget (ih (.argument argument) hx)
  | patternProperty m key value computed shorthand _ ih =>
    exact Hands.value.hasTarget (ih (hrest.within .value) hx)
  | restMember r ih => exact Hands.restMember.hasTarget (ih (hrest.within .restMember) hx)
  | _ => exact absurd hx List.not_mem_nil

/-- The targets of a part of a pattern are what the links lead to. -/
theorem mem_targets_iff (t : Tree c) (hrest : RestAround rest? isRest t) :
    x ∈ t.targets root defaults rest? ↔ t.HasTarget root defaults isRest x := by
  refine ⟨hasTarget_of_mem_targets t hrest, ?_⟩
  rintro ⟨links, i, hreached, rfl⟩
  exact hreached.along_mem_targets hrest

/-- The targets stand in the order of the traversal. -/
theorem targets_sublist (t : Tree c) (root : Nat) (defaults : List Default) (rest? : Option Pat) :
    ((t.targets root defaults rest?).map (·.identifier.mark)).Sublist t.marks := by
  induction t generalizing defaults rest? with
  | cons head tail ihHead ihTail =>
    change ((head.targets root defaults rest? ++ tail.targets root defaults rest?).map _).Sublist
      (head.marks ++ tail.marks)
    rw [List.map_append]
    exact (ihHead defaults rest?).append (ihTail defaults rest?)
  | present part ih => exact ih defaults rest?
  | arrayPattern m elements ih => exact (ih defaults rest?).cons m
  | assignmentPattern m left right ih _ =>
    exact ((ih (defaults ++ [⟨m, left, right⟩]) rest?).trans (List.sublist_append_left ..)).cons m
  | identifierPattern i => exact .refl [i.mark]
  | objectPattern m members ih => exact (ih defaults rest?).cons m
  | restPattern r ih => exact ih defaults rest?
  | rest m argument ih => exact (ih defaults (some argument)).cons m
  | patternProperty m key value computed shorthand _ ih =>
    exact ((ih defaults rest?).trans (List.sublist_append_right ..)).cons m
  | restMember r ih => exact ih defaults rest?
  | _ => exact List.nil_sublist _

end Tree

/-! ## Evaluated expressions -/

/-- The marks of expressions are among the marks of all their nodes. -/
theorem Expr.map_mark_sublist (l : List Expr) :
    (l.map Expr.mark).Sublist (l.flatMap Tree.marks) := by
  induction l with
  | nil => exact .slnil
  | cons e l ih =>
    obtain ⟨M, hM⟩ := Expr.marks_eq_cons e
    rw [List.map_cons, List.flatMap_cons, hM]
    exact (ih.trans (List.sublist_append_right M _)).cons_cons _

namespace Tree

variable {c d : Category} {t : Tree c} {t' : Tree d} {l : Link} {links : List Link}

private theorem Hands.isInfix_evaluated (h : t.Hands l t') : t'.evaluated <:+: t.evaluated := by
  cases h with
  | head | left => exact (List.prefix_append ..).isInfix
  | tail | value => exact (List.suffix_append ..).isInfix
  | _ => exact List.infix_rfl

private theorem ReachedFrom.isInfix_evaluated (h : t'.ReachedFrom t links) :
    t'.evaluated <:+: t.evaluated := by
  induction h with
  | here => exact List.infix_rfl
  | step hands _ ih => exact ih.trans hands.isInfix_evaluated

private theorem Evaluates.mem_evaluated {e : Expr} (h : t.Evaluates e) : e ∈ t.evaluated := by
  cases h with
  | key | property => exact List.mem_cons_self
  | default | object => exact List.mem_append_right _ (List.mem_singleton_self _)

/-- The expression is evaluated by a part of a pattern or by a part inside it. -/
def EvaluatesWithin (t : Tree c) (e : Expr) : Prop :=
  ∃ (d : Category) (u : Tree d) (links : List Link), u.ReachedFrom t links ∧ u.Evaluates e

private theorem Evaluates.within {e : Expr} (h : t.Evaluates e) : t.EvaluatesWithin e :=
  ⟨c, t, [], .here, h⟩

private theorem Hands.evaluatesWithin {e : Expr} (h : t.Hands l t') (he : t'.EvaluatesWithin e) :
    t.EvaluatesWithin e := by
  obtain ⟨d, u, links, hreached, hu⟩ := he
  exact ⟨d, u, l :: links, .step h hreached, hu⟩

private theorem evaluatesWithin_of_mem_evaluated (t : Tree c) {e : Expr} (he : e ∈ t.evaluated) :
    t.EvaluatesWithin e := by
  induction t with
  | cons head tail ihHead ihTail =>
    rcases List.mem_append.1 he with he | he
    · exact Hands.head.evaluatesWithin (ihHead he)
    · exact Hands.tail.evaluatesWithin (ihTail he)
  | present part ih => exact Hands.present.evaluatesWithin (ih he)
  | arrayPattern m elements ih => exact Hands.elements.evaluatesWithin (ih he)
  | assignmentPattern m left right ih _ =>
    rcases List.mem_append.1 he with he | he
    · exact Hands.left.evaluatesWithin (ih he)
    · rw [List.mem_singleton.1 he]
      exact Evaluates.default.within
  | memberPattern a =>
    cases a with
    | access m object property computed isOptional =>
      rcases List.mem_append.1 he with he | he
      · cases computed with
        | false => exact absurd he List.not_mem_nil
        | true =>
          rw [List.mem_singleton.1 he]
          exact Evaluates.property.within
      · rw [List.mem_singleton.1 he]
        exact Evaluates.object.within
  | objectPattern m members ih => exact Hands.members.evaluatesWithin (ih he)
  | restPattern r ih => exact Hands.restPattern.evaluatesWithin (ih he)
  | rest m argument ih => exact Hands.argument.evaluatesWithin (ih he)
  | patternProperty m key value computed shorthand _ ih =>
    rcases List.mem_append.1 he with he | he
    · cases computed with
      | false => exact absurd he List.not_mem_nil
      | true =>
        rw [List.mem_singleton.1 he]
        exact Evaluates.key.within
    · exact Hands.value.evaluatesWithin (ih he)
  | restMember r ih => exact Hands.restMember.evaluatesWithin (ih he)
  | _ => exact absurd he List.not_mem_nil

/-- What a pattern evaluates is evaluated by the parts that the links lead to. -/
theorem mem_evaluated_iff (t : Tree c) {e : Expr} : e ∈ t.evaluated ↔ t.EvaluatesWithin e := by
  refine ⟨evaluatesWithin_of_mem_evaluated t, ?_⟩
  rintro ⟨d, u, links, hreached, hu⟩
  exact hreached.isInfix_evaluated.subset hu.mem_evaluated

/-- No expression is evaluated twice if the nodes of the pattern are distinct. -/
theorem nodup_evaluated (hids : t.ids.Nodup) :
    (t.evaluated.map fun e => (Expr.mark e).id).Nodup := by
  have hcount (n : Nat) : ((t.evaluated.flatMap Tree.marks).map (·.id)).count n ≤ 1 :=
    calc ((t.evaluated.flatMap Tree.marks).map (·.id)).count n
      _ ≤ (t.marks.map (·.id)).count n :=
        Nat.le_trans (Nat.le_add_left ..) (t.count_targets_le 0 [] none n)
      _ ≤ 1 := List.nodup_iff_count_le_one.1 hids n
  have hsublist := (Expr.map_mark_sublist t.evaluated).map (·.id)
  rw [List.map_map] at hsublist
  exact (List.nodup_iff_count_le_one.2 hcount).sublist hsublist

end Tree

/-! ## What a pattern consists of -/

/-- The target stands at the end of the links into a pattern. -/
structure Target.StandsAt (p : Pat) (links : List Link) (t : Target) : Prop where
  reached : (Tree.identifierPattern t.identifier).ReachedFrom p links
  isWhole : t.isWhole = true ↔ p = .identifierPattern t.identifier
  isRest : t.isRest = true ↔ links.getLast? = some .rest
  defaults : t.defaults = links.filterMap Link.default?

namespace Pat

variable {p : Pat} {t : Target}

/-- The targets inside a pattern come after the pattern itself. -/
theorem targets_sublist_tail (hp : ∀ i, p ≠ .identifierPattern i) :
    ((Pat.targets p).map (·.identifier.mark)).Sublist (Tree.marks p).tail := by
  cases p with
  | identifierPattern i => exact absurd rfl (hp i)
  | arrayPattern m elements => exact elements.targets_sublist m.id [] none
  | objectPattern m members => exact members.targets_sublist m.id [] none
  | assignmentPattern m left right =>
    exact (left.targets_sublist m.id [⟨m, left, right⟩] none).trans (List.sublist_append_left ..)
  | restPattern r =>
    cases r with
    | rest m argument => exact argument.targets_sublist m.id [] (some argument)
  | memberPattern a => exact List.nil_sublist _

private theorem isWhole_iff (hids : (Tree.ids p).Nodup) (ht : t ∈ Pat.targets p) :
    t.isWhole = true ↔ p = .identifierPattern t.identifier := by
  by_cases hp : ∃ i, p = .identifierPattern i
  · obtain ⟨i, rfl⟩ := hp
    rw [List.mem_singleton.1 ht]
    exact iff_of_true (decide_eq_true rfl) rfl
  · have hinside := (targets_sublist_tail (not_exists.1 hp)).subset (List.mem_map_of_mem ht)
    obtain ⟨M, hM⟩ := Pat.marks_eq_cons p
    rw [Tree.ids, hM, List.map_cons, List.nodup_cons] at hids
    rw [hM, List.tail_cons] at hinside
    obtain ⟨links, i, -, rfl⟩ := (Tree.mem_targets_iff p (.inside rfl p)).1 ht
    refine iff_of_false (fun hwhole => hids.1 ?_) (fun h => hp ⟨i, h⟩)
    rw [← of_decide_eq_true hwhole]
    exact List.mem_map_of_mem hinside

private theorem mem_targets_iff_standsAt (hids : (Tree.ids p).Nodup) :
    t ∈ Pat.targets p ↔ ∃ links, t.StandsAt p links := by
  -- the last link says whether the target takes all that is left
  have hrest (links : List Link) :
      links.getLast?.elim false Link.isRest = true ↔ links.getLast? = some .rest := by
    cases links.getLast? with
    | none => simp
    | some l => simp [Link.isRest_iff]
  constructor
  · intro ht
    have hwhole := isWhole_iff hids ht
    obtain ⟨links, i, hreached, rfl⟩ := (Tree.mem_targets_iff p (.inside rfl p)).1 ht
    exact ⟨links, hreached, hwhole, hrest links, List.nil_append _⟩
  · rintro ⟨links, h⟩
    have hmem : .along (Pat.mark p).id [] false links t.identifier ∈ Pat.targets p :=
      h.reached.along_mem_targets (.inside rfl p)
    have heq : t = .along (Pat.mark p).id [] false links t.identifier := by
      obtain ⟨i, isWhole, isRest, defaults⟩ := t
      rw [Target.along, Target.mk.injEq]
      refine ⟨rfl, Bool.eq_iff_iff.2 ?_, Bool.eq_iff_iff.2 ?_, ?_⟩
      · exact h.isWhole.trans (isWhole_iff hids hmem).symm
      · exact h.isRest.trans (hrest links).symm
      · exact h.defaults.trans (List.nil_append _).symm
    rw [heq]
    exact hmem

end Pat

/-- The targets of a pattern whose nodes are distinct are the identifiers to which it hands values,
each once and in the order of the traversal, with the defaults on the way. What the pattern
evaluates are the computed keys, the default values and the parts of member targets on these ways,
each once, and these expressions are all that is walked. -/
theorem Pat.targets_and_evaluated {p : Pat} (hids : (Tree.ids p).Nodup) :
    (∀ t, t ∈ Pat.targets p ↔ ∃ links, t.StandsAt p links) ∧
      ((Pat.targets p).map (·.identifier.mark)).Sublist (Tree.marks p) ∧
      ((Pat.targets p).map (·.identifier.mark.id)).Nodup ∧
      (∀ e, e ∈ Tree.evaluated p ↔ Tree.EvaluatesWithin p e) ∧
      ((Tree.evaluated p).map fun e => (Expr.mark e).id).Nodup ∧
      ∀ o method, Tree.actions o (.code method) p =
        (Tree.evaluated p).flatMap (Tree.actions o (.code method)) := by
  have hsublist : ((Pat.targets p).map (·.identifier.mark)).Sublist (Tree.marks p) :=
    Tree.targets_sublist ..
  have htargets : ((Pat.targets p).map (·.identifier.mark.id)).Nodup := by
    have h : (((Pat.targets p).map (·.identifier.mark)).map (·.id)).Nodup :=
      hids.sublist (hsublist.map _)
    rwa [List.map_map] at h
  exact ⟨fun t => Pat.mem_targets_iff_standsAt hids, hsublist, htargets,
    fun e => Tree.mem_evaluated_iff p, Tree.nodup_evaluated hids,
    fun o method => Tree.actions_eq_evaluated p rfl method⟩

/-- The pattern `[a[b], {[k]: x = d, ...r}]`, or the same with `a.b`. -/
def Pat.mixed (computed : Bool) : Pat :=
  let mark (n : Nat) : Mark := ⟨n, ⟨n, n⟩⟩
  .arrayPattern (mark 0) (.cons
    (.present (.memberPattern (.access (mark 1) (.identifier ⟨mark 2, "a"⟩)
      (.identifier ⟨mark 3, "b"⟩) computed false)))
    (.cons (.present (.objectPattern (mark 4) (.cons
      (.patternProperty (mark 5) (.identifier ⟨mark 6, "k"⟩)
        (.assignmentPattern (mark 7) (.identifierPattern ⟨mark 8, "x"⟩)
          (.identifier ⟨mark 9, "d"⟩)) true false)
      (.cons (.restMember (.rest (mark 10) (.identifierPattern ⟨mark 11, "r"⟩))) .nil)))) .nil))

/-- Its targets are `x`, which has a default, and `r`, which takes all that is left. -/
theorem Pat.targets_and_evaluated_mixed :
    (Tree.ids (Pat.mixed true)).Nodup ∧
      (Pat.targets (Pat.mixed true)).map
        (fun t => (t.identifier.name, t.isRest, t.defaults.length)) =
          [("x", false, 1), ("r", true, 0)] ∧
      (∀ t ∈ Pat.targets (Pat.mixed true), ∃ links, t.StandsAt (Pat.mixed true) links) ∧
      (Tree.evaluated (Pat.mixed true)).map (fun e => (Expr.mark e).id) = [3, 2, 6, 9] ∧
      ∀ e ∈ Tree.evaluated (Pat.mixed true), Tree.EvaluatesWithin (Pat.mixed true) e := by
  have hids : (Tree.ids (Pat.mixed true)).Nodup := by decide
  obtain ⟨htargets, -, -, hevaluated, -⟩ := Pat.targets_and_evaluated hids
  exact ⟨hids, rfl, fun t => (htargets t).1, rfl, fun e => (hevaluated e).1⟩

/-! ## The order of evaluation -/

/-- The expressions `E` stand in the order of the marks `M`, but for the pairs that are swapped. -/
structure InOrder (swapped : Expr → Expr → Prop) (E : List Expr) (M : List Mark) : Prop where
  within : ∀ e ∈ E, (Tree.marks e).Sublist M
  pairs : E.Pairwise fun e f => (Tree.marks e ++ Tree.marks f).Sublist M ∨ swapped e f

namespace InOrder

variable {swapped swapped' : Expr → Expr → Prop} {E F : List Expr} {M N : List Mark}

private theorem nil : InOrder swapped [] M :=
  ⟨List.forall_mem_nil _, .nil⟩

private theorem single (e : Expr) : InOrder swapped [e] (Tree.marks e) :=
  ⟨List.forall_mem_singleton.2 (.refl _), List.pairwise_singleton ..⟩

private theorem append (hE : InOrder swapped E M) (hF : InOrder swapped F N) :
    InOrder swapped (E ++ F) (M ++ N) := by
  have hleft : M.Sublist (M ++ N) := List.sublist_append_left M N
  have hright : N.Sublist (M ++ N) := List.sublist_append_right M N
  constructor
  · intro e he
    rcases List.mem_append.1 he with he | he
    · exact (hE.within e he).trans hleft
    · exact (hF.within e he).trans hright
  · refine List.pairwise_append.2 ⟨?_, ?_, ?_⟩
    · exact hE.pairs.imp fun h => h.imp_left (·.trans hleft)
    · exact hF.pairs.imp fun h => h.imp_left (·.trans hright)
    · exact fun e he f hf => .inl ((hE.within e he).append (hF.within f hf))

/-- A node that is met first changes nothing. -/
private theorem below {m : Mark} (h : InOrder swapped E M) : InOrder swapped E (m :: M) :=
  append (M := [m]) nil h

private theorem mono (h : InOrder swapped E M) (hswapped : ∀ e f, swapped e f → swapped' e f) :
    InOrder swapped' E M :=
  ⟨h.within, h.pairs.imp fun hpair => hpair.imp_right (hswapped _ _)⟩

end InOrder

namespace Tree

variable {c d : Category} {t : Tree c} {t' : Tree d} {l : Link} {links : List Link}

/-- The expressions are the property and the object of a member target whose property is
computed. -/
def Swaps (t : Tree c) (property object : Expr) : Prop :=
  ∃ m isOptional links,
    (Tree.memberPattern (.access m object property true isOptional)).ReachedFrom t links

private theorem Hands.inOrder {E : List Expr} {M : List Mark} (h : t.Hands l t')
    (hE : InOrder t'.Swaps E M) : InOrder t.Swaps E M := by
  refine hE.mono ?_
  rintro e f ⟨m, isOptional, links, hreached⟩
  exact ⟨m, isOptional, l :: links, .step h hreached⟩

/-- What a pattern evaluates comes in the order of the traversal, but for the parts of member
targets. -/
theorem inOrder_evaluated (t : Tree c) : InOrder t.Swaps t.evaluated t.marks := by
  induction t with
  | cons head tail ihHead ihTail =>
    exact (Hands.head.inOrder ihHead).append (Hands.tail.inOrder ihTail)
  | present part ih => exact Hands.present.inOrder ih
  | arrayPattern m elements ih => exact (Hands.elements.inOrder ih).below
  | assignmentPattern m left right ih _ =>
    exact ((Hands.left.inOrder ih).append (.single right)).below
  | memberPattern a =>
    cases a with
    | access m object property computed isOptional =>
      cases computed with
      | false =>
        exact .below (.append (F := []) (.single object) .nil)
      | true =>
        have hobject : object.marks.Sublist (m :: (object.marks ++ property.marks)) :=
          (List.sublist_append_left ..).cons m
        have hproperty : property.marks.Sublist (m :: (object.marks ++ property.marks)) :=
          (List.sublist_append_right ..).cons m
        refine ⟨List.forall_mem_cons.2 ⟨hproperty, List.forall_mem_singleton.2 hobject⟩, ?_⟩
        exact List.pairwise_pair.2 (.inr ⟨m, isOptional, [], .here⟩)
  | objectPattern m members ih => exact (Hands.members.inOrder ih).below
  | restPattern r ih => exact Hands.restPattern.inOrder ih
  | rest m argument ih => exact (Hands.argument.inOrder ih).below
  | patternProperty m key value computed shorthand _ ih =>
    have hkey : InOrder (Swaps (.patternProperty m key value computed shorthand))
        (if computed then [key] else []) key.marks := by
      cases computed with
      | false => exact .nil
      | true => exact .single key
    exact (hkey.append (Hands.value.inOrder ih)).below
  | restMember r ih => exact Hands.restMember.inOrder ih
  | _ => exact .nil

private theorem Hands.marks_sublist (h : t.Hands l t') : t'.marks.Sublist t.marks := by
  cases h with
  | head => exact List.sublist_append_left ..
  | tail => exact List.sublist_append_right ..
  | elements | members | argument => exact List.sublist_cons_self ..
  | value => exact (List.sublist_append_right ..).cons _
  | left => exact (List.sublist_append_left ..).cons _
  | present | restPattern | restMember => exact .refl _

private theorem ReachedFrom.marks_sublist (h : t'.ReachedFrom t links) :
    t'.marks.Sublist t.marks := by
  induction h with
  | here => exact .refl _
  | step hands _ ih => exact ih.trans hands.marks_sublist

end Tree

/-- An expression that is met before another one has the smaller number. -/
theorem Expr.id_lt_of_sublist {e f : Expr} {M : List Mark}
    (hM : (M.map (·.id)).Pairwise (· < ·)) (h : (Tree.marks e ++ Tree.marks f).Sublist M) :
    (Expr.mark e).id < (Expr.mark f).id := by
  have hmarks : [Expr.mark e, Expr.mark f].Sublist M :=
    (Expr.map_mark_sublist [e, f]).trans (by simpa using h)
  exact List.pairwise_pair.1 (hM.sublist (hmarks.map _))

/-- In a pattern that is numbered in the order of the traversal, the expressions are evaluated in
the order of their numbers, except that the computed property of a member target comes right before
the object, whose number is smaller. So all are in order if and only if no member target is
computed. -/
theorem Pat.evaluated_sorted_iff {p : Pat} {n : Nat} (h : Tree.CountsFrom n p) :
    (Tree.evaluated p).Pairwise
        (fun e f => (Expr.mark e).id < (Expr.mark f).id ∨ Tree.Swaps p e f) ∧
      (∀ e f, Tree.Swaps p e f →
        [e, f] <:+: Tree.evaluated p ∧ (Expr.mark f).id < (Expr.mark e).id) ∧
      ((Tree.evaluated p).Pairwise (fun e f => (Expr.mark e).id < (Expr.mark f).id) ↔
        ∀ e f, ¬ Tree.Swaps p e f) := by
  have hsorted : (Tree.ids p).Pairwise (· < ·) := h.ids ▸ List.pairwise_lt_range'
  have hpairs : (Tree.evaluated p).Pairwise
      (fun e f => (Expr.mark e).id < (Expr.mark f).id ∨ Tree.Swaps p e f) :=
    (Tree.inOrder_evaluated p).pairs.imp fun hpair =>
      hpair.imp_left (Expr.id_lt_of_sublist hsorted)
  have hswaps (e f : Expr) (hswap : Tree.Swaps p e f) :
      [e, f] <:+: Tree.evaluated p ∧ (Expr.mark f).id < (Expr.mark e).id := by
    obtain ⟨m, isOptional, links, hreached⟩ := hswap
    refine ⟨hreached.isInfix_evaluated, Expr.id_lt_of_sublist hsorted ?_⟩
    exact (List.sublist_cons_self m _).trans hreached.marks_sublist
  refine ⟨hpairs, hswaps, fun hall e f hswap => ?_, fun hnone => ?_⟩
  · obtain ⟨htogether, hlt⟩ := hswaps e f hswap
    have hpair := hall.sublist htogether.sublist
    exact Nat.lt_asymm hlt (List.rel_of_pairwise_cons hpair (List.mem_singleton_self f))
  · exact hpairs.imp fun hpair => hpair.resolve_right (hnone _ _)

/-- The member target of `[a.b, {[k]: x = d, ...r}]` is not computed. -/
theorem Pat.evaluated_sorted_mixed :
    Tree.CountsFrom 0 (Pat.mixed false) ∧ ∀ e f, ¬ Tree.Swaps (Pat.mixed false) e f := by
  have hcounts : Tree.CountsFrom 0 (Pat.mixed false) := Tree.countsFrom_of_ids rfl
  exact ⟨hcounts, (Pat.evaluated_sorted_iff hcounts).2.2.1 (by decide)⟩

/-- The member access `a[b]`. -/
def Access.computedMember : Tree .access :=
  .access ⟨1, ⟨1, 1⟩⟩ (.identifier ⟨⟨2, ⟨2, 2⟩⟩, "a"⟩) (.identifier ⟨⟨3, ⟨3, 3⟩⟩, "b"⟩) true false

/-- The pattern `[a[b]]`. -/
def Pat.computedItem : Pat :=
  .arrayPattern ⟨0, ⟨0, 0⟩⟩ (.cons (.present (.memberPattern Access.computedMember)) .nil)

/-- In the pattern `[a[b]]` the name `b` is read before `a`, in the expression `a[b]` after it. -/
theorem Pat.evaluated_not_sorted :
    Tree.CountsFrom 0 Pat.computedItem ∧
      ¬ (Tree.evaluated Pat.computedItem).Pairwise
        (fun e f => (Expr.mark e).id < (Expr.mark f).id) ∧
      ∀ o method,
        Tree.actions o (.code method) Pat.computedItem =
          [.refer ⟨⟨3, ⟨3, 3⟩⟩, "b"⟩ .read none, .refer ⟨⟨2, ⟨2, 2⟩⟩, "a"⟩ .read none] ∧
        Tree.actions o (.code method) (.memberExpression Access.computedMember) =
          [.refer ⟨⟨2, ⟨2, 2⟩⟩, "a"⟩ .read none, .refer ⟨⟨3, ⟨3, 3⟩⟩, "b"⟩ .read none] :=
  ⟨Tree.countsFrom_of_ids rfl, by decide, fun _ _ => ⟨rfl, rfl⟩⟩

end EcmaScope
