import EcmaScope.Tree.Map
import EcmaScope.Tree.Numbering
import EcmaScope.Reading.Tree
import EcmaScope.Proofs.Roles

/-!
# The numbers of nodes

Numbering a tree gives its nodes the numbers `0`, `1`, `2` and so on in traversal order. This module
says so for every tree, together with what makes the numbers useful: nothing but the numbers
changes, the old numbers do not matter, no number occurs twice, and the nodes of each part have
consecutive numbers that begin with the part's own node.

## Main definitions

* `Numbered`: marks with consecutive numbers in place of their own.
* `Tree.CountsFrom`: the nodes of a tree have consecutive numbers, its own node first.

## Main results

* `Tree.numbered`: what numbering does to the marks of a tree.
* `Tree.relabel_numberFrom`, `Tree.numberFrom_relabel`: numbering keeps all but the numbers, and
  does not look at the old ones.
* `Tree.marks_infix`: the marks of a part stand together in those of the tree.
* `Tree.number_preorder`: the numbering of trees, and of the programs that are read.
-/

namespace EcmaScope

/-- The marks `M'` are the marks `M` numbered from `n` on, and `k` is the next free number. -/
structure Numbered (n : Nat) (M M' : List Mark) (k : Nat) : Prop where
  marks : M' = (M.zipIdx n).map fun p => p.1.withId p.2
  next : k = n + M.length

namespace Numbered

variable {n k₁ k : Nat} {m : Mark} {M M' N N' : List Mark}

private theorem nil : Numbered n [] [] n :=
  ⟨rfl, rfl⟩

private theorem cons (h : Numbered (n + 1) M M' k) : Numbered n (m :: M) (m.withId n :: M') k := by
  constructor
  · rw [h.marks]
    rfl
  · rw [h.next, List.length_cons]
    omega

private theorem append (hM : Numbered n M M' k₁) (hN : Numbered k₁ N N' k) :
    Numbered n (M ++ N) (M' ++ N') k := by
  constructor
  · rw [hM.marks, hN.marks, List.zipIdx_append, List.map_append, hM.next]
  · rw [hN.next, hM.next, List.length_append]
    omega

private theorem leaf : Numbered n [m] [m.withId n] (n + 1) :=
  nil.cons

private theorem ids (h : Numbered n M M' k) : M'.map (·.id) = List.range' n M.length := by
  rw [h.marks, List.map_map, ← List.zipIdx_map_snd n M]
  rfl

private theorem length (h : Numbered n M M' k) : M'.length = M.length := by
  rw [h.marks, List.length_map, List.length_zipIdx]

end Numbered

namespace Tree

/-! ## What numbering does -/

private theorem numbered_name (i : Option Identifier) (n : Nat) :
    Numbered n (i.map (·.mark)).toList ((numberName i n).1.map (·.mark)).toList
      (numberName i n).2 :=
  match i with
  | none => .nil
  | some _ => .leaf

private theorem numbered_source (l : Option Literal) (n : Nat) :
    Numbered n (l.map (·.mark)).toList ((numberSource l n).1.map (·.mark)).toList
      (numberSource l n).2 :=
  match l with
  | none => .nil
  | some _ => .leaf

private theorem numbered_quasis (q : List TemplateElement) (n : Nat) :
    Numbered n (q.map (·.mark)) ((numberQuasis q n).1.map (·.mark)) (numberQuasis q n).2 := by
  induction q generalizing n with
  | nil => exact .nil
  | cons _ _ ih => exact (ih (n + 1)).cons

/-- The nodes of a tree are numbered one after the other. -/
theorem numbered {c : Category} (t : Tree c) (n : Nat) :
    Numbered n t.marks (t.numberFrom n).1.marks (t.numberFrom n).2 := by
  induction t generalizing n
  -- Every constructor lists its marks in the order in which it numbers them.
  all_goals repeat' first
    | apply Numbered.cons
    | apply Numbered.append
    | exact .nil
    | apply_assumption
    | apply numbered_name
    | apply numbered_source
    | apply numbered_quasis

/-! ## What numbering keeps -/

/-- Sets the number of a mark to zero. -/
def eraseId (m : Mark) : Mark :=
  { m with id := 0 }

private theorem map_numberName (i : Option Identifier) (n : Nat) :
    (numberName i n).1.map (·.map eraseId id) = i.map (·.map eraseId id) := by
  cases i <;> rfl

private theorem map_numberSource (l : Option Literal) (n : Nat) :
    (numberSource l n).1.map (·.mapMark eraseId) = l.map (·.mapMark eraseId) := by
  cases l <;> rfl

private theorem map_numberQuasis (q : List TemplateElement) (n : Nat) :
    (numberQuasis q n).1.map (·.mapMark eraseId) = q.map (·.mapMark eraseId) := by
  induction q generalizing n with
  | nil => rfl
  | cons q _ ih => exact congrArg (q.mapMark eraseId :: ·) (ih (n + 1))

/-- Numbering a tree changes nothing but the numbers. -/
theorem relabel_numberFrom {c : Category} (t : Tree c) (n : Nat) :
    (t.numberFrom n).1.relabel (fun _ => 0) = t.relabel fun _ => 0 := by
  induction t generalizing n
  all_goals
    conv => lhs; whnf
    conv => rhs; whnf
    try congr 1
  all_goals first
    | apply map_numberName
    | apply map_numberSource
    | apply map_numberQuasis
    | apply_assumption

private theorem numberName_relabel (f : Nat → Nat) (i : Option Identifier) (n : Nat) :
    numberName (i.map (·.map (fun m => { m with id := f m.id }) id)) n = numberName i n := by
  cases i <;> rfl

private theorem numberSource_relabel (f : Nat → Nat) (l : Option Literal) (n : Nat) :
    numberSource (l.map (·.mapMark fun m => { m with id := f m.id })) n = numberSource l n := by
  cases l <;> rfl

private theorem numberQuasis_relabel (f : Nat → Nat) (q : List TemplateElement) (n : Nat) :
    numberQuasis (q.map (·.mapMark fun m => { m with id := f m.id })) n = numberQuasis q n := by
  induction q generalizing n with
  | nil => rfl
  | cons q qs ih =>
    change (q.withId n :: (numberQuasis (qs.map _) (n + 1)).1,
      (numberQuasis (qs.map _) (n + 1)).2) = _
    rw [ih (n + 1)]
    rfl

/-- Numbering a tree does not depend on the numbers that it had. -/
theorem numberFrom_relabel {c : Category} (f : Nat → Nat) (t : Tree c) (n : Nat) :
    (t.relabel f).numberFrom n = t.numberFrom n := by
  unfold relabel
  induction t generalizing n
  all_goals
    conv => lhs; whnf
    try simp only [*, numberName_relabel, numberSource_relabel, numberQuasis_relabel]
    rfl

theorem number_relabel {c : Category} (f : Nat → Nat) (t : Tree c) :
    (t.relabel f).number = t.number :=
  congrArg Prod.fst (numberFrom_relabel f t 0)

private theorem number_number {c : Category} (t : Tree c) : t.number.number = t.number :=
  calc t.number.number
    _ = (t.number.relabel fun _ => 0).number := (number_relabel _ _).symm
    _ = (t.relabel fun _ => 0).number := congrArg number (relabel_numberFrom t 0)
    _ = t.number := number_relabel _ _

/-! ## Parts -/

/-- The marks of each of the pieces `P` stand together in the marks `M`. -/
def Together (P : List Piece) (M : List Mark) : Prop :=
  ∀ u ∈ P, u.tree.marks <:+: M

namespace Together

variable {P Q : List Piece} {M N : List Mark} {m : Mark}

private theorem nil : Together [] M :=
  fun _ hu => nomatch hu

private theorem self {c : Category} {role : Role} {t : Tree c} (h : Together P t.marks) :
    Together (⟨c, role, t⟩ :: P) t.marks := by
  intro u hu
  rcases List.mem_cons.1 hu with rfl | hu
  · exact List.infix_rfl
  · exact h u hu

private theorem below (h : Together P M) : Together P (m :: M) :=
  fun u hu => List.infix_cons (h u hu)

private theorem left (h : Together P M) : Together P (M ++ N) :=
  fun u hu => (h u hu).trans (List.prefix_append M N).isInfix

private theorem right (h : Together P N) : Together P (M ++ N) :=
  fun u hu => (h u hu).trans (List.suffix_append M N).isInfix

private theorem append (hP : Together P M) (hQ : Together Q N) : Together (P ++ Q) (M ++ N) := by
  intro u hu
  rcases List.mem_append.1 hu with hu | hu
  · exact hP.left u hu
  · exact hQ.right u hu

end Together

/-- The marks of a part of a tree stand together in the marks of the tree. -/
theorem marks_infix {c : Category} (o : Options) (role : Role) (t : Tree c) :
    Together (t.pieces o role) t.marks := by
  induction t generalizing role
  case exportNamedDeclaration hd hs => exact .self (.below (.left (.append (hd _) (hs _))))
  all_goals apply Together.self
  all_goals repeat' first
    | apply Together.append
    | exact .nil
    | apply_assumption
    | apply Together.below
    | (apply Together.left; apply_assumption)
    | (apply Together.right; apply_assumption)

/-- The mark of a tree's own node is the first of its marks. -/
theorem marks_eq_cons {c : Category} {t : Tree c} {m : Mark} (hm : m ∈ t.ownMarks.head?) :
    ∃ M, t.marks = m :: M := by
  cases t
  all_goals first
    | exact (Option.some.inj hm) ▸ ⟨_, rfl⟩
    | nomatch hm

/-- The nodes of a tree are numbered from `n` on without a gap, and the tree's own node comes before
the nodes below it. -/
structure CountsFrom {c : Category} (n : Nat) (t : Tree c) : Prop where
  ids : t.ids = List.range' n t.marks.length
  own : ∀ m ∈ t.ownMarks.head?, ∃ below, t.ids = m.id :: below ∧ ∀ k ∈ below, m.id < k

theorem countsFrom_of_ids {c : Category} {t : Tree c} {n : Nat}
    (h : t.ids = List.range' n t.marks.length) : t.CountsFrom n := by
  refine ⟨h, fun m hm => ?_⟩
  obtain ⟨M, hM⟩ := marks_eq_cons hm
  have hids : t.ids = m.id :: M.map (·.id) := by rw [Tree.ids, hM, List.map_cons]
  have hsorted : t.ids.Pairwise (· < ·) := h ▸ List.pairwise_lt_range'
  rw [hids] at hsorted
  exact ⟨_, hids, fun k hk => List.rel_of_pairwise_cons hsorted hk⟩

/-- The numbers of a part of a tree are consecutive if those of the tree are. -/
theorem CountsFrom.piece {c : Category} {t : Tree c} {n : Nat} (h : t.CountsFrom n) {o : Options}
    {role : Role} {u : Piece} (hu : u ∈ t.pieces o role) : ∃ k, u.tree.CountsFrom k := by
  obtain ⟨A, B, hAB⟩ := marks_infix o role t u hu
  refine ⟨n + A.length, countsFrom_of_ids ?_⟩
  have hids : A.map (·.id) ++ (u.tree.marks.map (·.id) ++ B.map (·.id)) =
      List.range' n A.length ++ (List.range' (n + A.length) u.tree.marks.length ++
        List.range' (n + A.length + u.tree.marks.length) B.length) :=
    calc A.map (·.id) ++ (u.tree.marks.map (·.id) ++ B.map (·.id))
      _ = t.ids := by rw [Tree.ids, ← hAB, List.map_append, List.map_append, List.append_assoc]
      _ = List.range' n (A.length + (u.tree.marks.length + B.length)) := by
        rw [h.ids, ← hAB, List.length_append, List.length_append, Nat.add_assoc]
      _ = _ := by rw [List.range'_append_1, List.range'_append_1]
  exact (List.append_inj (List.append_inj hids (by simp)).2 (by simp)).1

private theorem countsFrom_number {c : Category} (t : Tree c) : t.number.CountsFrom 0 := by
  have h := t.numbered 0
  apply countsFrom_of_ids
  rw [Tree.ids, Tree.number, h.ids, h.length]

private theorem nodup_ids_number {c : Category} (t : Tree c) : t.number.ids.Nodup :=
  (countsFrom_number t).ids ▸ List.nodup_range'

end Tree

private theorem Program.exists_number_of_ofJson {value : Json} {p : Program}
    (h : Program.ofJson value = .ok p) : ∃ q : Program, p = Tree.number q := by
  unfold Program.ofJson at h
  split at h
  · split at h
    · cases hq : value.read .program with
      | ok q =>
        rw [hq] at h
        exact ⟨q, (Except.ok.inj h).symm⟩
      | error e =>
        rw [hq] at h
        nomatch h
    · nomatch h
  · nomatch h

private theorem Program.ofJson_of_ofText {text : String} {p : Program}
    (h : Program.ofText text = .ok p) : ∃ value, Program.ofJson value = .ok p := by
  unfold Program.ofText at h
  split at h
  · nomatch h
  · split at h
    · rename_i hq
      exact ⟨_, Except.ok.inj h ▸ hq⟩
    · nomatch h

private theorem Program.nodup_ids_of_ofJson {value : Json} {p : Program}
    (h : Program.ofJson value = .ok p) : (Tree.ids p).Nodup := by
  obtain ⟨q, rfl⟩ := Program.exists_number_of_ofJson h
  exact Tree.nodup_ids_number q

/-- Numbering a tree counts its nodes and gives the node at place `k` of the traversal the number
`k`. It keeps all but the numbers and does not look at the old ones. The nodes of every part then
have consecutive numbers, its own node first, no number occurs twice, and numbering once more
changes nothing. So no number occurs twice in a program that has been read. -/
theorem Tree.number_preorder :
    (∀ {c : Category} (t : Tree c),
      (t.numberFrom 0).2 = t.marks.length ∧
      t.number.marks = t.marks.zipIdx.map (fun p => p.1.withId p.2) ∧
      t.number.relabel (fun _ => 0) = t.relabel (fun _ => 0) ∧
      (∀ f, (t.relabel f).number = t.number) ∧
      t.number.ids = List.range t.marks.length ∧ t.number.ids.Nodup ∧
      (∀ o role, ∀ u ∈ t.number.pieces o role, ∃ n, u.tree.CountsFrom n) ∧
      t.number.number = t.number) ∧
    (∀ value p, Program.ofJson value = .ok p → (Tree.ids p).Nodup) ∧
    ∀ text p, Program.ofText text = .ok p → (Tree.ids p).Nodup := by
  refine ⟨fun t => ?_, fun value p hp => Program.nodup_ids_of_ofJson hp, fun text p hp => ?_⟩
  · have h := t.numbered 0
    exact ⟨h.next.trans (Nat.zero_add _), h.marks, relabel_numberFrom t 0,
      fun f => number_relabel f t, h.ids.trans List.range_eq_range'.symm, nodup_ids_number t,
      fun _ _ _ hu => (countsFrom_number t).piece hu, number_number t⟩
  · obtain ⟨value, hvalue⟩ := Program.ofJson_of_ofText hp
    exact Program.nodup_ids_of_ofJson hvalue

/-- A program that throws `this`, as a value. -/
def Program.throwingThis : Json :=
  .object [("type", .string "Program"), ("sourceType", .string "script"),
    ("body", .array [.object [("type", .string "ThrowStatement"),
      ("argument", .object [("type", .string "ThisExpression")])]])]

/-- The same program as a text. -/
def Program.throwingThisText : String :=
  "\x7b\"type\":\"Program\",\"sourceType\":\"script\",\"body\":[\x7b\"type\":\"ThrowStatement\"," ++
    "\"argument\":\x7b\"type\":\"ThisExpression\"\x7d\x7d]\x7d"

/-- A program that throws `this` is read with distinct numbers, as a value and as a text. -/
theorem Tree.number_preorder_throwing :
    (∃ p, Program.ofJson Program.throwingThis = .ok p ∧ (Tree.ids p).Nodup) ∧
      ∃ p, Program.ofText Program.throwingThisText = .ok p ∧ (Tree.ids p).Nodup := by
  have hvalue : ((Program.ofJson Program.throwingThis).toOption.map Tree.ids) =
    some [0, 1, 2] := by decide +kernel
  have htext : ((Program.ofText Program.throwingThisText).toOption.map Tree.ids) =
    some [0, 1, 2] := by decide +kernel
  constructor
  · cases hp : Program.ofJson Program.throwingThis with
    | ok p => exact ⟨p, rfl, Tree.number_preorder.2.1 _ p hp⟩
    | error e => rw [hp] at hvalue; nomatch hvalue
  · cases hp : Program.ofText Program.throwingThisText with
    | ok p => exact ⟨p, rfl, Tree.number_preorder.2.2 _ p hp⟩
    | error e => rw [hp] at htext; nomatch htext

end EcmaScope
