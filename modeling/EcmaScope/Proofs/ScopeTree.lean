import EcmaScope.Proofs.Runs
import Mathlib.Data.List.Chain
import Mathlib.Data.Nat.Find

/-!
# The tree of scopes

The scopes of an analyzed program whose nodes are distinct form a tree. They are numbered in the
order in which they are opened, which is a preorder of the tree: a scope comes before the scopes
inside it, and these come before everything that is opened later outside of it.

A node may open several scopes; they lie one inside the other with nothing in between.

## Main definitions

* `Analysis.upper?`, `Analysis.Inside`: the scope around a scope, and all those around it.
* `Analysis.IsTree`: what is true of the tree of scopes.

## Main results

* `Analysis.inside_iff`: the scopes around a scope are those that it lists.
* `Program.scopes_isTree`: the scopes of a program form a tree.
-/

namespace EcmaScope

namespace Analysis

/-- The scope around a scope. -/
def upper? (a : Analysis) (s : Nat) : Option Nat :=
  a.scopes[s]?.bind (·.upper?)

/-- The scope `t` is the scope `s` or lies inside it. -/
def Inside (a : Analysis) (t s : Nat) : Prop :=
  Relation.ReflTransGen (fun t u => a.upper? t = some u) t s

theorem upper?_eq (a : Analysis) (s : Nat) :
    a.upper? s = (a.frame? s).bind (·.enclosing.head?) := by
  unfold upper? frame?
  cases a.scopes[s]? <;> rfl

theorem upper?_of_frame {a : Analysis} {s : Nat} {f : Frame} (hf : a.frame? s = some f) :
    a.upper? s = f.enclosing.head? := by
  rw [upper?_eq, hf]
  rfl

/-- The scopes of a chain are around its first one. -/
theorem inside_of_chained {a : Analysis} {t : Nat} {l : List Nat} (h : Chained a.frame? (t :: l))
    {s : Nat} (hs : s ∈ t :: l) : a.Inside t s := by
  induction l generalizing t with
  | nil =>
    rw [List.mem_singleton.mp hs]
    exact .refl
  | cons u l ih =>
    rcases List.mem_cons.mp hs with rfl | hs
    · exact .refl
    · obtain ⟨f, hf, henclosing⟩ := h.frame
      refine .head ?_ (ih h.tail hs)
      rw [upper?_of_frame hf, henclosing]
      rfl

/-- A scope that lists the scopes around it lies inside exactly these. -/
theorem inside_iff {a : Analysis} {size : Nat} {stack : List Nat} {owned : Nat → List Nat}
    (h : Layout a.frame? size stack owned) {t s : Nat} {f : Frame} (hf : a.frame? t = some f) :
    a.Inside t s ↔ s ∈ t :: f.enclosing := by
  constructor
  · intro hinside
    induction hinside using Relation.ReflTransGen.head_induction_on generalizing f with
    | refl => exact List.mem_cons_self
    | @head t u hu _ ih =>
      rw [upper?_of_frame hf] at hu
      obtain ⟨rest, hrest⟩ := List.head?_eq_some_iff.mp hu
      have hchained := h.chained_enclosing hf
      rw [hrest] at hchained
      obtain ⟨g, hg, henclosing⟩ := hchained.frame
      rw [hrest, ← henclosing]
      exact List.mem_cons_of_mem t (ih hg)
  · exact inside_of_chained (.cons hf (h.chained_enclosing hf))

/-- The scopes form a tree whose root is the scope `0` and of which their numbers are a preorder. -/
structure IsTree (a : Analysis) : Prop where
  size_pos : 0 < a.scopes.size
  upper?_zero : a.upper? 0 = none
  upper?_lt : ∀ s, 0 < s → s < a.scopes.size → ∃ u, a.upper? s = some u ∧ u < s
  inside_zero : ∀ s, s < a.scopes.size → a.Inside s 0
  children_eq : ∀ s y, a.scopes[s]? = some y →
    y.children.toList = (List.range a.scopes.size).filter fun t => a.upper? t = some s
  /-- The scopes inside a scope are numbered from the scope on without gaps. -/
  inside_interval : ∀ s, s < a.scopes.size → ∃ stop, stop ≤ a.scopes.size ∧
    ∀ t, t < a.scopes.size → (a.Inside t s ↔ s ≤ t ∧ t < stop)
  /-- What `var` declares is bound by the nearest global, module or function scope. -/
  variableScope_nearest : ∀ s y, a.scopes[s]? = some y → a.Inside s y.variableScope ∧
    (∃ z, a.scopes[y.variableScope]? = some z ∧ z.kind ∈ [.global, .module, .function]) ∧
    ∀ u z, a.Inside s u → a.scopes[u]? = some z → z.kind ∈ [.global, .module, .function] →
      a.Inside y.variableScope u
  scopesOf_eq : ∀ n, a.scopesOf n =
    (List.range a.scopes.size).filter fun t => a.scopes[t]?.any (·.block.id = n)
  /-- The scopes of a node lie one inside the other, with nothing in between. -/
  scopesOf_chain : ∀ n, (a.scopesOf n).IsChain fun s t => a.upper? t = some s

end Analysis

theorem ScopeKind.isVariableScope_iff (kind : ScopeKind) :
    kind.isVariableScope = true ↔ kind ∈ [.global, .module, .function] := by
  cases kind <;> decide

namespace Layout

variable {frame? : Nat → Option Frame} {size : Nat} {stack : List Nat} {owned : Nat → List Nat}

/-- The scopes inside a scope are numbered from the scope on without gaps. -/
theorem exists_interval (h : Layout frame? size stack owned) {s : Nat} (hs : s < size) :
    ∃ stop, stop ≤ size ∧
      ∀ t f, frame? t = some f → (s ∈ t :: f.enclosing ↔ s ≤ t ∧ t < stop) := by
  classical
  -- the first later scope that is not inside, or else the next one to be opened
  have hexists : ∃ stop, s < stop ∧ ∀ f, frame? stop = some f → s ∉ f.enclosing :=
    ⟨size, hs, fun f hf => by rw [h.frame?_size] at hf; cases hf⟩
  obtain ⟨hlt, hout⟩ := Nat.find_spec hexists
  refine ⟨Nat.find hexists, Nat.find_min' hexists ⟨hs, fun f hf => ?_⟩, fun t f hf => ?_⟩
  · rw [h.frame?_size] at hf
    cases hf
  constructor
  · intro hmem
    rcases List.mem_cons.mp hmem with rfl | hmem
    · exact ⟨Nat.le_refl s, hlt⟩
    · have hst := h.enclosing_lt hf s hmem
      refine ⟨Nat.le_of_lt hst, Nat.lt_of_not_le fun hle => ?_⟩
      obtain ⟨g, hg⟩ := h.exists_frame (Nat.lt_of_le_of_lt hle (h.lt_size hf))
      exact hout g hg (h.mem_enclosing_of_between hf hmem hg hlt hle)
  · rintro ⟨hle, hstop⟩
    rcases Nat.eq_or_lt_of_le hle with rfl | hst
    · exact List.mem_cons_self
    · have hmin := Nat.find_min hexists hstop
      by_contra hmem
      refine hmin ⟨hst, fun g hg hmem' => hmem ?_⟩
      rw [hf] at hg
      cases hg
      exact List.mem_cons_of_mem t hmem'

/-- What `var` declares inside a scope is bound by a scope that binds such names, and all others of
this kind are around that one. -/
theorem variableScope_nearest (h : Layout frame? size stack owned) {s : Nat} {f : Frame}
    (hf : frame? s = some f) : ∃ g, frame? f.variableScope = some g ∧
      g.kind.isVariableScope = true ∧ ∀ u f', u ∈ s :: f.enclosing → frame? u = some f' →
        f'.kind.isVariableScope = true → u ∈ f.variableScope :: g.enclosing := by
  refine h.variableScope_induction (P := fun s f => ∃ g, frame? f.variableScope = some g ∧
    g.kind.isVariableScope = true ∧ ∀ u f', u ∈ s :: f.enclosing → frame? u = some f' →
      f'.kind.isVariableScope = true → u ∈ f.variableScope :: g.enclosing)
    (fun {s f} hf hkind hvar => ?_) (fun {s f u g} hf hkind hg henclosing hvar ih => ?_) hf
  · rw [hvar]
    exact ⟨f, hf, hkind, fun u f' hu _ _ => hu⟩
  · obtain ⟨g', hg', hkind', hnearest⟩ := ih
    rw [hvar]
    refine ⟨g', hg', hkind', fun w f' hw hf' hkind'' => hnearest w f' ?_ hf' hkind''⟩
    rcases List.mem_cons.mp hw with rfl | hw
    · rw [hf] at hf'
      cases hf'
      rw [hkind] at hkind''
      cases hkind''
    · rwa [henclosing] at hw

end Layout

namespace Builder

variable {b b' : Builder} {o : Options}

/-- Only the first scope has no scope around it, and the scopes of a node lie directly in each
other. -/
structure Family (b : Builder) : Prop where
  eq_zero : ∀ {t f}, b.frame? t = some f → f.enclosing = [] → t = 0
  chain : ∀ n, (b.scopesOf n).IsChain fun s t => b.upper? t = some s

namespace Family

theorem empty : Family {} where
  eq_zero hf := by
    obtain ⟨y, hy, -⟩ := Analysis.frame?_eq_some hf
    simp at hy
  chain n := by simp [Analysis.scopesOf]

/-- As long as no scope is opened, nothing changes. -/
theorem of_upper (hb : Family b) (hscopes : b'.scopesOf = b.scopesOf)
    (hframe : ∀ {t f'}, b'.frame? t = some f' →
      ∃ f, b.frame? t = some f ∧ f'.enclosing = f.enclosing)
    (hupper : b'.upper? = b.upper?) : Family b' where
  eq_zero hf' hnil := by
    obtain ⟨f, hf, henclosing⟩ := hframe hf'
    exact hb.eq_zero hf (henclosing ▸ hnil)
  chain n := by
    rw [hscopes, hupper]
    exact hb.chain n

theorem opened {g : Frame} (hb : Family b) (hwell : WellFormed b) (h : Opened g b b')
    (hempty : b.stack = [] → b.scopes.size = 0)
    (hlast : ∀ t, (b.scopesOf g.block.id).getLast? = some t → b.stack.head? = some t) :
    Family b' := by
  have hnew : b'.upper? b.scopes.size = b.stack.head? := by
    rw [Analysis.upper?_eq, h.frame?, Layout.pushed_size, Option.bind_some, h.enclosing]
  have hold : ∀ t, t ≠ b.scopes.size → b'.upper? t = b.upper? t := fun t ht => by
    rw [Analysis.upper?_eq, Analysis.upper?_eq, h.frame?, Layout.pushed, if_neg ht]
    cases b.frame? t <;> rfl
  constructor
  · intro t f' hf' hnil
    rw [h.frame?] at hf'
    rcases hwell.layout.pushed_cases hf' with ⟨rfl, rfl⟩ | ⟨-, f, hf, rfl⟩
    · rw [h.enclosing] at hnil
      exact hempty hnil
    · exact hb.eq_zero hf hnil
  · intro n
    have hsame : (b.scopesOf n).IsChain fun s t => b'.upper? t = some s := by
      refine (hb.chain n).imp fun s t hupper => ?_
      rw [hold t, hupper]
      rintro rfl
      rw [Analysis.upper?_eq, hwell.layout.frame?_size] at hupper
      cases hupper
    rw [h.scopesOf]
    split
    · next hn =>
      refine hsame.append (.singleton _) fun s hs t ht => ?_
      rw [← hn] at hs
      cases ht
      rw [hnew, hlast s hs]
    · rwa [List.append_nil]

end Family

private theorem Move.family (h : Move o True b b') (hwell : WellFormed b) (hb : Family b) :
    Family b' := by
  cases h with
  | opened h hempty hlast => exact hb.opened hwell h (hempty trivial) (hlast trivial)
  | referred h =>
    refine hb.of_upper (scopesOf_eq h.owned) (fun {t f'} hf' => ?_) ?_
    · exact ⟨f', by rw [← h.frame?, hf'], rfl⟩
    · funext t
      rw [Analysis.upper?_eq, Analysis.upper?_eq, h.frame?]
  | closed h =>
    refine hb.of_upper (scopesOf_eq h.owned) (fun {t f'} hf' => ?_) ?_
    · rw [h.frame?] at hf'
      obtain ⟨f, hf, rfl⟩ := Layout.closed_eq_some hf'
      exact ⟨f, hf, rfl⟩
    · funext t
      rw [Analysis.upper?_eq, Analysis.upper?_eq, h.frame?, Layout.closed]
      cases b.frame? t <;> rfl
  | quiet h =>
    refine hb.of_upper (scopesOf_eq h.owned) (fun {t f'} hf' => ?_) ?_
    · exact ⟨f', by rw [← h.frame?, hf'], rfl⟩
    · funext t
      rw [Analysis.upper?_eq, Analysis.upper?_eq, h.frame?]
  | sited sites h =>
    subst h
    exact ⟨hb.eq_zero, hb.chain⟩

theorem Moves.family (h : Moves o True b b') (hwell : WellFormed b) (hb : Family b) :
    Family b' := by
  induction h with
  | refl => exact hb
  | tail hmoves hmove ih => exact hmove.family (Moves.wellFormed hmoves hwell) ih

/-- Well-formed tables in which only the first scope has no scope around it hold a tree. -/
theorem WellFormed.isTree (hb : WellFormed b) (hfamily : Family b) (hsize : 0 < b.scopes.size) :
    b.IsTree := by
  have hupper : ∀ s, 0 < s → s < b.scopes.size → ∃ u, b.upper? s = some u ∧ u < s := by
    intro s hpos hs
    obtain ⟨f, hf⟩ := hb.layout.exists_frame hs
    cases henclosing : f.enclosing with
    | nil => exact absurd (hfamily.eq_zero hf henclosing) (Nat.ne_of_gt hpos)
    | cons u rest =>
      refine ⟨u, ?_, hb.layout.enclosing_lt hf u ?_⟩
      · rw [Analysis.upper?_of_frame hf, henclosing]
        rfl
      · rw [henclosing]
        exact List.mem_cons_self
  exact {
    size_pos := hsize
    upper?_zero := by
      obtain ⟨f, hf⟩ := hb.layout.exists_frame hsize
      rw [Analysis.upper?_of_frame hf, List.head?_eq_none_iff, List.eq_nil_iff_forall_not_mem]
      exact fun u hu => Nat.not_lt_zero u (hb.layout.enclosing_lt hf u hu)
    upper?_lt := hupper
    inside_zero := fun s hs => by
      induction s using Nat.strongRecOn with
      | ind s ih =>
        rcases Nat.eq_zero_or_pos s with rfl | hpos
        · exact .refl
        · obtain ⟨u, hu, hlt⟩ := hupper s hpos hs
          exact .head hu (ih u hlt (Nat.lt_trans hlt hs))
    children_eq := fun s y hy => by
      refine (hb.layout.children_eq (Analysis.frame?_of_getElem? hy)).trans ?_
      apply List.filter_congr
      intro t _
      rw [Analysis.upper?_eq]
      cases b.frame? t <;> simp
    inside_interval := fun s hs => by
      obtain ⟨stop, hstop, hiff⟩ := hb.layout.exists_interval hs
      refine ⟨stop, hstop, fun t ht => ?_⟩
      obtain ⟨f, hf⟩ := hb.layout.exists_frame ht
      rw [Analysis.inside_iff hb.layout hf, hiff t f hf]
    variableScope_nearest := fun s y hy => by
      have hf := Analysis.frame?_of_getElem? hy
      obtain ⟨g, hg, hkind, hnearest⟩ := hb.layout.variableScope_nearest hf
      refine ⟨(Analysis.inside_iff hb.layout hf).mpr (hb.layout.variableScope_mem hf), ?_, ?_⟩
      · obtain ⟨z, hz, rfl⟩ := Analysis.frame?_eq_some hg
        exact ⟨z, hz, (ScopeKind.isVariableScope_iff _).mp hkind⟩
      · intro u z hinside hz hkind
        rw [Analysis.inside_iff hb.layout hf] at hinside
        have hkind := (ScopeKind.isVariableScope_iff _).mpr hkind
        exact (Analysis.inside_iff hb.layout hg).mpr
          (hnearest u z.frame hinside (Analysis.frame?_of_getElem? hz) hkind)
    scopesOf_eq := fun n => by
      rw [hb.layout.owned_eq]
      apply List.filter_congr
      intro t _
      unfold Analysis.frame?
      cases b.scopes[t]? <;> rfl
    scopesOf_chain := hfamily.chain }

end Builder

/-- The scopes of a program whose nodes are distinct form a tree, and their numbers are a preorder
of it. -/
theorem Program.scopes_isTree {o : Options} {p : Program} {a : Analysis}
    (hids : (Tree.ids p).Nodup) (h : Program.analyze o p = .ok a) : a.IsTree := by
  obtain ⟨b, rfl, hb⟩ := Program.exists_finished h
  obtain ⟨f, hf, -⟩ := hb.zero
  have hmoves := hb.moves.mono fun _ : True => hids
  exact hb.wellFormed.isTree (hmoves.family .empty .empty) (hb.wellFormed.layout.lt_size hf)

/-- In a loop over the value of a function expression, a node has three scopes. -/
theorem Program.scopes_isTree_loop : (Tree.ids (Program.loopOverFunction id)).Nodup ∧
    ∃ a, Program.analyze .es6 (.loopOverFunction id) = .ok a ∧ a.IsTree ∧
      a.scopesOf 5 = [1, 2, 3] := by
  have hids : (Tree.ids (Program.loopOverFunction id)).Nodup := by decide
  have hscopes : ((Program.analyze .es6 (.loopOverFunction id)).toOption.map (·.scopesOf 5)) =
    some [1, 2, 3] := by decide +kernel
  cases h : Program.analyze .es6 (.loopOverFunction id) with
  | error e =>
    rw [h] at hscopes
    cases hscopes
  | ok a =>
    rw [h] at hscopes
    exact ⟨hids, a, rfl, Program.scopes_isTree hids h, Option.some.inj hscopes⟩

end EcmaScope
