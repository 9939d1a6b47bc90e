import EcmaScope.Proofs.Tables

/-!
# The layout of the scopes

What is fixed when a scope is opened, together with the list of its children and with whether it is
still open, is its frame. The layout of the scopes is what can be said of the frames, of the stack
of open scopes and of the lists of scopes that nodes own, without looking at names: the scopes
around a scope are a chain, a scope that is opened lies in all scopes that are open, and so on.

A layout holds after every sequence of actions, whatever the numbers of the nodes are.

## Main definitions

* `Frame`, `Scope.frame`, `Analysis.frame?`: the frames of the scopes.
* `Chained`: a list of scopes, each one directly around the one before it.
* `Layout`: the invariant.

## Main results

* `Layout.push`, `Layout.close`: opening and closing a scope keep the layout.
-/

namespace EcmaScope

/-- What is known of a scope without its names. -/
structure Frame where
  kind : ScopeKind
  block : Anchor
  isStrict : Bool
  enclosing : List Nat
  variableScope : Nat
  children : List Nat
  isOpen : Bool

/-- The frame of a scope. -/
def Scope.frame (y : Scope) : Frame :=
  ⟨y.kind, y.block, y.isStrict, y.enclosing, y.variableScope, y.children.toList, y.pending.isSome⟩

/-- The frame of the scope with a number. -/
def Analysis.frame? (a : Analysis) (s : Nat) : Option Frame :=
  (a.scopes[s]?).map Scope.frame

theorem Analysis.frame?_of_getElem? {a : Analysis} {s : Nat} {y : Scope}
    (h : a.scopes[s]? = some y) : a.frame? s = some y.frame := by
  rw [frame?, h]
  rfl

theorem Analysis.frame?_eq_some {a : Analysis} {s : Nat} {f : Frame} (h : a.frame? s = some f) :
    ∃ y, a.scopes[s]? = some y ∧ y.frame = f :=
  Option.map_eq_some_iff.mp h

/-! ## Chains -/

/-- Scopes from the inside out, each one directly around the one before it. -/
inductive Chained (frame? : Nat → Option Frame) : List Nat → Prop
  | nil : Chained frame? []
  | cons {s : Nat} {f : Frame} (hf : frame? s = some f) (h : Chained frame? f.enclosing) :
      Chained frame? (s :: f.enclosing)

namespace Chained

variable {frame? frame?' : Nat → Option Frame} {l : List Nat}

/-- A chain goes on with the scopes around its first one. -/
theorem enclosing_eq {s : Nat} {f : Frame} (h : Chained frame? (s :: l)) (hf : frame? s = some f) :
    f.enclosing = l := by
  cases h with
  | cons hf' _ =>
    rw [hf] at hf'
    cases hf'
    rfl

theorem tail {s : Nat} (h : Chained frame? (s :: l)) : Chained frame? l := by
  cases h with
  | cons _ h => exact h

theorem frame {s : Nat} (h : Chained frame? (s :: l)) :
    ∃ f, frame? s = some f ∧ f.enclosing = l := by
  cases h with
  | cons hf _ => exact ⟨_, hf, rfl⟩

/-- A chain stays one when scopes keep what is around them. -/
theorem mono (h : Chained frame? l) (hkeep : ∀ s f, frame? s = some f →
    ∃ f', frame?' s = some f' ∧ f'.enclosing = f.enclosing) : Chained frame?' l := by
  induction h with
  | nil => exact .nil
  | cons hf _ ih =>
    obtain ⟨f', hf', he⟩ := hkeep _ _ hf
    rw [← he] at ih ⊢
    exact .cons hf' ih

theorem of_append : (l₁ : List Nat) → Chained frame? (l₁ ++ l) → Chained frame? l
  | [], h => h
  | _ :: l₁, h => of_append l₁ h.tail

/-- Every scope of a chain has a frame, and the chain goes on with the scopes around it. -/
theorem exists_frame (h : Chained frame? l) {s : Nat} (hs : s ∈ l) :
    ∃ f l₁, frame? s = some f ∧ l = l₁ ++ s :: f.enclosing := by
  obtain ⟨l₁, l₂, rfl⟩ := List.append_of_mem hs
  obtain ⟨f, hf, rfl⟩ := (of_append l₁ h).frame
  exact ⟨f, l₁, hf, rfl⟩

end Chained

/-! ## Layouts -/

/-- The relations between `size` frames, the stack of open scopes, and the lists of the scopes that
nodes own. -/
structure Layout (frame? : Nat → Option Frame) (size : Nat) (stack : List Nat)
    (owned : Nat → List Nat) : Prop where
  lt_size_iff : ∀ s, s < size ↔ (frame? s).isSome
  chained_stack : Chained frame? stack
  chained_enclosing : ∀ {s f}, frame? s = some f → Chained frame? f.enclosing
  enclosing_lt : ∀ {s f}, frame? s = some f → ∀ u ∈ f.enclosing, u < s
  isOpen_iff : ∀ {s f}, frame? s = some f → (f.isOpen = true ↔ s ∈ stack)
  /-- What is opened while a scope is open lies inside it. -/
  mem_enclosing_of_stack : ∀ {s t f}, s ∈ stack → frame? t = some f → s < t → s ∈ f.enclosing
  /-- What is opened between a scope and a scope inside it lies inside it too. -/
  mem_enclosing_of_between : ∀ {s t u f g}, frame? t = some f → s ∈ f.enclosing →
    frame? u = some g → s < u → u ≤ t → s ∈ g.enclosing
  variableScope_self : ∀ {s f}, frame? s = some f → f.kind.isVariableScope = true →
    f.variableScope = s
  variableScope_upper : ∀ {s f}, frame? s = some f → f.kind.isVariableScope = false →
    ∃ u g, f.enclosing.head? = some u ∧ frame? u = some g ∧ f.variableScope = g.variableScope
  children_eq : ∀ {s f}, frame? s = some f → f.children =
    (List.range size).filter fun t => (frame? t).any fun g => g.enclosing.head? = some s
  owned_eq : ∀ n, owned n =
    (List.range size).filter fun t => (frame? t).any fun g => g.block.id = n

namespace Layout

variable {frame? : Nat → Option Frame} {size : Nat} {stack : List Nat} {owned : Nat → List Nat}

theorem empty : Layout (fun _ => none) 0 [] fun _ => [] where
  lt_size_iff _ := by simp
  chained_stack := .nil
  chained_enclosing h := by cases h
  enclosing_lt h := by cases h
  isOpen_iff h := by cases h
  mem_enclosing_of_stack h := by cases h
  mem_enclosing_of_between h := by cases h
  variableScope_self h := by cases h
  variableScope_upper h := by cases h
  children_eq h := by cases h
  owned_eq _ := rfl

theorem lt_size (h : Layout frame? size stack owned) {s : Nat} {f : Frame}
    (hf : frame? s = some f) : s < size := by
  rw [h.lt_size_iff, hf]
  rfl

theorem exists_frame (h : Layout frame? size stack owned) {s : Nat} (hs : s < size) :
    ∃ f, frame? s = some f :=
  Option.isSome_iff_exists.mp ((h.lt_size_iff s).mp hs)

theorem frame?_size (h : Layout frame? size stack owned) : frame? size = none :=
  Option.not_isSome_iff_eq_none.mp fun hsome =>
    Nat.lt_irrefl size ((h.lt_size_iff size).mpr hsome)

theorem stack_lt (h : Layout frame? size stack owned) {s : Nat} (hs : s ∈ stack) : s < size := by
  obtain ⟨f, -, hf, -⟩ := h.chained_stack.exists_frame hs
  exact h.lt_size hf

/-- A chain goes outwards to scopes with smaller numbers. -/
theorem pairwise_of_chained (h : Layout frame? size stack owned) {l : List Nat}
    (hl : Chained frame? l) : l.Pairwise (· > ·) := by
  induction hl with
  | nil => exact .nil
  | cons hf _ ih => exact .cons (h.enclosing_lt hf) ih

theorem nodup_of_chained (h : Layout frame? size stack owned) {l : List Nat}
    (hl : Chained frame? l) : l.Nodup :=
  (h.pairwise_of_chained hl).imp Nat.ne_of_gt

/-! ### Opening a scope -/

/-- The frames after the scope `size` has been opened with the frame `g`. -/
def pushed (frame? : Nat → Option Frame) (size : Nat) (stack : List Nat) (g : Frame) (t : Nat) :
    Option Frame :=
  if t = size then some g
  else (frame? t).map fun f =>
    { f with children := f.children ++ if stack.head? = some t then [size] else [] }

theorem pushed_size (frame? : Nat → Option Frame) (size : Nat) (stack : List Nat) (g : Frame) :
    pushed frame? size stack g size = some g := by
  simp [pushed]

/-- The frames that were there keep everything but their children. -/
theorem pushed_of_eq_some (h : Layout frame? size stack owned) {g f : Frame} {t : Nat}
    (hf : frame? t = some f) : pushed frame? size stack g t =
      some { f with children := f.children ++ if stack.head? = some t then [size] else [] } := by
  rw [pushed, if_neg (Nat.ne_of_lt (h.lt_size hf)), hf]
  rfl

theorem pushed_cases (h : Layout frame? size stack owned) {g f' : Frame} {t : Nat}
    (hf' : pushed frame? size stack g t = some f') :
    t = size ∧ f' = g ∨ t < size ∧ ∃ f, frame? t = some f ∧
      f' = { f with children := f.children ++ if stack.head? = some t then [size] else [] } := by
  by_cases ht : t = size
  · rw [ht, pushed_size] at hf'
    exact Or.inl ⟨ht, (Option.some.inj hf').symm⟩
  · rw [pushed, if_neg ht, Option.map_eq_some_iff] at hf'
    obtain ⟨f, hf, rfl⟩ := hf'
    exact Or.inr ⟨h.lt_size hf, f, hf, rfl⟩

/-- A property of frames that does not look at children picks the scopes that it picked before, and
perhaps the new one. -/
theorem filter_pushed (h : Layout frame? size stack owned) (g : Frame) (p : Frame → Bool)
    (hp : ∀ f children, p { f with children := children } = p f) :
    ((List.range (size + 1)).filter fun t => (pushed frame? size stack g t).any p) =
      ((List.range size).filter fun t => (frame? t).any p) ++ if p g then [size] else [] := by
  rw [List.range_succ, List.filter_append]
  congr 1
  · apply List.filter_congr
    intro t ht
    obtain ⟨f, hf⟩ := h.exists_frame (List.mem_range.mp ht)
    rw [h.pushed_of_eq_some hf, hf, Option.any_some, Option.any_some, hp]
  · simp [List.filter_cons, pushed_size]

/-- Opening a scope keeps the layout. -/
theorem push (h : Layout frame? size stack owned) {g : Frame} (henclosing : g.enclosing = stack)
    (hopen : g.isOpen = true) (hchildren : g.children = [])
    (hself : g.kind.isVariableScope = true → g.variableScope = size)
    (hupper : g.kind.isVariableScope = false →
      ∃ u f, stack.head? = some u ∧ frame? u = some f ∧ g.variableScope = f.variableScope) :
    Layout (pushed frame? size stack g) (size + 1) (size :: stack)
      fun n => owned n ++ if g.block.id = n then [size] else [] := by
  have hmono {l : List Nat} (hl : Chained frame? l) : Chained (pushed frame? size stack g) l :=
    hl.mono fun s f hf => ⟨_, h.pushed_of_eq_some hf, rfl⟩
  exact {
    lt_size_iff := fun s => by
      by_cases hs : s = size
      · rw [hs, pushed_size]
        simp
      · rw [pushed, if_neg hs, Option.isSome_map, ← h.lt_size_iff]
        omega
    chained_stack := by
      have := hmono h.chained_stack
      rw [← henclosing] at this ⊢
      exact .cons (by rw [henclosing, pushed_size]) this
    chained_enclosing := fun hf => by
      rcases h.pushed_cases hf with ⟨-, rfl⟩ | ⟨-, f, hold, rfl⟩
      · rw [henclosing]
        exact hmono h.chained_stack
      · exact hmono (h.chained_enclosing hold :)
    enclosing_lt := fun hf u hu => by
      rcases h.pushed_cases hf with ⟨rfl, rfl⟩ | ⟨-, f, hold, rfl⟩
      · rw [henclosing] at hu
        exact h.stack_lt hu
      · exact h.enclosing_lt hold u hu
    isOpen_iff := fun {s _} hf => by
      rcases h.pushed_cases hf with ⟨rfl, rfl⟩ | ⟨hlt, f, hold, rfl⟩
      · simp [hopen]
      · have hne : s ≠ size := Nat.ne_of_lt hlt
        simpa [hne] using h.isOpen_iff hold
    mem_enclosing_of_stack := fun {s t _} hs hf hlt => by
      rcases h.pushed_cases hf with ⟨rfl, rfl⟩ | ⟨ht, f, hold, rfl⟩
      · rw [henclosing]
        exact (List.mem_cons.mp hs).resolve_left (Nat.ne_of_lt hlt)
      · have hs' := (List.mem_cons.mp hs).resolve_left (Nat.ne_of_lt (Nat.lt_trans hlt ht))
        exact (h.mem_enclosing_of_stack hs' hold hlt :)
    mem_enclosing_of_between := fun hf hs hg hsu hut => by
      rcases h.pushed_cases hf with ⟨rfl, rfl⟩ | ⟨ht, f, hold, rfl⟩ <;>
        rcases h.pushed_cases hg with ⟨rfl, rfl⟩ | ⟨hu, f', hold', rfl⟩
      · exact hs
      · rw [henclosing] at hs
        exact (h.mem_enclosing_of_stack hs hold' hsu :)
      · omega
      · exact (h.mem_enclosing_of_between hold hs hold' hsu hut :)
    variableScope_self := fun hf hkind => by
      rcases h.pushed_cases hf with ⟨rfl, rfl⟩ | ⟨-, f, hold, rfl⟩
      · exact hself hkind
      · exact (h.variableScope_self hold hkind :)
    variableScope_upper := fun hf hkind => by
      rcases h.pushed_cases hf with ⟨rfl, rfl⟩ | ⟨-, f, hold, rfl⟩
      · obtain ⟨u, f, hu, hold, hvar⟩ := hupper hkind
        exact ⟨u, _, by rw [henclosing, hu], h.pushed_of_eq_some hold, hvar⟩
      · obtain ⟨u, f', hu, hold', hvar⟩ := h.variableScope_upper hold hkind
        exact ⟨u, _, hu, h.pushed_of_eq_some hold', hvar⟩
    children_eq := fun {s _} hf => by
      rw [h.filter_pushed g (fun f => f.enclosing.head? = some s) fun _ _ => rfl, henclosing]
      rcases h.pushed_cases hf with ⟨rfl, rfl⟩ | ⟨hlt, f, hold, rfl⟩
      · have hnone : ∀ l : List Nat, (∀ u ∈ l, u < s) → l.head? ≠ some s := fun l hl hs =>
          Nat.lt_irrefl s (hl s (List.mem_of_head? hs))
        rw [hchildren, if_neg (by simpa using hnone stack fun u => h.stack_lt), List.append_nil,
          eq_comm, List.filter_eq_nil_iff]
        intro t ht
        obtain ⟨f, hold⟩ := h.exists_frame (List.mem_range.mp ht)
        have hlt : ∀ u ∈ f.enclosing, u < s := fun u hu =>
          Nat.lt_trans (h.enclosing_lt hold u hu) (h.lt_size hold)
        simpa [hold] using hnone _ hlt
      · rw [← h.children_eq hold]
        simp
    owned_eq := fun n => by
      rw [h.filter_pushed g (fun f => f.block.id = n) fun _ _ => rfl, h.owned_eq]
      simp }

/-! ### Closing a scope -/

/-- The frames after the scope `s` has been closed. -/
def closed (frame? : Nat → Option Frame) (s t : Nat) : Option Frame :=
  (frame? t).map fun f => { f with isOpen := f.isOpen && t ≠ s }

theorem closed_eq_some {s t : Nat} {f' : Frame} (hf' : closed frame? s t = some f') :
    ∃ f, frame? t = some f ∧ f' = { f with isOpen := f.isOpen && t ≠ s } := by
  obtain ⟨f, hf, rfl⟩ := Option.map_eq_some_iff.mp hf'
  exact ⟨f, hf, rfl⟩

theorem closed_of_eq_some {s t : Nat} {f : Frame} (hf : frame? t = some f) :
    closed frame? s t = some { f with isOpen := f.isOpen && t ≠ s } := by
  rw [closed, hf]
  rfl

theorem filter_closed (size s : Nat) (p : Frame → Bool)
    (hp : ∀ f isOpen, p { f with isOpen := isOpen } = p f) :
    ((List.range size).filter fun t => (closed frame? s t).any p) =
      (List.range size).filter fun t => (frame? t).any p := by
  apply List.filter_congr
  intro t _
  cases hf : frame? t with
  | none => rw [closed, hf, Option.map_none]
  | some f => rw [closed_of_eq_some hf, Option.any_some, Option.any_some, hp]

/-- Closing the innermost open scope keeps the layout. -/
theorem close {s : Nat} (h : Layout frame? size (s :: stack) owned) :
    Layout (closed frame? s) size stack owned := by
  have hmono {l : List Nat} (hl : Chained frame? l) : Chained (closed frame? s) l :=
    hl.mono fun _ f hf => ⟨_, closed_of_eq_some hf, rfl⟩
  exact {
    lt_size_iff := fun t => by rw [closed, Option.isSome_map, h.lt_size_iff]
    chained_stack := hmono h.chained_stack.tail
    chained_enclosing := fun hf => by
      obtain ⟨f, hold, rfl⟩ := closed_eq_some hf
      exact hmono (h.chained_enclosing hold :)
    enclosing_lt := fun hf u hu => by
      obtain ⟨f, hold, rfl⟩ := closed_eq_some hf
      exact h.enclosing_lt hold u hu
    isOpen_iff := fun {t _} hf => by
      obtain ⟨f, hold, rfl⟩ := closed_eq_some hf
      have hiff := h.isOpen_iff hold
      have hnodup := List.nodup_cons.mp (h.nodup_of_chained h.chained_stack)
      by_cases hts : t = s
      · subst hts
        simpa using hnodup.1
      · simpa [hts] using hiff
    mem_enclosing_of_stack := fun hs hf hlt => by
      obtain ⟨f, hold, rfl⟩ := closed_eq_some hf
      exact (h.mem_enclosing_of_stack (List.mem_cons_of_mem _ hs) hold hlt :)
    mem_enclosing_of_between := fun hf hs hg hsu hut => by
      obtain ⟨f, hold, rfl⟩ := closed_eq_some hf
      obtain ⟨f', hold', rfl⟩ := closed_eq_some hg
      exact (h.mem_enclosing_of_between hold hs hold' hsu hut :)
    variableScope_self := fun hf hkind => by
      obtain ⟨f, hold, rfl⟩ := closed_eq_some hf
      exact (h.variableScope_self hold hkind :)
    variableScope_upper := fun hf hkind => by
      obtain ⟨f, hold, rfl⟩ := closed_eq_some hf
      obtain ⟨u, f', hu, hold', hvar⟩ := h.variableScope_upper hold hkind
      exact ⟨u, _, hu, closed_of_eq_some hold', hvar⟩
    children_eq := fun {t _} hf => by
      obtain ⟨f, hold, rfl⟩ := closed_eq_some hf
      rw [filter_closed size s (fun f => f.enclosing.head? = some t) fun _ _ => rfl]
      exact (h.children_eq hold :)
    owned_eq := fun n => by
      rw [filter_closed size s (fun f => f.block.id = n) fun _ _ => rfl]
      exact h.owned_eq n }

end Layout

end EcmaScope
