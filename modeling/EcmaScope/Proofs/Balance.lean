import EcmaScope.Proofs.Nesting
import Mathlib.Data.List.TakeWhile

/-!
# The balance of opening and closing

The outline of a builder holds the numbers of its scopes: the stack of open ones, the ones that
receive declarations, and the lists of those that nodes own. How the outline changes can be told
from the actions alone.

If the numbers of the nodes are arbitrary, a node may close scopes that another node with the same
number has opened, and so nested actions may leave less on the stack than they found; but what they
leave is a part of what they found, with scopes of the owner on top. If the numbers are distinct,
nested actions leave the stack as they found it, with new scopes of the owner on top, and every
action finds what it needs.

## Main definitions

* `Outline`, `Outline.Step`, `Outline.Run`: outlines and how they change.
* `Outline.Permits`, `Outline.Orderly`: every action finds what it needs.

## Main results

* `Action.Nested.rests`: what nested actions leave on the stack.
* `Action.Nested.balanced`: nested actions with distinct nodes are orderly and balanced.
* `Program.stack_eq_nil`, `Program.orderly_actions`: the same for the actions of programs.
-/

namespace EcmaScope

/-- The numbers of scopes that are at hand while the actions of a program are carried out. -/
structure Outline where
  /-- How many scopes there are. -/
  size : Nat
  /-- The open scopes, innermost first. -/
  stack : List Nat
  /-- The scopes that receive the declarations under way, innermost first. -/
  sites : List Nat
  /-- The scopes that a node has opened, outermost first. -/
  scopesOf : Nat → List Nat

namespace Outline

/-- What an action does to an outline. -/
inductive Step : Outline → Action → Outline → Prop
  | openScope (w : Outline) (kind : ScopeKind) (block : Anchor) (strict : Bool) :
      Step w (.openScope kind block strict)
        { w with
          size := w.size + 1
          stack := w.size :: w.stack
          scopesOf := fun n => w.scopesOf n ++ if block.id = n then [w.size] else [] }
  | closeScopes (w : Outline) (n : Nat) :
      Step w (.closeScopes n) { w with stack := w.stack.dropWhile (· ∈ w.scopesOf n) }
  | beginSite (w : Outline) (reach : Reach) {s : Nat} (hs : s ∈ w.stack) :
      Step w (.beginSite reach) { w with sites := s :: w.sites }
  | endSite (w : Outline) : Step w .endSite { w with sites := w.sites.tail }
  | declare (w : Outline) (d : Definition) : Step w (.declare d) w
  | plain (w : Outline) {a : Action} (ha : a.isPlain = true) : Step w a w

/-- What actions do to an outline, one after the other. -/
inductive Run : Outline → List Action → Outline → Prop
  | nil (w : Outline) : Run w [] w
  | cons {w w' w'' : Outline} {a : Action} {A : List Action} (h : Step w a w') (hA : Run w' A w'') :
      Run w (a :: A) w''

namespace Run

variable {w w' w'' : Outline} {A B : List Action}

theorem exists_of_append (h : Run w (A ++ B) w'') : ∃ w', Run w A w' ∧ Run w' B w'' := by
  induction A generalizing w with
  | nil => exact ⟨w, .nil w, h⟩
  | cons a A ih =>
    cases h with
    | cons ha hA =>
      obtain ⟨w', hA, hB⟩ := ih hA
      exact ⟨w', .cons ha hA, hB⟩

theorem step {a : Action} (h : Run w [a] w') : Step w a w' := by
  cases h with
  | cons ha hA =>
    cases hA
    exact ha

end Run

/-- Nodes keep the scopes that they have opened. -/
theorem Step.mem_scopesOf {w w' : Outline} {a : Action} (h : Step w a w') {n t : Nat}
    (ht : t ∈ w.scopesOf n) : t ∈ w'.scopesOf n := by
  cases h with
  | openScope => exact List.mem_append_left _ ht
  | closeScopes | beginSite | endSite | declare | plain => exact ht

theorem Run.mem_scopesOf {w w' : Outline} {A : List Action} (h : Run w A w') {n t : Nat}
    (ht : t ∈ w.scopesOf n) : t ∈ w'.scopesOf n := by
  induction h with
  | nil => exact ht
  | cons h _ ih => exact ih (h.mem_scopesOf ht)

/-! ## Arbitrary nodes -/

/-- The stack consists of a part of an older stack, and of scopes of the owner on top of it. -/
def Rests (owner : Option Nat) (stack : List Nat) (w : Outline) : Prop :=
  ∃ τ ρ, w.stack = τ ++ ρ ∧ ρ <:+ stack ∧ ∀ t ∈ τ, ∃ n, owner = some n ∧ t ∈ w.scopesOf n

namespace Rests

variable {owner : Option Nat} {stack : List Nat} {w w' : Outline}

theorem of_suffix (h : w.stack <:+ stack) : Rests owner stack w :=
  ⟨[], w.stack, rfl, h, by simp⟩

/-- Without an owner nothing stands on top. -/
theorem suffix (h : Rests none stack w) : w.stack <:+ stack := by
  obtain ⟨τ, ρ, hstack, hρ, hτ⟩ := h
  cases τ with
  | nil => rwa [hstack]
  | cons t τ =>
    obtain ⟨n, hn, -⟩ := hτ t List.mem_cons_self
    cases hn

theorem trans (h : Rests owner stack w) (h' : Rests owner w.stack w')
    (hmem : ∀ n t, t ∈ w.scopesOf n → t ∈ w'.scopesOf n) : Rests owner stack w' := by
  obtain ⟨τ, ρ, hstack, hρ, hτ⟩ := h
  obtain ⟨τ', ρ', hstack', hρ', hτ'⟩ := h'
  rw [hstack] at hρ'
  rcases List.suffix_or_suffix_of_suffix hρ' (List.suffix_append τ ρ) with hle | ⟨σ, rfl⟩
  · exact ⟨τ', ρ', hstack', hle.trans hρ, hτ'⟩
  · obtain ⟨l, hl⟩ := hρ'
    rw [← List.append_assoc] at hl
    have hσ : l ++ σ = τ := List.append_cancel_right hl
    refine ⟨τ' ++ σ, ρ, by rw [hstack', List.append_assoc], hρ, fun t ht => ?_⟩
    rcases List.mem_append.mp ht with ht | ht
    · exact hτ' t ht
    · obtain ⟨n, hn, htn⟩ := hτ t (by rw [← hσ]; exact List.mem_append_right l ht)
      exact ⟨n, hn, hmem n t htn⟩

/-- Closing the scopes of the owner takes off what stands on top. -/
theorem dropWhile_suffix {n : Nat} (h : Rests (some n) stack w) :
    w.stack.dropWhile (· ∈ w.scopesOf n) <:+ stack := by
  obtain ⟨τ, ρ, hstack, hρ, hτ⟩ := h
  have hall : ∀ t ∈ τ, decide (t ∈ w.scopesOf n) = true := fun t ht => by
    obtain ⟨m, hm, htm⟩ := hτ t ht
    cases hm
    exact decide_eq_true htm
  rw [hstack, List.dropWhile_append_of_pos hall]
  exact (List.dropWhile_suffix _).trans hρ

end Rests

/-- Closing scopes takes them off the stack. -/
theorem Run.suffix_of_replicate {w w' : Outline} {n k : Nat}
    (h : Run w (List.replicate k (.closeScopes n)) w') : w'.stack <:+ w.stack := by
  induction k generalizing w with
  | zero =>
    cases h
    exact List.suffix_rfl
  | succ k ih =>
    cases h with
    | cons hstep hrun =>
      refine (ih hrun).trans ?_
      cases hstep with
      | closeScopes => exact List.dropWhile_suffix _
      | plain ha => cases ha

theorem Step.eq_of_isPlain {w w' : Outline} {a : Action} (h : Step w a w') (ha : a.isPlain = true) :
    w' = w := by
  cases h with
  | plain => rfl
  | declare => rfl
  | openScope | closeScopes | beginSite | endSite => cases ha

end Outline

open Outline

/-- What nested actions leave on the stack, whatever their nodes are. -/
theorem Action.Nested.rests {owner : Option Nat} {sited : Bool} {I : List Nat} {A : List Action}
    (h : Action.Nested owner sited I A) {w w' : Outline} (hrun : Run w A w') :
    Rests owner w.stack w' := by
  induction h generalizing w w' with
  | nil =>
    cases hrun
    exact .of_suffix List.suffix_rfl
  | append _ _ ihA ihB =>
    obtain ⟨w₁, hA, hB⟩ := hrun.exists_of_append
    exact (ihA hA).trans (ihB hB) fun _ _ => hB.mem_scopesOf
  | plain a ha =>
    rw [hrun.step.eq_of_isPlain ha]
    exact .of_suffix List.suffix_rfl
  | declare d =>
    cases hrun.step <;> exact .of_suffix List.suffix_rfl
  | site reach _ ih =>
    obtain ⟨w₂, hrun, hend⟩ := hrun.exists_of_append
    obtain ⟨w₁, hbegin, hA⟩ := hrun.exists_of_append
    have hsuffix := (ih hA).suffix
    cases hbegin.step with
    | plain ha => cases ha
    | beginSite hs =>
      cases hend.step with
      | plain ha => cases ha
      | endSite => exact .of_suffix hsuffix
  | openScope kind block strict =>
    cases hrun.step with
    | plain ha => cases ha
    | openScope =>
      refine ⟨[w.size], w.stack, rfl, List.suffix_rfl, fun t ht => ⟨block.id, rfl, ?_⟩⟩
      rw [List.mem_singleton.mp ht]
      simp
  | @scopes owner sited n I A k _ ih =>
    obtain ⟨w₁, hA, hclose⟩ := hrun.exists_of_append
    have hrests := ih hA
    cases hclose with
    | cons hfirst hothers =>
      have hsuffix := hothers.suffix_of_replicate
      cases hfirst with
      | plain ha => cases ha
      | closeScopes => exact .of_suffix (hsuffix.trans hrests.dropWhile_suffix)

namespace Outline

/-! ## Distinct nodes -/

/-- The action finds what it needs. A scope is opened inside another one, unless it is the first,
and right inside the last scope of its node, if there is one; names are declared in open scopes. -/
def Permits (w : Outline) : Action → Prop
  | .openScope kind block _ =>
    (w.stack = [] → w.size = 0 ∧ kind.isVariableScope = true) ∧
      ∀ t, (w.scopesOf block.id).getLast? = some t → w.stack.head? = some t
  | .declare _ => ∃ s, w.sites.head? = some s ∧ s ∈ w.stack
  | .closeScopes _ | .endSite | .refuseImport _ => True
  | .beginSite _ | .refer .. | .needScope | .useThis | .callEval => w.stack ≠ []

/-- Every action finds what it needs when its turn comes. -/
def Orderly : Outline → List Action → Prop
  | _, [] => True
  | w, a :: A => w.Permits a ∧ ∀ w', Step w a w' → Orderly w' A

private theorem Orderly.append {w : Outline} {A B : List Action} (hA : Orderly w A)
    (hB : ∀ w', Run w A w' → Orderly w' B) : Orderly w (A ++ B) := by
  induction A generalizing w with
  | nil => exact hB w (.nil w)
  | cons a A ih => exact ⟨hA.1, fun w' h => ih (hA.2 w' h) fun w'' h' => hB w'' (.cons h h')⟩

private theorem Orderly.of_permits {w : Outline} {a : Action} (h : w.Permits a) : Orderly w [a] :=
  ⟨h, fun _ _ => trivial⟩

theorem orderly_replicate (w : Outline) (n k : Nat) :
    Orderly w (List.replicate k (.closeScopes n)) := by
  induction k generalizing w with
  | zero => trivial
  | succ k ih => exact ⟨trivial, fun w' _ => ih w'⟩

theorem permits_of_isPlain {w : Outline} {a : Action} (ha : a.isPlain = true)
    (hstack : w.stack ≠ []) : w.Permits a := by
  cases a with
  | refer | needScope | useThis | callEval => exact hstack
  | refuseImport => trivial
  | openScope | closeScopes | beginSite | endSite | declare => cases ha

/-- Nested actions of the nodes `I` can be carried out. -/
structure Admits (owner : Option Nat) (sited : Bool) (I : List Nat) (w : Outline) : Prop where
  stack_ne_nil : w.stack ≠ []
  stack_lt : ∀ t ∈ w.stack, t < w.size
  sites_subset : ∀ t ∈ w.sites, t ∈ w.stack
  sites_ne_nil : sited = true → w.sites ≠ []
  /-- The nodes have not opened any scopes. -/
  fresh : ∀ n ∈ I, w.scopesOf n = []
  /-- All scopes of the owner are at the top of the stack. -/
  owner_stack : ∀ n, owner = some n → ∃ τ ρ, w.stack = τ ++ ρ ∧ w.scopesOf n = τ.reverse

theorem Admits.left {owner : Option Nat} {sited : Bool} {I J : List Nat} {w : Outline}
    (h : Admits owner sited (I ++ J) w) : Admits owner sited I w :=
  { h with fresh := fun n hn => h.fresh n (List.mem_append_left J hn) }

/-- Within a declaration that has been begun. -/
theorem Admits.site {owner : Option Nat} {sited : Bool} {I : List Nat} {w : Outline} {s : Nat}
    (h : Admits owner sited I w) (hs : s ∈ w.stack) :
    Admits none true I { w with sites := s :: w.sites } where
  stack_ne_nil := h.stack_ne_nil
  stack_lt := h.stack_lt
  sites_subset := List.forall_mem_cons.mpr ⟨hs, h.sites_subset⟩
  sites_ne_nil _ := List.cons_ne_nil _ _
  fresh := h.fresh
  owner_stack := nofun

/-- A node that has not opened any scopes may open some. -/
theorem Admits.scopes {owner : Option Nat} {sited : Bool} {n : Nat} {I : List Nat} {w : Outline}
    (h : Admits owner sited (n :: I) w) : Admits (some n) sited I w :=
  { h with
    fresh := fun m hm => h.fresh m (List.mem_cons_of_mem n hm)
    owner_stack := fun m hm => by
      cases hm
      exact ⟨[], w.stack, rfl, h.fresh n List.mem_cons_self⟩ }

/-- What nested actions of the nodes `I` leave: new scopes of the owner at the top of the stack, and
nothing else outside of `I`. -/
structure Leaves (owner : Option Nat) (I : List Nat) (τ : List Nat) (w w' : Outline) : Prop where
  stack : w'.stack = τ ++ w.stack
  sites : w'.sites = w.sites
  size_le : w.size ≤ w'.size
  new : ∀ t ∈ τ, w.size ≤ t ∧ t < w'.size
  scopesOf : ∀ n, n ∉ I → w'.scopesOf n = w.scopesOf n ++ if owner = some n then τ.reverse else []
  eq_nil : owner = none → τ = []

variable {owner : Option Nat} {sited : Bool} {I J : List Nat} {w w' w'' : Outline}

theorem Leaves.refl (w : Outline) : Leaves owner [] [] w w where
  stack := rfl
  sites := rfl
  size_le := Nat.le_refl _
  new t ht := by cases ht
  scopesOf n _ := by simp
  eq_nil _ := rfl

theorem Leaves.append {τ τ' : List Nat} (h : Leaves owner I τ w w')
    (h' : Leaves owner J τ' w' w'') : Leaves owner (I ++ J) (τ' ++ τ) w w'' where
  stack := by rw [h'.stack, h.stack, List.append_assoc]
  sites := h'.sites.trans h.sites
  size_le := Nat.le_trans h.size_le h'.size_le
  new t ht := by
    have hle := h.size_le
    have hle' := h'.size_le
    rcases List.mem_append.mp ht with ht | ht
    · have := h'.new t ht
      omega
    · have := h.new t ht
      omega
  scopesOf n hn := by
    have hnI : n ∉ I := fun h => hn (List.mem_append_left J h)
    have hnJ : n ∉ J := fun h => hn (List.mem_append_right I h)
    rw [h'.scopesOf n hnJ, h.scopesOf n hnI]
    by_cases howner : owner = some n <;> simp [howner]
  eq_nil hnone := by rw [h.eq_nil hnone, h'.eq_nil hnone]; rfl

/-- What is left admits the actions of other nodes. -/
theorem Leaves.admits {τ : List Nat} (h : Leaves owner I τ w w')
    (hw : Admits owner sited (I ++ J) w) (hdisjoint : ∀ n ∈ J, n ∉ I ∧ owner ≠ some n)
    (howner : ∀ n ∈ I, owner ≠ some n) : Admits owner sited J w' where
  stack_ne_nil := by
    rw [h.stack]
    exact fun hnil => hw.stack_ne_nil (List.append_eq_nil_iff.mp hnil).2
  stack_lt t ht := by
    rw [h.stack] at ht
    rcases List.mem_append.mp ht with ht | ht
    · exact (h.new t ht).2
    · exact Nat.lt_of_lt_of_le (hw.stack_lt t ht) h.size_le
  sites_subset t ht := by
    rw [h.sites] at ht
    rw [h.stack]
    exact List.mem_append_right τ (hw.sites_subset t ht)
  sites_ne_nil hsited := by
    rw [h.sites]
    exact hw.sites_ne_nil hsited
  fresh n hn := by
    rw [h.scopesOf n (hdisjoint n hn).1, hw.fresh n (List.mem_append_right I hn),
      if_neg (hdisjoint n hn).2]
    rfl
  owner_stack n hn := by
    obtain ⟨σ, ρ, hstack, hscopes⟩ := hw.owner_stack n hn
    refine ⟨τ ++ σ, ρ, by rw [h.stack, hstack, List.append_assoc], ?_⟩
    rw [h.scopesOf n fun hI => howner n hI hn, hscopes, if_pos hn, List.reverse_append]

/-- Where no open scope belongs to a node, closing its scopes does nothing. -/
theorem Run.eq_of_replicate {n k : Nat} (hstack : ∀ t ∈ w.stack, t ∉ w.scopesOf n)
    (h : Run w (List.replicate k (.closeScopes n)) w') : w' = w := by
  induction k with
  | zero =>
    cases h
    rfl
  | succ k ih =>
    cases h with
    | cons hstep hrun =>
      cases hstep with
      | plain ha => cases ha
      | closeScopes =>
        have hnone : w.stack.dropWhile (· ∈ w.scopesOf n) = w.stack := by
          cases hs : w.stack with
          | nil => rfl
          | cons t rest =>
            rw [List.dropWhile_cons_of_neg]
            simpa using hstack t (by rw [hs]; exact List.mem_cons_self)
        rw [hnone] at hrun
        exact ih hrun

/-- Closing the scopes of a node takes off all that its actions have left on the stack. -/
theorem Leaves.run_close {n k : Nat} {τ : List Nat} (h : Leaves (some n) I τ w w')
    (hfresh : w.scopesOf n = []) (hn : n ∉ I) (hlt : ∀ t ∈ w.stack, t < w.size)
    (hrun : Run w' (List.replicate (k + 1) (.closeScopes n)) w'') :
    w'' = { w' with stack := w.stack } := by
  have hscopes : w'.scopesOf n = τ.reverse := by
    rw [h.scopesOf n hn, hfresh, if_pos rfl]
    rfl
  have hnotMem : ∀ t ∈ w.stack, t ∉ w'.scopesOf n := fun t ht hmem => by
    rw [hscopes, List.mem_reverse] at hmem
    exact Nat.lt_irrefl t (Nat.lt_of_lt_of_le (hlt t ht) (h.new t hmem).1)
  cases hrun with
  | cons hfirst hothers =>
    cases hfirst with
    | plain ha => cases ha
    | closeScopes =>
      have hdrop : w'.stack.dropWhile (· ∈ w'.scopesOf n) = w.stack := by
        rw [h.stack, List.dropWhile_append_of_pos fun t ht => by simpa [hscopes] using ht]
        cases hs : w.stack with
        | nil => rfl
        | cons t rest =>
          rw [List.dropWhile_cons_of_neg]
          simpa using hnotMem t (by rw [hs]; exact List.mem_cons_self)
      rw [hdrop] at hothers
      exact hothers.eq_of_replicate hnotMem

/-- The actions find what they need, and they leave nothing open but scopes of the owner. -/
def Balanced (owner : Option Nat) (I : List Nat) (w : Outline) (A : List Action) : Prop :=
  Orderly w A ∧ ∀ w', Run w A w' → ∃ τ, Leaves owner I τ w w'

namespace Balanced

variable {A B : List Action}

private theorem append (hA : Balanced owner I w A)
    (hB : ∀ w₁ τ, Leaves owner I τ w w₁ → Balanced owner J w₁ B) :
    Balanced owner (I ++ J) w (A ++ B) := by
  constructor
  · refine hA.1.append fun w₁ hrun => ?_
    obtain ⟨τ, hτ⟩ := hA.2 w₁ hrun
    exact (hB w₁ τ hτ).1
  · intro w' hrun
    obtain ⟨w₁, hrunA, hrunB⟩ := hrun.exists_of_append
    obtain ⟨τ, hτ⟩ := hA.2 w₁ hrunA
    obtain ⟨τ', hτ'⟩ := (hB w₁ τ hτ).2 w' hrunB
    exact ⟨τ' ++ τ, hτ.append hτ'⟩

/-- An action that does not change the outline. -/
private theorem single {a : Action} (ha : w.Permits a) (h : ∀ w', Step w a w' → w' = w) :
    Balanced owner [] w [a] := by
  refine ⟨.of_permits ha, fun w' hrun => ⟨[], ?_⟩⟩
  rw [h w' hrun.step]
  exact .refl w

private theorem openScope {kind : ScopeKind} {block : Anchor} {strict : Bool}
    (hw : Admits (some block.id) sited I w) :
    Balanced (some block.id) [] w [.openScope kind block strict] := by
  obtain ⟨τ, ρ, hstack, hscopes⟩ := hw.owner_stack block.id rfl
  refine ⟨.of_permits ⟨fun hnil => absurd hnil hw.stack_ne_nil, fun t ht => ?_⟩,
    fun w' hrun => ⟨[w.size], ?_⟩⟩
  · rw [hscopes, List.getLast?_reverse] at ht
    rw [hstack, List.head?_append, ht]
    rfl
  · cases hrun.step with
    | plain ha => cases ha
    | openScope =>
      exact {
        stack := rfl
        sites := rfl
        size_le := Nat.le_succ _
        new := fun t ht => by
          rw [List.mem_singleton.mp ht]
          exact ⟨Nat.le_refl _, Nat.lt_succ_self _⟩
        scopesOf := fun n _ => by simp
        eq_nil := fun h => by cases h }

private theorem site {reach : Reach} (hstack : w.stack ≠ [])
    (h : ∀ s ∈ w.stack, Balanced none I { w with sites := s :: w.sites } A) :
    Balanced owner I w ([Action.beginSite reach] ++ A ++ [Action.endSite]) := by
  have hbegin {w₁ : Outline} (hrun : Run w [.beginSite reach] w₁) :
      ∃ s ∈ w.stack, w₁ = { w with sites := s :: w.sites } := by
    cases hrun.step with
    | plain ha => cases ha
    | beginSite _ hs => exact ⟨_, hs, rfl⟩
  constructor
  · refine Orderly.append (Orderly.append (.of_permits hstack) fun w₁ hrun => ?_)
      fun _ _ => .of_permits trivial
    obtain ⟨s, hs, rfl⟩ := hbegin hrun
    exact (h s hs).1
  · intro w' hrun
    obtain ⟨w₂, hrun, hend⟩ := hrun.exists_of_append
    obtain ⟨w₁, hrun, hA⟩ := hrun.exists_of_append
    obtain ⟨s, hs, rfl⟩ := hbegin hrun
    obtain ⟨τ, hτ⟩ := (h s hs).2 w₂ hA
    cases hτ.eq_nil rfl
    cases hend.step with
    | plain ha => cases ha
    | endSite =>
      exact ⟨[], {
        stack := hτ.stack
        sites := congrArg List.tail hτ.sites
        size_le := hτ.size_le
        new := hτ.new
        scopesOf := fun n hn => by simpa using hτ.scopesOf n hn
        eq_nil := fun _ => rfl }⟩

private theorem scopes {n k : Nat} (h : Balanced (some n) I w A) (hfresh : w.scopesOf n = [])
    (hn : n ∉ I) (hlt : ∀ t ∈ w.stack, t < w.size) :
    Balanced owner (n :: I) w (A ++ List.replicate (k + 1) (Action.closeScopes n)) := by
  refine ⟨h.1.append fun w₁ _ => orderly_replicate w₁ n (k + 1), fun w' hrun => ?_⟩
  obtain ⟨w₁, hA, hclose⟩ := hrun.exists_of_append
  obtain ⟨τ, hτ⟩ := h.2 w₁ hA
  rw [hτ.run_close hfresh hn hlt hclose]
  exact ⟨[], {
    stack := rfl
    sites := hτ.sites
    size_le := hτ.size_le
    new := fun t ht => by cases ht
    scopesOf := fun m hm => by
      have hmn : ¬ some n = some m := fun e => hm (by cases e; exact List.mem_cons_self)
      have hmI := hτ.scopesOf m fun h => hm (List.mem_cons_of_mem n h)
      rw [if_neg hmn] at hmI
      simpa using hmI
    eq_nil := fun _ => rfl }⟩

end Balanced

end Outline

/-- Nested actions whose nodes are distinct find what they need, and they leave nothing open but
scopes of the owner. -/
theorem Action.Nested.balanced {owner : Option Nat} {sited : Bool} {I : List Nat} {A : List Action}
    (h : Action.Nested owner sited I A) (hnodup : I.Nodup) (howner : ∀ n ∈ I, owner ≠ some n)
    {w : Outline} (hw : Admits owner sited I w) : Balanced owner I w A := by
  induction h generalizing w with
  | nil =>
    refine ⟨trivial, fun w' hrun => ⟨[], ?_⟩⟩
    cases hrun
    exact .refl w
  | @append owner sited I J A B _ _ ihA ihB =>
    have hparts := List.nodup_append.mp hnodup
    have hI : ∀ n ∈ I, owner ≠ some n := fun n hn => howner n (List.mem_append_left J hn)
    have hJ : ∀ n ∈ J, n ∉ I ∧ owner ≠ some n := fun n hn =>
      ⟨fun hnI => hparts.2.2 n hnI n hn rfl, howner n (List.mem_append_right I hn)⟩
    refine (ihA hparts.1 hI hw.left).append fun w₁ τ hτ => ?_
    exact ihB hparts.2.1 (fun n hn => (hJ n hn).2) (hτ.admits hw hJ hI)
  | plain a ha =>
    exact .single (permits_of_isPlain ha hw.stack_ne_nil) fun w' hstep => hstep.eq_of_isPlain ha
  | declare d =>
    refine .single ?_ fun w' hstep => by cases hstep <;> rfl
    cases hsites : w.sites with
    | nil => exact absurd hsites (hw.sites_ne_nil rfl)
    | cons s rest =>
      refine ⟨s, by rw [hsites]; rfl, hw.sites_subset s ?_⟩
      rw [hsites]
      exact List.mem_cons_self
  | site reach _ ih =>
    exact .site hw.stack_ne_nil fun s hs => ih hnodup (fun n _ h => by cases h) (hw.site hs)
  | openScope kind block strict => exact .openScope hw
  | @scopes owner sited n I A k _ ih =>
    have hn := List.nodup_cons.mp hnodup
    exact .scopes (ih hn.2 (fun m hm h => hn.1 (by cases h; exact hm)) hw.scopes)
      (hw.fresh n List.mem_cons_self) hn.1 hw.stack_lt

/-! ## Programs -/

/-- The outline before anything has been opened. -/
def Outline.empty : Outline :=
  ⟨0, [], [], fun _ => []⟩

theorem Outline.run_openScope_empty {kind : ScopeKind} {block : Anchor} {strict : Bool}
    {w : Outline} (h : Run .empty [.openScope kind block strict] w) :
    w = ⟨1, [0], [], fun n => if block.id = n then [0] else []⟩ := by
  cases h.step with
  | plain ha => cases ha
  | openScope => rfl

/-- In the first scope, that of the node `n`, other nodes can be walked. -/
theorem Outline.admits_first {n : Nat} {M : List Nat} (hM : ∀ k ∈ M, some n ≠ some k) :
    Admits (some n) false M ⟨1, [0], [], fun k => if n = k then [0] else []⟩ where
  stack_ne_nil := by simp
  stack_lt := by simp
  sites_subset := by simp
  sites_ne_nil := by simp
  fresh k hk := if_neg fun h => hM k hk (congrArg some h)
  owner_stack k hk := by
    cases hk
    exact ⟨[0], [], rfl, if_pos rfl⟩

/-- In the end no scope is open, whatever the numbers of the nodes are. -/
theorem Program.stack_eq_nil {o : Options} {p : Program} {w : Outline}
    (h : Run .empty (Program.actions o p) w) : w.stack = [] := by
  obtain ⟨strict, M, A, hactions, -, I, -, hA⟩ := Program.actions_eq o p
  rw [hactions] at h
  obtain ⟨w₂, h, hclose⟩ := h.exists_of_append
  obtain ⟨w₁, hopen, hrun⟩ := h.exists_of_append
  cases Outline.run_openScope_empty hopen
  obtain ⟨τ, ρ, hstack, hρ, hτ⟩ := hA.rests hrun
  cases hclose.step with
  | plain ha => cases ha
  | closeScopes =>
    -- what is left of the first scope belongs to the program, as do the scopes on top of it
    have hfirst : 0 ∈ w₂.scopesOf (Program.mark p).id := hrun.mem_scopesOf (by simp [Anchor.id])
    refine List.dropWhile_eq_nil_iff.mpr fun t ht => decide_eq_true ?_
    rw [hstack] at ht
    rcases List.mem_append.mp ht with ht | ht
    · obtain ⟨n, hn, htn⟩ := hτ t ht
      cases hn
      exact htn
    · rw [List.mem_singleton.mp (hρ.mem ht)]
      exact hfirst

/-- If the nodes of a program are distinct, so are those that are walked inside of it. -/
theorem nodup_of_count_le {I N : List Nat} {n : Nat} (hnodup : (n :: N).Nodup)
    (hcount : ∀ k, I.count k ≤ N.count k) : I.Nodup ∧ ∀ k ∈ I, some n ≠ some k := by
  obtain ⟨hn, hN⟩ := List.nodup_cons.mp hnodup
  constructor
  · exact List.nodup_iff_count.mpr fun k =>
      Nat.le_trans (hcount k) (List.nodup_iff_count.mp hN k)
  · rintro k hk ⟨⟩
    exact hn (List.count_pos_iff.mp (Nat.lt_of_lt_of_le (List.count_pos_iff.mpr hk) (hcount n)))

/-- If the nodes are distinct, every action of a program finds what it needs. -/
theorem Program.orderly_actions (o : Options) {p : Program} (hids : (Tree.ids p).Nodup) :
    Orderly .empty (Program.actions o p) := by
  obtain ⟨strict, M, A, hactions, hmarks, I, hcount, hA⟩ := Program.actions_eq o p
  rw [Tree.ids, hmarks] at hids
  obtain ⟨hI, hroot⟩ := nodup_of_count_le hids hcount
  rw [hactions]
  refine Orderly.append (Orderly.append (.of_permits ⟨fun _ => ⟨rfl, rfl⟩, fun t ht => ?_⟩)
    fun w₁ hopen => ?_) fun _ _ => .of_permits trivial
  · cases ht
  · cases Outline.run_openScope_empty hopen
    exact (hA.balanced hI hroot (Outline.admits_first hroot)).1

end EcmaScope
