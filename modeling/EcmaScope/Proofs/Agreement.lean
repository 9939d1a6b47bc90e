import Mathlib.Data.List.Forall2

/-!
# Agreeing computations

Two runs of the same construction on related inputs are compared step by step. Both runs may fail,
and then for the same reason; otherwise their results are related, table by table and row by row.

## Main definitions

* `Agree`: the same failure, or related results.
* `Rows`: tables whose rows are related.

## Main results

* `Agree.bind`, `Agree.foldlM`: computations one after the other.
* `Rows.push`, `Rows.modify`: changes of both tables.
-/

namespace EcmaScope

/-- Both computations fail for the same reason, or they have related results. -/
inductive Agree {ε α β : Type} (R : α → β → Prop) : Except ε α → Except ε β → Prop
  | error (e : ε) : Agree R (.error e) (.error e)
  | ok {x : α} {y : β} (h : R x y) : Agree R (.ok x) (.ok y)

namespace Agree

variable {ε α β γ δ : Type} {R : α → β → Prop} {Q : γ → δ → Prop}

theorem refl (x : Except ε α) : Agree Eq x x := by
  cases x with
  | error e => exact .error e
  | ok a => exact .ok rfl

theorem mono_of_ok {Q : α → β → Prop} {x : Except ε α} {y : Except ε β} (h : Agree R x y)
    (hRQ : ∀ a b, x = .ok a → y = .ok b → R a b → Q a b) : Agree Q x y := by
  cases h with
  | error e => exact .error e
  | ok h => exact .ok (hRQ _ _ rfl rfl h)

theorem mono {Q : α → β → Prop} {x : Except ε α} {y : Except ε β} (h : Agree R x y)
    (hRQ : ∀ a b, R a b → Q a b) : Agree Q x y :=
  h.mono_of_ok fun a b _ _ => hRQ a b

theorem exists_ok {x : Except ε α} {y : Except ε β} (h : Agree R x y) (hx : x.isOk = true) :
    ∃ a b, x = .ok a ∧ y = .ok b ∧ R a b := by
  cases h with
  | error e => nomatch hx
  | ok h => exact ⟨_, _, rfl, rfl, h⟩

theorem bind_of_ok {x : Except ε α} {y : Except ε β} (h : Agree R x y) {f : α → Except ε γ}
    {g : β → Except ε δ} (hfg : ∀ a b, x = .ok a → y = .ok b → R a b → Agree Q (f a) (g b)) :
    Agree Q (x >>= f) (y >>= g) := by
  cases h with
  | error e => exact .error e
  | ok h => exact hfg _ _ rfl rfl h

theorem bind {x : Except ε α} {y : Except ε β} (h : Agree R x y) {f : α → Except ε γ}
    {g : β → Except ε δ} (hfg : ∀ a b, R a b → Agree Q (f a) (g b)) :
    Agree Q (x >>= f) (y >>= g) :=
  h.bind_of_ok fun a b _ _ => hfg a b

theorem foldlM {X : List γ} {Y : List δ} (hXY : List.Forall₂ Q X Y) {f : α → γ → Except ε α}
    {g : β → δ → Except ε β} (hfg : ∀ a b, R a b → ∀ c d, Q c d → Agree R (f a c) (g b d)) {a : α}
    {b : β} (h : R a b) : Agree R (X.foldlM f a) (Y.foldlM g b) := by
  induction hXY generalizing a b with
  | nil => exact .ok h
  | cons hcd _ ih => exact (hfg a b h _ _ hcd).bind fun _ _ h => ih h

/-- Both computations go through the same list. -/
theorem foldlM_same {f : α → γ → Except ε α} {g : β → γ → Except ε β}
    (hfg : ∀ a b, R a b → ∀ c, Agree R (f a c) (g b c)) (X : List γ) {a : α} {b : β} (h : R a b) :
    Agree R (X.foldlM f a) (X.foldlM g b) :=
  foldlM (List.forall₂_same.2 fun _ _ => rfl) (fun a b h c _ hcd => hcd ▸ hfg a b h c) h

end Agree

/-- Related states stay related while both go through the same list. -/
theorem foldl_rel {α β γ : Type} {R : α → β → Prop} {f : α → γ → α} {g : β → γ → β}
    (hfg : ∀ a b, R a b → ∀ c, R (f a c) (g b c)) (X : List γ) {a : α} {b : β} (h : R a b) :
    R (X.foldl f a) (X.foldl g b) := by
  induction X generalizing a b with
  | nil => exact h
  | cons c X ih => exact ih (hfg a b h c)

/-- The tables have the same length, and their rows are related. -/
def Rows {α β : Type} (R : α → β → Prop) (X : Array α) (Y : Array β) : Prop :=
  ∀ i : Nat, Option.Rel R X[i]? Y[i]?

namespace Rows

variable {α β : Type} {R : α → β → Prop} {X : Array α} {Y : Array β}

theorem empty : Rows R #[] #[] :=
  fun _ => .none

theorem cases (h : Rows R X Y) (i : Nat) :
    X[i]? = none ∧ Y[i]? = none ∨ ∃ x y, X[i]? = some x ∧ Y[i]? = some y ∧ R x y := by
  have hi := h i
  generalize X[i]? = x at hi ⊢
  generalize Y[i]? = y at hi ⊢
  cases hi with
  | none => exact .inl ⟨rfl, rfl⟩
  | some hxy => exact .inr ⟨_, _, rfl, rfl, hxy⟩

theorem size_eq (h : Rows R X Y) : Y.size = X.size := by
  have hi : ∀ i, X.size ≤ i ↔ Y.size ≤ i := by
    intro i
    rw [← Array.getElem?_eq_none_iff, ← Array.getElem?_eq_none_iff]
    rcases h.cases i with ⟨hx, hy⟩ | ⟨x, y, hx, hy, -⟩
    · simp [hx, hy]
    · simp [hx, hy]
  exact Nat.le_antisymm ((hi _).1 (Nat.le_refl _)) ((hi _).2 (Nat.le_refl _))

theorem push (h : Rows R X Y) {x : α} {y : β} (hxy : R x y) : Rows R (X.push x) (Y.push y) := by
  intro i
  rw [Array.getElem?_push, Array.getElem?_push, h.size_eq]
  split
  · exact .some hxy
  · exact h i

theorem modify (h : Rows R X Y) (j : Nat) {f : α → α} {g : β → β}
    (hfg : ∀ x y, R x y → R (f x) (g y)) : Rows R (X.modify j f) (Y.modify j g) := by
  intro i
  rw [Array.getElem?_modify, Array.getElem?_modify]
  split
  · rcases h.cases i with ⟨hx, hy⟩ | ⟨x, y, hx, hy, hxy⟩
    · rw [hx, hy]
      exact .none
    · rw [hx, hy]
      exact .some (hfg x y hxy)
  · exact h i

/-- Tables that are the same as far as a function tells. -/
theorem iff_map {f : α → β} {Y : Array α} :
    Rows (fun x y => f y = f x) X Y ↔ ∀ i : Nat, (Y[i]?).map f = (X[i]?).map f := by
  refine forall_congr' fun i => ?_
  cases X[i]? with
  | none => cases Y[i]? <;> simp
  | some x => cases Y[i]? <;> simp

theorem map_eq {f : α → β} {Y : Array α} (h : Rows (fun x y => f y = f x) X Y) :
    Y.map f = X.map f := by
  apply Array.ext_getElem?
  intro i
  rw [Array.getElem?_map, Array.getElem?_map, iff_map.1 h i]

/-- A row of the second table is a function of the row of the first one. -/
theorem eq_map {f : α → β} (h : Rows R X Y) (hf : ∀ x y, R x y → y = f x) : Y = X.map f := by
  apply Array.ext_getElem?
  intro i
  rw [Array.getElem?_map]
  rcases h.cases i with ⟨hx, hy⟩ | ⟨x, y, hx, hy, hxy⟩
  · rw [hx, hy]
    rfl
  · rw [hx, hy, hf x y hxy]
    rfl

end Rows

end EcmaScope
