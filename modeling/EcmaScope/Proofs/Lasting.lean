import EcmaScope.Proofs.Phrases
import EcmaScope.Proofs.Runs

/-!
# What lasts

When scopes are closed it is settled what names mean, and the variables are made that nothing
declares. Everything else that an action has put into the tables lasts: how names are used, what
scopes bind and how, and which scopes are dynamic. So the tables in the end tell what the actions
have done one after the other, and for every action it is enough to say what it adds.

## Main definitions

* `Scope.lasting`, `Reference.lasting`, `Variable.lasting`: what lasts of the entries of the tables.
* `Builder.Kept`: what lasts is as it was.
* `Builder.Effect`: what an action does, apart from what it settles.

## Main results

* `Builder.kept_closeAll`: closing scopes keeps what lasts.
* `Builder.effect_of_step`: every action that does not fail has its effect.
-/

namespace EcmaScope

/-- A scope without what is settled when scopes are closed. -/
def Scope.lasting (y : Scope) : Scope :=
  { y with through := #[], taints := {}, implicit := none, pending := none }

/-- A reference without what is settled when scopes are closed. -/
def Reference.lasting (x : Reference) : Reference :=
  { x with tainted := false, resolved := none }

/-- A variable without what is settled when scopes are closed. -/
def Variable.lasting (x : Variable) : Variable :=
  { x with references := #[], tainted := false, stack := true }

/-- A scope without what changes as long as it is open, except by calls of `eval`. -/
def Scope.core (y : Scope) : Scope :=
  { y.lasting with children := #[], bindings := {}, references := #[], thisFound := false }

/-- The core of the scope with a number. -/
def Analysis.core? (a : Analysis) (t : Nat) : Option Scope :=
  (a.scopes[t]?).map Scope.core

/-- What lasts of the references. -/
def Analysis.record (a : Analysis) : List Reference :=
  a.references.toList.map Reference.lasting

theorem Bindings.find?_add (bindings : Bindings) (name n : String) (v : Nat) :
    (bindings.add name v).find? n = if n = name then some v else bindings.find? n := by
  by_cases h : n = name
  · simp [find?, add, h]
  · simp [find?, add, Std.TreeMap.getElem?_insert, h, Ne.symm h]

/-- Computations that do not fail, one after the other, keep what each of them keeps. -/
theorem foldlM_keeps {ε α γ : Type} {P : α → Prop} {f : α → γ → Except ε α} {l : List γ} {x x' : α}
    (hf : ∀ {x x' : α} {c : γ}, c ∈ l → f x c = .ok x' → P x → P x')
    (h : l.foldlM f x = .ok x') (hP : P x) : P x' := by
  induction l generalizing x with
  | nil =>
    cases h
    exact hP
  | cons c l ih =>
    rw [List.foldlM_cons] at h
    cases hc : f x c with
    | error e =>
      rw [hc] at h
      cases h
    | ok x₁ =>
      rw [hc] at h
      exact ih (fun hmem => hf (List.mem_cons_of_mem c hmem)) h (hf List.mem_cons_self hc hP)

namespace Builder

variable {b b' b'' : Builder} {o : Options} {S T : List Nat} {s n m : Nat}

/-! ## Keeping what lasts -/

/-- What lasts is as it was, of the variables before the number `n`. Only scopes of `S` may have
been given variables that nothing declares. -/
structure Kept (S : List Nat) (n : Nat) (b b' : Builder) : Prop where
  scopes : ∀ t : Nat, (b'.scopes[t]?).map Scope.lasting = (b.scopes[t]?).map Scope.lasting
  implicit : ∀ t : Nat, t ∉ S →
    (b'.scopes[t]?).map Scope.implicit = (b.scopes[t]?).map Scope.implicit
  references : ∀ r : Nat, (b'.references[r]?).map Reference.lasting =
    (b.references[r]?).map Reference.lasting
  vars : ∀ v : Nat, v < n → (b'.vars[v]?).map Variable.lasting = (b.vars[v]?).map Variable.lasting
  le_size : b.vars.size ≤ b'.vars.size

namespace Kept

theorem refl (b : Builder) : Kept S n b b :=
  ⟨fun _ => rfl, fun _ _ => rfl, fun _ => rfl, fun _ _ => rfl, Nat.le_refl _⟩

theorem trans (h : Kept S n b b') (h' : Kept S n b' b'') : Kept S n b b'' where
  scopes t := (h'.scopes t).trans (h.scopes t)
  implicit t ht := (h'.implicit t ht).trans (h.implicit t ht)
  references r := (h'.references r).trans (h.references r)
  vars v hv := (h'.vars v hv).trans (h.vars v hv)
  le_size := Nat.le_trans h.le_size h'.le_size

theorem mono (h : Kept S n b b') (hS : S ⊆ T) (hmn : m ≤ n) : Kept T m b b' where
  scopes := h.scopes
  implicit t ht := h.implicit t fun hs => ht (hS hs)
  references := h.references
  vars v hv := h.vars v (Nat.lt_of_lt_of_le hv hmn)
  le_size := h.le_size

/-- A change of one scope. -/
theorem modifyScope (b : Builder) (t : Nat) (f : Scope → Scope)
    (hf : ∀ y, (f y).lasting = y.lasting) (himplicit : t ∉ S → ∀ y, (f y).implicit = y.implicit) :
    Kept S n b (b.modifyScope t f) where
  scopes u := (edited_modifyScope b t f).map_eq _ fun y _ => by
    split
    · exact hf y
    · rfl
  implicit u hu := (edited_modifyScope b t f).map_eq _ fun y _ => by
    split
    · next ht => exact himplicit (ht ▸ hu) y
    · rfl
  references _ := rfl
  vars _ _ := rfl
  le_size := Nat.le_refl _

theorem modifyReference (b : Builder) (r : Nat) (f : Reference → Reference)
    (hf : ∀ x, (f x).lasting = x.lasting) :
    Kept S n b { b with references := b.references.modify r f } where
  scopes _ := rfl
  implicit _ _ := rfl
  references u := by
    rw [Array.getElem?_modify]
    split
    · cases b.references[u]? with
      | none => rfl
      | some x => exact congrArg some (hf x)
    · rfl
  vars _ _ := rfl
  le_size := Nat.le_refl _

/-- Changes of one variable and of one reference that do not last. -/
theorem modifyEntries (h : Kept S n b b') (v r : Nat) {f : Variable → Variable}
    {g : Reference → Reference} (hf : ∀ x, (f x).lasting = x.lasting)
    (hg : ∀ x, (g x).lasting = x.lasting) :
    Kept S n b
      { b' with vars := b'.vars.modify v f, references := b'.references.modify r g } where
  scopes := h.scopes
  implicit := h.implicit
  references u := ((modifyReference (S := S) (n := n) b' r g hg).references u).trans
    (h.references u)
  vars u hu := by
    rw [← h.vars u hu, Array.getElem?_modify]
    split
    · cases b'.vars[u]? with
      | none => rfl
      | some x => exact congrArg some (hf x)
    · rfl
  le_size := by
    rw [Array.size_modify]
    exact h.le_size

theorem foldl {f : Builder → Nat → Builder} (hf : ∀ b r, Kept S n b (f b r)) (l : List Nat)
    (b : Builder) : Kept S n b (l.foldl f b) := by
  induction l generalizing b with
  | nil => exact .refl b
  | cons r l ih => exact (hf b r).trans (ih _)

theorem foldlM {f : Builder → Nat → Except AnalysisError Builder}
    (hf : ∀ {b b' : Builder} {r : Nat}, f b r = .ok b' → Kept S n b b') {l : List Nat}
    (h : l.foldlM f b = .ok b') : Kept S n b b' :=
  foldlM_keeps (fun _ hr hkept => hkept.trans (hf hr)) h (.refl b)

end Kept

/-! ## Settling references -/

theorem kept_resolve (b : Builder) (s r v : Nat) (x : Reference) :
    Kept S n b (b.resolve s r v x) := by
  have htaints : Kept S n b (if x.tainted then
      b.modifyScope s fun y => { y with taints := y.taints.insert x.name } else b) := by
    split
    · exact .modifyScope b s _ (fun _ => rfl) fun _ _ => rfl
    · exact .refl b
  refine htaints.modifyEntries v r ?_ ?_
  · exact fun _ => rfl
  · exact fun _ => rfl

private theorem kept_letThrough (b : Builder) (s r : Nat) : Kept S n b (b.letThrough s r) :=
  .modifyScope b s _ (fun _ => rfl) fun _ _ => rfl

private theorem kept_passOn {r : Nat} (h : b.passOn s r = .ok b') : Kept S n b b' := by
  unfold passOn at h
  split at h
  · cases h
    exact kept_letThrough b s r
  · split at h
    · cases h
    · cases h
      refine .trans ?_ (kept_letThrough _ s r)
      exact .modifyScope b _ _ (fun _ => rfl) fun _ _ => rfl

private theorem kept_settle {r : Nat} (h : b.settle s r = .ok b') : Kept S n b b' := by
  unfold settle at h
  split at h
  · cases h
    exact .refl b
  · split at h
    · cases h
      exact kept_resolve b s r _ _
    · exact kept_passOn h

private theorem kept_taint {r : Nat} (h : b.taint s r = .ok b') : Kept S n b b' := by
  refine .trans ?_ (kept_passOn h)
  exact .modifyReference b r _ fun _ => rfl

theorem kept_settleAll {scope : Scope} {left : List Nat}
    (h : b.settleAll o s scope left = .ok b') : Kept S n b b' := by
  unfold settleAll at h
  split at h
  · exact .foldlM kept_settle h
  · split at h
    · exact .foldlM kept_taint h
    · cases h
      exact .foldl (fun b r => .foldl (fun b t => kept_letThrough b t r) _ b) _ b

/-! ## Variables that nothing declares -/

/-- The variables of the scope `s` that nothing declares have numbers from `n` on. -/
structure Apart (s n : Nat) (b : Builder) : Prop where
  le_size : n ≤ b.vars.size
  le_of_find? : ∀ {y : Scope} {i : ImplicitGlobals} {name : String} {v : Nat},
    b.scopes[s]? = some y →
    y.implicit = some i → i.bindings.find? name = some v → n ≤ v

/-- The variable of a name is there, or it is made at the end of the table. -/
theorem ensure_cases (b : Builder) (bindings : Bindings) (s : Nat) (name : String) :
    (∃ v, bindings.find? name = some v ∧ b.ensure bindings s name = (b, bindings, v)) ∨
      bindings.find? name = none ∧ b.ensure bindings s name =
        ({ b with vars := b.vars.push { name := name, scope := s } },
          bindings.add name b.vars.size, b.vars.size) := by
  unfold ensure
  cases h : bindings.find? name with
  | none => exact .inr ⟨rfl, rfl⟩
  | some v => exact .inl ⟨v, rfl, rfl⟩

private theorem vars_noteDeclared (b : Builder) (node v : Nat) :
    (b.noteDeclared node v).vars = b.vars := by
  unfold noteDeclared
  dsimp only
  split <;> rfl

theorem vars_define (b : Builder) (v : Nat) (d : Definition) :
    (b.define v d).vars = b.vars.modify v fun x =>
      { x with defs := x.defs.push d, identifiers := x.identifiers.push d.name } := by
  unfold define
  cases d.kind.parent? with
  | none => simp only [vars_noteDeclared]
  | some parent => simp only [vars_noteDeclared]

theorem scopes_define (b : Builder) (v : Nat) (d : Definition) (t : Nat) :
    (b.define v d).scopes[t]? = b.scopes[t]? := by
  rw [(edited_define b v d).scopes, Option.map_id']

/-- Defining a variable that is not looked at. -/
theorem kept_define {v : Nat} (hv : n ≤ v) (b : Builder) (d : Definition) :
    Kept S n b (b.define v d) where
  scopes t := by rw [scopes_define]
  implicit t _ := by rw [scopes_define]
  references r := by rw [references_define]
  vars u hu := by
    rw [vars_define, Array.getElem?_modify, if_neg (by omega)]
  le_size := by rw [vars_define, Array.size_modify]

private theorem kept_ensure {name : String} (hn : n ≤ b.vars.size) (bindings : Bindings) :
    Kept S n b (b.ensure bindings s name).1 := by
  rcases b.ensure_cases bindings s name with ⟨v, -, heq⟩ | ⟨-, heq⟩
  · rw [heq]
    exact .refl b
  · rw [heq]
    refine ⟨fun _ => rfl, fun _ _ => rfl, fun _ => rfl, fun v hv => ?_, ?_⟩
    · rw [Array.getElem?_push, if_neg (by omega)]
    · rw [Array.size_push]
      exact Nat.le_succ _

theorem Apart.declareImplicit (hb : Apart s n b) (d : Definition) :
    Kept [s] n b (b.declareImplicit s d) ∧ Apart s n (b.declareImplicit s d) := by
  unfold Builder.declareImplicit
  split
  · exact ⟨.refl b, hb⟩
  next scope hscope =>
  split
  · exact ⟨.refl b, hb⟩
  next i hi =>
  have hle : n ≤ (b.ensure i.bindings s d.name.name).2.2 := by
    rcases b.ensure_cases i.bindings s d.name.name with ⟨v, hv, heq⟩ | ⟨-, heq⟩
    · rw [heq]
      exact hb.le_of_find? hscope hi hv
    · rw [heq]
      exact hb.le_size
  have hensure : Kept [s] n b (b.ensure i.bindings s d.name.name).1 := kept_ensure hb.le_size _
  refine ⟨?_, ?_, ?_⟩
  · refine .trans (hensure.trans ?_) (kept_define hle _ d)
    exact .modifyScope _ s _ (fun _ => rfl) fun h => absurd List.mem_cons_self h
  · rw [vars_define, Array.size_modify]
    exact Nat.le_trans hb.le_size hensure.le_size
  · intro y j name v hy hj hv
    rw [scopes_define, (edited_modifyScope _ s _).scopes] at hy
    obtain ⟨z, -, rfl⟩ := Option.map_eq_some_iff.mp hy
    rw [if_pos rfl] at hj
    cases hj
    rcases b.ensure_cases i.bindings s d.name.name with ⟨u, hu, heq⟩ | ⟨-, heq⟩
    · rw [heq] at hv
      exact hb.le_of_find? hscope hi hv
    · rw [heq, Bindings.find?_add] at hv
      split at hv
      · cases hv
        exact hb.le_size
      · exact hb.le_of_find? hscope hi hv

theorem Apart.createImplicit (hb : Apart s n b) (r : Nat) :
    Kept [s] n b (b.createImplicit s r) ∧ Apart s n (b.createImplicit s r) := by
  unfold Builder.createImplicit
  split
  · exact ⟨.refl b, hb⟩
  split
  · exact ⟨.refl b, hb⟩
  split
  · exact ⟨.refl b, hb⟩
  · exact hb.declareImplicit _

theorem Apart.createImplicits (hb : Apart s n b) (left : Array Nat) :
    Kept [s] n b (b.createImplicits s left) := by
  have hall (l : List Nat) {b : Builder} (hb : Apart s n b) :
      Kept [s] n b (l.foldl (fun b r => b.createImplicit s r) b) := by
    induction l generalizing b with
    | nil => exact .refl b
    | cons r l ih => exact (hb.createImplicit r).1.trans (ih (hb.createImplicit r).2)
  refine (hall left.toList hb).trans ?_
  exact .modifyScope _ s _ (fun _ => rfl) fun h => absurd List.mem_cons_self h

/-! ## Closing scopes -/

/-- Before a scope is closed, all of its variables are declared. -/
def Unsettled (b : Builder) : Prop :=
  ∀ (t : Nat) (y : Scope) (i : ImplicitGlobals) (name : String), b.scopes[t]? = some y →
    y.pending.isSome = true → y.implicit = some i → i.bindings.find? name = none

theorem Unsettled.empty : Unsettled {} := by
  intro t y i name hy
  simp at hy

theorem closeScope_cases (h : b.closeScope o s = .ok b') :
    ∃ scope left b₁, b.scopes[s]? = some scope ∧ scope.pending = some left ∧
      (b.stopWaiting s).settleAll o s scope left.toList = .ok b₁ ∧
      b' = { (if scope.kind = .global then b₁.createImplicits s left else b₁) with
        stack := (if scope.kind = .global then b₁.createImplicits s left else b₁).stack.tail } := by
  cases hscope : b.scopes[s]? with
  | none => simp [closeScope, hscope] at h
  | some scope =>
    cases hleft : scope.pending with
    | none => simp [closeScope, hscope, hleft] at h
    | some left =>
      cases hsettle : (b.stopWaiting s).settleAll o s scope left.toList with
      | error e =>
        unfold stopWaiting at hsettle
        simp [closeScope, hscope, hleft, hsettle, bind, Except.bind] at h
      | ok b₁ =>
        rw [closeScope_of_settleAll hscope hleft hsettle] at h
        exact ⟨scope, left, b₁, rfl, hleft, hsettle, (Except.ok.inj h).symm⟩

/-- Closing a scope keeps what lasts. -/
theorem kept_closeScope (hb : Unsettled b) (h : b.closeScope o s = .ok b') :
    Kept [s] b.vars.size b b' := by
  obtain ⟨scope, left, b₁, hscope, hleft, hsettle, rfl⟩ := closeScope_cases h
  have hwaiting : Kept [] b.vars.size b (b.stopWaiting s) :=
    .modifyScope b s _ (fun _ => rfl) fun _ _ => rfl
  have hsettled : Kept [] b.vars.size b b₁ := hwaiting.trans (kept_settleAll hsettle)
  have hkept : Kept [s] b.vars.size b
      (if scope.kind = .global then b₁.createImplicits s left else b₁) := by
    split
    · refine (hsettled.mono (List.nil_subset _) (Nat.le_refl _)).trans
        (Apart.createImplicits ⟨hsettled.le_size, ?_⟩ left)
      intro y i name v hy hi hv
      have himplicit := hsettled.implicit s List.not_mem_nil
      rw [hy, hscope] at himplicit
      have hnone := hb s scope i name hscope (by rw [hleft]; rfl)
        ((Option.some.inj himplicit).symm.trans hi)
      rw [hnone] at hv
      cases hv
    · exact hsettled.mono (List.nil_subset _) (Nat.le_refl _)
  exact ⟨hkept.scopes, hkept.implicit, hkept.references, hkept.vars, hkept.le_size⟩

theorem Unsettled.closed {optimistic : Bool} (hb : Unsettled b)
    (hclosed : Closed optimistic s b b') (hkept : Kept [s] n b b') : Unsettled b' := by
  intro t y i name hy hpending hi
  have hframe := congrFun hclosed.frame? t
  rw [Analysis.frame?_of_getElem? hy, Layout.closed] at hframe
  obtain ⟨f, hf, hfy⟩ := Option.map_eq_some_iff.mp hframe.symm
  obtain ⟨z, hz, rfl⟩ := Analysis.frame?_eq_some hf
  have hisOpen : (z.pending.isSome && decide (t ≠ s)) = y.pending.isSome :=
    congrArg Frame.isOpen hfy
  rw [hpending, Bool.and_eq_true, decide_eq_true_iff] at hisOpen
  have himplicit := hkept.implicit t (by simpa using hisOpen.2)
  rw [hy, hz] at himplicit
  exact hb t z i name hz hisOpen.1 ((Option.some.inj himplicit).symm.trans hi)

/-- Closing scopes at the top of the stack keeps what lasts. -/
theorem kept_closeAll {l rest : List Nat} (hb : WellFormed b) (hunsettled : Unsettled b)
    (hstack : b.stack = l ++ rest) (h : l.foldlM (closeScope o) b = .ok b') :
    Kept l b.vars.size b b' ∧ Unsettled b' := by
  let P (c : Builder) : Prop := Kept l b.vars.size b c ∧ Unsettled c
  refine closeAll_keeps (P := P) ?_ hb hstack h ⟨.refl b, hunsettled⟩
  rintro c c' s hs - hclosed hclose ⟨hkept, hunsettled⟩
  have hnext := kept_closeScope hunsettled hclose
  have hmem : [s] ⊆ l := List.cons_subset.mpr ⟨hs, List.nil_subset l⟩
  exact ⟨hkept.trans (hnext.mono hmem hkept.le_size), hunsettled.closed hclosed hnext⟩

theorem Unsettled.edited {edit : Nat → Scope → Scope} (hb : Unsettled b) (h : Edited edit b b')
    (hkeep : ∀ {t y}, b.scopes[t]? = some y →
      ((edit t y).pending.isSome = true → y.pending.isSome = true) ∧
        (edit t y).implicit = y.implicit) : Unsettled b' := by
  intro t y i name hy hpending hi
  rw [h.scopes] at hy
  obtain ⟨z, hz, rfl⟩ := Option.map_eq_some_iff.mp hy
  obtain ⟨hkeepPending, hkeepImplicit⟩ := hkeep hz
  exact hb t z i name hz (hkeepPending hpending) (hkeepImplicit.symm.trans hi)

theorem Unsettled.pushScope {scope : Scope} (hb : Unsettled b)
    (hscope : ∀ {i name}, scope.implicit = some i → i.bindings.find? name = none) :
    Unsettled (b.pushScope scope) := by
  intro t y i name hy hpending hi
  rw [scopes_pushScope] at hy
  split at hy
  · cases hy
    exact hscope hi
  · obtain ⟨z, hz, rfl⟩ := Option.map_eq_some_iff.mp hy
    split at hpending
    · next hhead =>
      rw [if_pos hhead] at hi
      exact hb t z i name hz hpending hi
    · next hhead =>
      rw [if_neg hhead] at hi
      exact hb t z i name hz hpending hi

/-! ## Effects -/

/-- The scope that receives what is declared in the scope `s`. -/
def receiver (b : Builder) (s : Nat) : Reach → Nat
  | .innermost => s
  | .variableScope => b.variableScope s

/-- What an action does, apart from what it settles. -/
inductive Effect (o : Options) (b : Builder) : Action → Builder → Prop
  | openScope (kind : ScopeKind) (block : Anchor) (strict : Bool) (v : Nat) :
      Effect o b (.openScope kind block strict)
        (if kind = .function && !block.isArrow then
          (b.pushScope (b.newScope o kind block strict v)).declareArguments b.scopes.size
        else b.pushScope (b.newScope o kind block strict v))
  | closeScopes {b' : Builder} (n : Nat) (h : Kept (b.openFor n) b.vars.size b b') :
      Effect o b (.closeScopes n) b'
  | beginSite (reach : Reach) {s : Nat} (hs : b.stack.head? = some s) :
      Effect o b (.beginSite reach) { b with sites := b.receiver s reach :: b.sites }
  | endSite : Effect o b .endSite { b with sites := b.sites.tail }
  | declare (d : Definition) {s : Nat} (hs : b.sites.head? = some s) :
      Effect o b (.declare d) (b.declareIn s d)
  | refer {b' : Builder} (i : Identifier) (use : Use) (creator : Option Anchor) {s : Nat}
      {pending : Array Nat} (hs : b.stack.head? = some s)
      (hreferences : b'.references = b.references.push (b.newReference s i use creator))
      (hvars : b'.vars = b.vars)
      (hedited : Edited (fun t y => if t = s then
        { y with
          references := y.references.push b.references.size
          pending := some (pending.push b.references.size) } else y) b b') :
      Effect o b (.refer i use creator) b'
  | needScope : Effect o b .needScope b
  | useThis (s : Nat) : Effect o b .useThis (b.modifyScope s fun x => { x with thisFound := true })
  | callEval {b' : Builder} {s : Nat} (hs : b.stack.head? = some s)
      (hreferences : b'.references = b.references) (hvars : b'.vars = b.vars)
      (hedited : Edited
        (evalEdit (b.variableScope s) (b.stack.dropWhile (· ≠ b.variableScope s))) b b') :
      Effect o b .callEval b'

theorem openScope_cases {kind : ScopeKind} {block : Anchor} {strict : Bool}
    (h : b.openScope o kind block strict = .ok b') :
    ∃ v, b' = if kind = .function && !block.isArrow then
        (b.pushScope (b.newScope o kind block strict v)).declareArguments b.scopes.size
      else b.pushScope (b.newScope o kind block strict v) := by
  cases hkind : kind.isVariableScope with
  | true =>
    rw [openScope_eq (fun _ => rfl) (fun h => by simp [hkind] at h)] at h
    exact ⟨_, (Except.ok.inj h).symm⟩
  | false =>
    cases hcurrent : b.current with
    | error e => simp [openScope, hkind, hcurrent, bind, Except.bind] at h
    | ok u =>
      rw [openScope_eq (fun h => by simp [hkind] at h) (fun _ => ⟨u, hcurrent, rfl⟩)] at h
      exact ⟨_, (Except.ok.inj h).symm⟩

theorem step_current {f : Nat → Except AnalysisError Builder} (h : b.current >>= f = .ok b') :
    ∃ s rest, b.stack = s :: rest ∧ f s = .ok b' := by
  cases hstack : b.stack with
  | nil =>
    rw [current_bind_of_nil hstack] at h
    cases h
  | cons s rest =>
    rw [current_bind_of_cons hstack] at h
    exact ⟨s, rest, rfl, h⟩

/-- An action that does not fail has its effect. -/
theorem effect_of_step {a : Action} (hb : WellFormed b) (hunsettled : Unsettled b)
    (h : step o b a = .ok b') : Effect o b a b' ∧ Unsettled b' := by
  cases a with
  | openScope kind block strict =>
    obtain ⟨v, rfl⟩ := openScope_cases h
    refine ⟨.openScope kind block strict v, ?_⟩
    have hpushed : Unsettled (b.pushScope (b.newScope o kind block strict v)) := by
      refine hunsettled.pushScope fun {i name} hi => ?_
      simp only [newScope] at hi
      split at hi
      · cases hi
        simp [Bindings.find?]
      · cases hi
    split
    · have hnew : (b.pushScope (b.newScope o kind block strict v)).scopes[b.scopes.size]? =
          some (b.newScope o kind block strict v) := by
        rw [scopes_pushScope, if_pos rfl]
      refine hpushed.edited (edited_declareArguments hnew) fun {t y} _ => ?_
      split <;> exact ⟨id, rfl⟩
    · exact hpushed
  | closeScopes n =>
    obtain ⟨hkept, hunsettled'⟩ := kept_closeAll hb hunsettled (openFor_append hb n).symm h
    exact ⟨.closeScopes n hkept, hunsettled'⟩
  | beginSite reach =>
    cases reach with
    | innermost =>
      obtain ⟨s, rest, hstack, h⟩ := step_current h
      cases h
      exact ⟨.beginSite .innermost (by rw [hstack]; rfl), hunsettled⟩
    | variableScope =>
      obtain ⟨s, rest, hstack, h⟩ := step_current h
      cases h
      exact ⟨.beginSite .variableScope (by rw [hstack]; rfl), hunsettled⟩
  | endSite =>
    cases h
    exact ⟨.endSite, hunsettled⟩
  | declare d =>
    cases hsites : b.sites with
    | nil =>
      rw [step, hsites] at h
      cases h
    | cons s rest =>
      rw [step, hsites] at h
      cases h
      refine ⟨.declare d (by rw [hsites]; rfl), ?_⟩
      cases hs : b.scopes[s]? with
      | none => rwa [declareIn_eq_self hs]
      | some scope =>
        refine hunsettled.edited (edited_declareIn hs d) fun {t y} _ => ?_
        split <;> exact ⟨id, rfl⟩
  | refer i use creator =>
    obtain ⟨s, rest, hstack, -⟩ := step_current h
    obtain ⟨scope, pending, hs, hpending⟩ := exists_pending hb.layout hstack
    obtain ⟨b₁, hb₁, hreferences, hvars, hedited⟩ :=
      refer_of_stack hstack hs hpending i use creator
    cases hb₁.symm.trans h
    refine ⟨.refer i use creator (by rw [hstack]; rfl) hreferences hvars hedited, ?_⟩
    refine hunsettled.edited hedited fun {t y} hy => ?_
    split
    · next ht =>
      rw [ht, hs] at hy
      cases hy
      exact ⟨fun _ => by rw [hpending]; rfl, rfl⟩
    · exact ⟨id, rfl⟩
  | needScope =>
    obtain ⟨s, rest, -, h⟩ := step_current h
    cases h
    exact ⟨.needScope, hunsettled⟩
  | useThis =>
    obtain ⟨s, rest, hstack, -⟩ := step_current h
    cases (useThis_of_stack hstack).symm.trans h
    refine ⟨.useThis _, hunsettled.edited (edited_modifyScope b _ _) fun {t y} _ => ?_⟩
    split <;> exact ⟨id, rfl⟩
  | callEval =>
    obtain ⟨s, rest, hstack, -⟩ := step_current h
    have hnodup := hb.layout.nodup_of_chained hb.layout.chained_stack
    obtain ⟨b₁, hb₁, hreferences, hvars, hedited⟩ := callEval_of_stack hstack hnodup
    cases hb₁.symm.trans h
    refine ⟨.callEval (by rw [hstack]; rfl) hreferences hvars hedited, ?_⟩
    exact hunsettled.edited hedited fun _ => ⟨id, rfl⟩
  | refuseImport loc => cases h

/-! ## What an action adds to the tables -/

private theorem record_eq (h : b'.references = b.references) : b'.record = b.record := by
  rw [Analysis.record, h, Analysis.record]

theorem Kept.record (h : Kept S n b b') : b'.record = b.record := by
  refine List.ext_getElem? fun r => ?_
  simpa [Analysis.record] using h.references r

/-- A reference is made by using a name, in the innermost open scope, and by nothing else. -/
theorem Effect.record_cases {a : Action} (h : Effect o b a b') :
    (a.uses = [] ∧ b'.record = b.record) ∨
      ∃ i use creator s, a = .refer i use creator ∧ b.stack.head? = some s ∧
        b'.record = b.record ++ [b.newReference s i use creator] := by
  cases h with
  | openScope kind block strict v =>
    refine .inl ⟨rfl, record_eq ?_⟩
    split
    · rw [references_declareArguments, references_pushScope]
    · rw [references_pushScope]
  | closeScopes n h => exact .inl ⟨rfl, h.record⟩
  | beginSite | endSite | needScope | useThis => exact .inl ⟨rfl, rfl⟩
  | declare d => exact .inl ⟨rfl, record_eq (references_declareIn b _ d)⟩
  | @refer _ i use creator s _ hs hreferences =>
    refine .inr ⟨i, use, creator, s, rfl, hs, ?_⟩
    simp [Analysis.record, hreferences, newReference, Reference.lasting]
  | callEval _ hreferences => exact .inl ⟨rfl, record_eq hreferences⟩

/-- An action makes at most one reference, in the innermost open scope. -/
theorem Effect.record {a : Action} (h : Effect o b a b') :
    ∃ l, b'.record = b.record ++ l ∧ (l.map fun x => (x.identifier, x.use.flag)) = a.uses ∧
      ∀ x ∈ l, b.stack.head? = some x.scope := by
  rcases h.record_cases with ⟨ha, heq⟩ | ⟨i, use, creator, s, rfl, hs, heq⟩
  · exact ⟨[], by rw [heq, List.append_nil], ha.symm, by simp⟩
  · exact ⟨[b.newReference s i use creator], heq, rfl, by simpa [newReference] using hs⟩

private theorem Edited.core? {edit : Nat → Scope → Scope} (h : Edited edit b b')
    (hedit : ∀ t y, (edit t y).core = y.core) : b'.core? = b.core? :=
  funext fun t => h.map_eq _ fun y _ => hedit t y

theorem Kept.core? (h : Kept S n b b') : b'.core? = b.core? := by
  funext t
  have hcore := congrArg (Option.map Scope.core) (h.scopes t)
  rwa [Option.map_map, Option.map_map] at hcore

private theorem core?_pushScope (b : Builder) (scope : Scope) (t : Nat) :
    (b.pushScope scope).core? t = if t = b.scopes.size then some scope.core else b.core? t := by
  split
  · next ht =>
    rw [Analysis.core?, scopes_pushScope, if_pos ht]
    rfl
  · next ht => exact map_pushScope b scope _ (fun _ _ => rfl) ht

/-- The cores of the scopes change when a scope is opened and when `eval` is called. -/
theorem Effect.core? {a : Action} (h : Effect o b a b') :
    (∃ kind block strict v, a = .openScope kind block strict ∧
        ∀ t, b'.core? t = if t = b.scopes.size then
          some (b.newScope o kind block strict v).core else b.core? t) ∨
      (a = .callEval ∧ ∃ s, b.stack.head? = some s ∧ ∀ t, b'.core? t = (b.core? t).map
        (evalEdit (b.variableScope s) (b.stack.dropWhile (· ≠ b.variableScope s)) t)) ∨
      (a.openings = [] ∧ a ≠ .callEval ∧ b'.core? = b.core?) := by
  cases h with
  | openScope kind block strict v =>
    refine .inl ⟨kind, block, strict, v, rfl, fun t => ?_⟩
    rw [← core?_pushScope]
    split
    · have hnew : (b.pushScope (b.newScope o kind block strict v)).scopes[b.scopes.size]? =
          some (b.newScope o kind block strict v) := by
        rw [scopes_pushScope, if_pos rfl]
      rw [(edited_declareArguments hnew).core? fun t y => by split <;> rfl]
    · rfl
  | closeScopes n h => exact .inr (.inr ⟨rfl, nofun, h.core?⟩)
  | beginSite | endSite | needScope => exact .inr (.inr ⟨rfl, nofun, rfl⟩)
  | @declare d s =>
    refine .inr (.inr ⟨rfl, nofun, ?_⟩)
    cases hs : b.scopes[s]? with
    | none => rw [declareIn_eq_self hs]
    | some scope => exact (edited_declareIn hs d).core? fun t y => by split <;> rfl
  | refer _ _ _ _ _ _ hedited =>
    exact .inr (.inr ⟨rfl, nofun, hedited.core? fun t y => by split <;> rfl⟩)
  | useThis s =>
    exact .inr (.inr ⟨rfl, nofun, (edited_modifyScope b s _).core? fun t y => by split <;> rfl⟩)
  | callEval hs _ _ hedited =>
    refine .inr (.inl ⟨rfl, _, hs, fun t => ?_⟩)
    rw [Analysis.core?, hedited.scopes, Analysis.core?, Option.map_map, Option.map_map]
    rfl

/-! ## Effects one after the other -/

/-- What is true of the tables while actions are carried out. -/
structure Sound (b : Builder) : Prop where
  wellFormed : WellFormed b
  unsettled : Unsettled b
  sites_lt : ∀ s ∈ b.sites, s < b.scopes.size

theorem Sound.empty : Sound {} :=
  ⟨.empty, .empty, by simp⟩

private theorem sites_lt_of_step {w w' : Outline} {a : Action} (h : Outline.Step w a w')
    (hstack : ∀ s ∈ w.stack, s < w.size) (hsites : ∀ s ∈ w.sites, s < w.size) :
    ∀ s ∈ w'.sites, s < w'.size := by
  cases h with
  | openScope => exact fun s hs => Nat.lt_succ_of_lt (hsites s hs)
  | closeScopes | declare | plain => exact hsites
  | beginSite _ hs => exact List.forall_mem_cons.mpr ⟨hstack _ hs, hsites⟩
  | endSite => exact fun s hs => hsites s (List.mem_of_mem_tail hs)

theorem run_cons (o : Options) (b : Builder) (a : Action) (A : List Action) :
    run o b (a :: A) = step o b a >>= fun b' => run o b' A :=
  List.foldlM_cons

/-- The actions `A` have been carried out, each with its effect. -/
inductive Effects (o : Options) : Builder → List Action → Builder → Prop
  | nil {b : Builder} (hb : Sound b) : Effects o b [] b
  | cons {b b' b'' : Builder} {a : Action} {A : List Action} (hb : Sound b)
      (hstep : step o b a = .ok b') (h : Effect o b a b') (hA : Effects o b' A b'') :
      Effects o b (a :: A) b''

theorem Sound.step {a : Action} (hb : Sound b) (h : step o b a = .ok b') :
    Effect o b a b' ∧ Sound b' := by
  obtain ⟨heffect, hunsettled⟩ := effect_of_step hb.wellFormed hb.unsettled h
  have hspec := step_spec o hb.wellFormed a
  rw [h] at hspec
  cases hspec with
  | done hstepped =>
    refine ⟨heffect, hstepped.moves.wellFormed hb.wellFormed, hunsettled, ?_⟩
    exact sites_lt_of_step hstepped.outline (fun s => hb.wellFormed.layout.stack_lt) hb.sites_lt

theorem Sound.run {A : List Action} (hb : Sound b) (h : run o b A = .ok b') :
    Effects o b A b' := by
  induction A generalizing b with
  | nil =>
    cases h
    exact .nil hb
  | cons a A ih =>
    rw [run_cons] at h
    cases hstep : Builder.step o b a with
    | error e =>
      rw [hstep] at h
      cases h
    | ok b₁ =>
      rw [hstep] at h
      exact .cons hb hstep (hb.step hstep).1 (ih (hb.step hstep).2 h)

theorem Effects.run {A : List Action} (h : Effects o b A b') : run o b A = .ok b' := by
  induction h with
  | nil => rfl
  | cons _ hstep _ _ ih =>
    rw [run_cons, hstep]
    exact ih

theorem Effects.ran {A : List Action} (hb : WellFormed b) (h : Effects o b A b') :
    Ran o A b b' := by
  have hspec := run_spec o hb A
  rw [h.run] at hspec
  cases hspec with
  | done hran => exact hran

theorem Effects.start {A : List Action} (h : Effects o b A b') : Sound b := by
  cases h with
  | nil hb | cons hb => exact hb

theorem Effects.single {a : Action} (h : Effects o b [a] b') : Effect o b a b' := by
  cases h with
  | cons _ _ heffect hnil =>
    cases hnil
    exact heffect

/-- The core of a scope that is opened. -/
theorem Effects.exists_opened {kind : ScopeKind} {block : Anchor} {strict : Bool}
    (h : Effects o b [.openScope kind block strict] b') :
    ∃ y v, b'.scopes[b.scopes.size]? = some y ∧
      y.core = (b.newScope o kind block strict v).core := by
  rcases h.single.core? with ⟨_, _, _, v, heq, hcore⟩ | ⟨heq, -⟩ | ⟨heq, -⟩
  · cases heq
    have hnew := hcore b.scopes.size
    rw [if_pos rfl] at hnew
    obtain ⟨y, hy, hycore⟩ := Option.map_eq_some_iff.mp hnew
    exact ⟨y, v, hy, hycore⟩
  · cases heq
  · cases heq

theorem Effects.append {A B : List Action} (hA : Effects o b A b') (hB : Effects o b' B b'') :
    Effects o b (A ++ B) b'' := by
  induction hA with
  | nil => exact hB
  | cons hb hstep h _ ih => exact .cons hb hstep h (ih hB)

theorem Effects.exists_of_append {A B : List Action} (h : Effects o b (A ++ B) b'') :
    ∃ b', Effects o b A b' ∧ Effects o b' B b'' := by
  induction A generalizing b with
  | nil => exact ⟨b, .nil h.start, h⟩
  | cons a A ih =>
    cases h with
    | cons hb hstep heffect hA =>
      obtain ⟨b', hA, hB⟩ := ih hA
      exact ⟨b', .cons hb hstep heffect hA, hB⟩

/-- References that have been made last. -/
theorem Effects.record_prefix {A : List Action} (h : Effects o b A b') :
    b.record <+: b'.record := by
  induction h with
  | nil => exact List.prefix_rfl
  | cons _ _ h _ ih =>
    obtain ⟨l, hrecord, -⟩ := h.record
    exact (hrecord ▸ List.prefix_append _ l).trans ih

theorem Effects.sound {A : List Action} (h : Effects o b A b') : Sound b' := by
  induction h with
  | nil hb => exact hb
  | cons _ _ _ _ ih => exact ih

end Builder

/-- An analysis that has been given is that of a builder after all actions of the program. -/
theorem Program.exists_effects {o : Options} {p : Program} {a : Analysis}
    (h : Program.analyze o p = .ok a) :
    ∃ b : Builder, b.toAnalysis = a ∧ Builder.Effects o {} (Program.actions o p) b := by
  unfold Program.analyze at h
  cases hrun : Builder.run o {} (Program.actions o p) with
  | error e =>
    rw [hrun] at h
    cases h
  | ok b =>
    rw [hrun] at h
    refine ⟨b, ?_, Builder.Sound.empty.run hrun⟩
    simp only [bind, Except.bind] at h
    split at h
    · exact Except.ok.inj h
    · cases h

end EcmaScope
