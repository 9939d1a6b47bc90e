import EcmaScope.Proofs.Moves

/-!
# Closing scopes

When a scope is closed, every reference that waits in it is treated as the scope's verdict on its
name says. It is resolved to a variable of the scope, or it is let through and waits in the scope
around, or it is let through all the scopes around and waits no longer.

The references that wait are treated one after the other, and the treatment of one does not change
the verdict on another. So closing a scope can be described for all of them at once.

## Main definitions

* `Builder.fate`: the verdict of a scope on the name of a reference.
* `Builder.Treated`: the references of a list have been treated.
* `Builder.Closed`: a scope has been closed.

## Main results

* `Builder.settleAll_spec`: the references that wait in a scope can be treated.
* `Builder.closeScope_spec`: the innermost open scope can be closed.
-/

namespace EcmaScope

namespace Builder

variable {b b' b'' : Builder}

/-! ## Treated references -/

/-- The references `l` have been treated in the scope `s`, each one as its `fate` says. -/
structure Treated (fate : Nat → Verdict) (s : Nat) (enclosing l : List Nat) (b b' : Builder) :
    Prop where
  frame? : b'.frame? = b.frame?
  stack : b'.stack = b.stack
  sites : b'.sites = b.sites
  owned : b'.owned = b.owned
  vars : b.KeepsVariables b'
  verdict? : b'.verdict? = b.verdict?
  variableIn? : b'.variableIn? = b.variableIn?
  throughOf : ∀ t, b'.throughOf t =
    b.throughOf t ++ l.filter fun r => t ∈ (fate r).lets s enclosing
  pendingOf : ∀ t, b'.pendingOf t =
    b.pendingOf t ++ l.filter fun r => (fate r).next? enclosing = some t
  references : ∀ r, b'.references[r]? =
    (b.references[r]?).map fun x => if r ∈ l then (fate r).judge x else x

namespace Treated

variable {fate : Nat → Verdict} {s : Nat} {enclosing l l' : List Nat}

theorem refl (b : Builder) : Treated fate s enclosing [] b b where
  frame? := rfl
  stack := rfl
  sites := rfl
  owned := rfl
  vars := .refl b
  verdict? := rfl
  variableIn? := rfl
  throughOf t := by simp
  pendingOf t := by simp
  references r := by simp

theorem append (h : Treated fate s enclosing l b b') (h' : Treated fate s enclosing l' b' b'') :
    Treated fate s enclosing (l ++ l') b b'' where
  frame? := h'.frame?.trans h.frame?
  stack := h'.stack.trans h.stack
  sites := h'.sites.trans h.sites
  owned := h'.owned.trans h.owned
  vars := h.vars.trans h'.vars
  verdict? := h'.verdict?.trans h.verdict?
  variableIn? := h'.variableIn?.trans h.variableIn?
  throughOf t := by rw [h'.throughOf, h.throughOf, List.filter_append, List.append_assoc]
  pendingOf t := by rw [h'.pendingOf, h.pendingOf, List.filter_append, List.append_assoc]
  references r := by
    rw [h'.references, h.references, Option.map_map]
    congr 1
    funext x
    -- a reference that is in both lists is judged twice, to no effect
    by_cases hl : r ∈ l <;> by_cases hl' : r ∈ l' <;> simp [hl, hl', Verdict.judge_judge]

/-- An edit that changes nothing but what no view looks at. -/
theorem of_edited_nil {edit : Nat → Scope → Scope} (h : Edited edit b b')
    (hreferences : b'.references = b.references)
    (hkeep : ∀ t y, (edit t y).frame = y.frame ∧ (edit t y).through = y.through ∧
      (edit t y).pending = y.pending ∧ (edit t y).bindings = y.bindings ∧
      (edit t y).dynamic = y.dynamic) : Treated fate s enclosing [] b b' where
  frame? := funext fun t => h.map_eq Scope.frame fun y _ => (hkeep t y).1
  stack := h.stack
  sites := h.sites
  owned := h.owned
  vars := h.vars
  verdict? := funext fun t => h.map_eq Scope.verdict fun y _ =>
    Scope.verdict_eq (congrArg Frame.kind (hkeep t y).1) (hkeep t y).2.2.2.2 (hkeep t y).2.2.2.1
  variableIn? := by
    funext name t
    rw [Analysis.variableIn?_eq, Analysis.variableIn?_eq,
      h.map_eq _ fun y _ => by rw [Scope.find?, (hkeep t y).2.2.2.1]; rfl]
  throughOf t := by
    rw [Analysis.throughOf, Analysis.throughOf, h.map_eq _ fun y _ => by rw [(hkeep t y).2.1]]
    simp
  pendingOf t := by
    rw [Analysis.pendingOf, Analysis.pendingOf, h.map_eq _ fun y _ => by rw [(hkeep t y).2.2.1]]
    simp
  references r := by simp [hreferences]

end Treated

/-- A reference is let through the scopes `lets` and waits in the scope `next?`. -/
def sendEdit (lets : List Nat) (next? : Option Nat) (r t : Nat) (y : Scope) : Scope :=
  { y with
    through := if t ∈ lets then y.through.push r else y.through
    pending := if next? = some t then y.pending.map (·.push r) else y.pending }

/-- One reference has been sent where its fate says. -/
theorem treated_of_edited {fate : Nat → Verdict} {s r : Nat} {enclosing : List Nat}
    (taints : Nat → Scope → Std.TreeSet String)
    (h : Edited (fun t y => { sendEdit ((fate r).lets s enclosing) ((fate r).next? enclosing) r t y
      with taints := taints t y }) b b')
    (hreferences : ∀ r', b'.references[r']? =
      (b.references[r']?).map fun x => if r' = r then (fate r).judge x else x)
    (hlets : ∀ t ∈ (fate r).lets s enclosing, (b.frame? t).isSome)
    (hnext : ∀ t, (fate r).next? enclosing = some t → ∃ f, b.frame? t = some f ∧ f.isOpen = true) :
    Treated fate s enclosing [r] b b' where
  frame? := funext fun t => h.map_eq Scope.frame fun y _ => by
    unfold sendEdit Scope.frame
    by_cases ht : (fate r).next? enclosing = some t <;> simp [ht]
  stack := h.stack
  sites := h.sites
  owned := h.owned
  vars := h.vars
  verdict? := funext fun t => h.map_eq Scope.verdict fun y _ => rfl
  variableIn? := by
    funext name t
    rw [Analysis.variableIn?_eq, Analysis.variableIn?_eq, h.map_eq _ fun y _ => rfl]
  throughOf t := by
    rw [Analysis.throughOf, Analysis.throughOf, h.scopes]
    by_cases ht : t ∈ (fate r).lets s enclosing
    · obtain ⟨f, hf⟩ := Option.isSome_iff_exists.mp (hlets t ht)
      obtain ⟨y, hy, -⟩ := Analysis.frame?_eq_some hf
      simp [hy, ht, sendEdit]
    · cases b.scopes[t]? <;> simp [ht, sendEdit]
  pendingOf t := by
    rw [Analysis.pendingOf, Analysis.pendingOf, h.scopes]
    by_cases ht : (fate r).next? enclosing = some t
    · obtain ⟨f, hf, hopen⟩ := hnext t ht
      obtain ⟨y, hy, rfl⟩ := Analysis.frame?_eq_some hf
      obtain ⟨pending, hpending⟩ := Option.isSome_iff_exists.mp hopen
      simp [hy, ht, sendEdit, hpending]
    · cases b.scopes[t]? <;> simp [ht, sendEdit]
  references r' := by
    rw [hreferences]
    congr 1
    funext x
    by_cases hr : r' = r
    · subst hr
      simp
    · simp [hr]

/-! ## Treating one reference -/

section

variable {fate : Nat → Verdict} {s r : Nat} {f : Frame}

theorem getElem?_modify_references (b : Builder) (r : Nat) (judge : Reference → Reference)
    (r' : Nat) : (b.references.modify r judge)[r']? =
      (b.references[r']?).map fun x => if r' = r then judge x else x := by
  rw [Array.getElem?_modify]
  by_cases hr : r = r'
  · subst hr
    simp
  · have hr' : ¬ r' = r := fun e => hr e.symm
    simp [hr, hr']

private theorem edited_update (b : Builder) (v : Nat) (g : Variable → Variable)
    (hg : ∀ x, (g x).scope = x.scope ∧ (g x).name = x.name) (references : Array Reference) :
    Edited (fun _ y => y) b { b with vars := b.vars.modify v g, references := references } :=
  .of_scopes_eq rfl (.modify rfl hg) rfl rfl rfl

/-- Where a reference is tainted, the scope to whose variable it is resolved notes the name. -/
theorem edited_resolve (b : Builder) (s r v : Nat) (x : Reference) :
    Edited (fun t y => if t = s ∧ x.tainted = true then
      { y with taints := y.taints.insert x.name } else y) b (b.resolve s r v x) := by
  have hnote : Edited (fun t y => if t = s ∧ x.tainted = true then
      { y with taints := y.taints.insert x.name } else y) b
      (if x.tainted = true then
        b.modifyScope s fun y => { y with taints := y.taints.insert x.name } else b) := by
    split
    · next h => exact (edited_modifyScope b s _).congr fun t y _ => by simp [h]
    · next h => exact (Edited.refl b).congr fun t y _ => by simp [h]
  refine hnote.trans (edited_update _ v _ ?_ _)
  exact fun _ => ⟨rfl, rfl⟩

private theorem treated_resolve {v : Nat} (hfate : fate r = .bound v) (enclosing : List Nat)
    (x : Reference) : Treated fate s enclosing [r] b (b.resolve s r v x) := by
  let taints (t : Nat) (y : Scope) : Std.TreeSet String :=
    if t = s ∧ x.tainted = true then y.taints.insert x.name else y.taints
  have hedited : Edited (fun t y => { sendEdit ((fate r).lets s enclosing)
      ((fate r).next? enclosing) r t y with taints := taints t y }) b (b.resolve s r v x) :=
    (edited_resolve b s r v x).congr fun t y _ => by
      by_cases h : t = s ∧ x.tainted = true <;>
        simp [taints, h, hfate, sendEdit, Verdict.lets, Verdict.next?]
  refine treated_of_edited taints hedited (fun r' => ?_) (fun t ht => ?_) fun t ht => ?_
  · have hreferences : (b.resolve s r v x).references =
        b.references.modify r (Verdict.bound v).judge := by
      unfold resolve
      cases x.tainted <;> rfl
    rw [hreferences, getElem?_modify_references, hfate]
  · rw [hfate] at ht
    cases ht
  · rw [hfate] at ht
    cases ht

private theorem edited_letThrough (b : Builder) (s r : Nat) :
    Edited (fun t y => if t = s then { y with through := y.through.push r } else y) b
      (b.letThrough s r) :=
  edited_modifyScope b s _

/-- A reference can be passed on to the scope around, which is still open. -/
theorem passOn_spec (hf : b.frame? s = some f) (hs : s ∉ f.enclosing)
    (hopen : ∀ u ∈ f.enclosing, ∃ g, b.frame? u = some g ∧ g.isOpen = true) (r : Nat) :
    ∃ b', b.passOn s r = .ok b' ∧ b'.references = b.references ∧
      Edited (sendEdit [s] f.enclosing.head? r) b b' := by
  obtain ⟨y, hy, rfl⟩ := Analysis.frame?_eq_some hf
  change s ∉ y.enclosing at hs
  change ∀ u ∈ y.enclosing, _ at hopen
  change ∃ b', _ ∧ _ ∧ Edited (sendEdit [s] y.enclosing.head? r) b b'
  unfold passOn
  simp only [hy, Option.bind_some, Scope.upper?]
  cases henclosing : y.enclosing with
  | nil =>
    refine ⟨_, rfl, rfl, (edited_letThrough b s r).congr fun t z _ => ?_⟩
    by_cases ht : t = s <;> simp [ht, sendEdit]
  | cons u rest =>
    rw [henclosing] at hs hopen
    obtain ⟨g, hg, hisOpen⟩ := hopen u List.mem_cons_self
    obtain ⟨z, hz, rfl⟩ := Analysis.frame?_eq_some hg
    obtain ⟨pending, hpending⟩ := Option.isSome_iff_exists.mp hisOpen
    have hne : u ≠ s := fun e => hs (by rw [e]; exact List.mem_cons_self)
    simp only [List.head?_cons, hz, Option.bind_some, hpending]
    refine ⟨_, rfl, rfl, ((edited_modifyScope b u _).trans (edited_letThrough _ s r)).congr
      fun t z' hz' => ?_⟩
    by_cases htu : t = u
    · subst htu
      rw [hz] at hz'
      cases hz'
      simp [hne, sendEdit, hpending]
    · have hut : ¬ u = t := Ne.symm htu
      by_cases hts : t = s
      · subst hts
        simp [htu, hut, sendEdit]
      · simp [htu, hut, hts, sendEdit]

/-- A reference that is passed on waits in the scope around. -/
theorem treated_passOn (hf : b.frame? s = some f) (hs : s ∉ f.enclosing)
    (hopen : ∀ u ∈ f.enclosing, ∃ g, b.frame? u = some g ∧ g.isOpen = true)
    (hpasses : (fate r).passes = true) (references : Array Reference)
    (hreferences : ∀ r', references[r']? =
      (b.references[r']?).map fun x => if r' = r then (fate r).judge x else x) :
    ∃ b', { b with references := references }.passOn s r = .ok b' ∧
      Treated fate s f.enclosing [r] b b' := by
  obtain ⟨b', hb', hsame, hedited⟩ := passOn_spec (b := { b with references := references })
    hf hs hopen r
  have hlets : (fate r).lets s f.enclosing = [s] := by
    cases hfate : fate r <;> rw [hfate] at hpasses
    case unbound | hidden => rfl
    all_goals cases hpasses
  have hnext : (fate r).next? f.enclosing = f.enclosing.head? := by
    cases hfate : fate r <;> rw [hfate] at hpasses
    case unbound | hidden => rfl
    all_goals cases hpasses
  refine ⟨b', hb', treated_of_edited (fun _ y => y.taints) ?_ ?_ ?_ ?_⟩
  · rw [hlets, hnext]
    exact ⟨hedited.scopes, hedited.vars, hedited.owned, hedited.stack, hedited.sites⟩
  · rw [hsame]
    exact hreferences
  · intro t ht
    rw [hlets, List.mem_singleton] at ht
    rw [ht, hf]
    rfl
  · intro t ht
    rw [hnext] at ht
    exact hopen t (List.mem_of_head? ht)

/-- A reference that is abandoned is let through all the scopes around. -/
theorem treated_abandon (hfate : fate r = .unknown) {enclosing : List Nat}
    (hnodup : (s :: enclosing).Nodup) (hsome : ∀ t ∈ s :: enclosing, (b.frame? t).isSome) :
    Treated fate s enclosing [r] b (b.abandon (s :: enclosing) r) := by
  refine treated_of_edited (fun _ y => y.taints) ?_ ?_ ?_ ?_
  · refine (edited_foldl_modifyScope _ _ hnodup b).congr fun t y _ => ?_
    rw [hfate]
    by_cases ht : t ∈ s :: enclosing <;> simp [ht, sendEdit, Verdict.lets, Verdict.next?]
  · intro r'
    have hreferences : (b.abandon (s :: enclosing) r).references = b.references :=
      references_foldl_modifyScope _ _ b
    rw [hreferences, hfate]
    simp [Verdict.judge]
  · rw [hfate]
    exact hsome
  · rw [hfate]
    intro t ht
    cases ht

end

/-! ## Treating all references -/

/-- Everything is ready for treating the references `left` that wait in the scope `s`. -/
structure Ready (optimistic : Bool) (scope : Scope) (fate : Nat → Verdict) (s : Nat)
    (left : List Nat) (b : Builder) : Prop where
  frame : ∃ f, b.frame? s = some f ∧ f.enclosing = scope.enclosing
  nodup : (s :: scope.enclosing).Nodup
  isOpen : ∀ u ∈ scope.enclosing, ∃ g, b.frame? u = some g ∧ g.isOpen = true
  variableIn? : ∀ name, b.variableIn? name s = scope.find? name
  fate_eq : ∀ r ∈ left, ∃ x, b.references[r]? = some x ∧ fate r = scope.verdict optimistic x.name

namespace Ready

variable {optimistic : Bool} {scope : Scope} {fate : Nat → Verdict} {s r : Nat} {left : List Nat}

/-- Treating some references leaves everything ready for the others. -/
theorem treated {l : List Nat} (h : Ready optimistic scope fate s left b)
    (htreated : Treated fate s scope.enclosing l b b') :
    Ready optimistic scope fate s left b' where
  frame := by
    rw [htreated.frame?]
    exact h.frame
  nodup := h.nodup
  isOpen := by
    rw [htreated.frame?]
    exact h.isOpen
  variableIn? := by
    rw [htreated.variableIn?]
    exact h.variableIn?
  fate_eq r hr := by
    obtain ⟨x, hx, hfate⟩ := h.fate_eq r hr
    refine ⟨_, by rw [htreated.references, hx, Option.map_some], ?_⟩
    split
    · rw [Verdict.name_judge, hfate]
    · exact hfate

/-- A reference that can be resolved or passed on. -/
theorem settle (h : Ready optimistic scope fate s left b) (hr : r ∈ left)
    (hstatic : (scope.isStatic || optimistic) = true) :
    ∃ b', b.settle s r = .ok b' ∧ Treated fate s scope.enclosing [r] b b' := by
  obtain ⟨x, hx, hfate⟩ := h.fate_eq r hr
  simp only [Scope.verdict, hstatic, if_true] at hfate
  simp only [Builder.settle, hx, h.variableIn? x.name]
  cases hfind : scope.find? x.name with
  | some v =>
    rw [hfind] at hfate
    exact ⟨_, rfl, treated_resolve hfate _ x⟩
  | none =>
    rw [hfind] at hfate
    obtain ⟨f, hf, henclosing⟩ := h.frame
    have hnodup := List.nodup_cons.mp h.nodup
    rw [← henclosing] at hnodup ⊢
    refine treated_passOn hf hnodup.1 ?_ (by rw [hfate]; rfl) b.references ?_
    · rw [henclosing]
      exact h.isOpen
    · simp [hfate, Verdict.judge]

/-- A reference that may mean a property of an object. -/
theorem taint (h : Ready optimistic scope fate s left b) (hr : r ∈ left)
    (hstatic : ¬ (scope.isStatic || optimistic) = true) (hkind : scope.kind = .withStatement) :
    ∃ b', b.taint s r = .ok b' ∧ Treated fate s scope.enclosing [r] b b' := by
  obtain ⟨x, hx, hfate⟩ := h.fate_eq r hr
  rw [Scope.verdict, if_neg hstatic, if_pos hkind] at hfate
  obtain ⟨f, hf, henclosing⟩ := h.frame
  have hnodup := List.nodup_cons.mp h.nodup
  rw [← henclosing] at hnodup ⊢
  refine treated_passOn hf hnodup.1 ?_ (by rw [hfate]; rfl) _ fun r' => ?_
  · rw [henclosing]
    exact h.isOpen
  · rw [getElem?_modify_references, hfate]
    rfl

/-- A reference of which nothing can be known. -/
theorem abandon (h : Ready optimistic scope fate s left b) (hr : r ∈ left)
    (hstatic : ¬ (scope.isStatic || optimistic) = true) (hkind : scope.kind ≠ .withStatement) :
    Treated fate s scope.enclosing [r] b (b.abandon (s :: scope.enclosing) r) := by
  obtain ⟨x, hx, hfate⟩ := h.fate_eq r hr
  rw [Scope.verdict, if_neg hstatic, if_neg hkind] at hfate
  refine treated_abandon hfate h.nodup fun t ht => ?_
  obtain ⟨f, hf, -⟩ := h.frame
  rcases List.mem_cons.mp ht with rfl | ht
  · rw [hf]
    rfl
  · obtain ⟨g, hg, -⟩ := h.isOpen t ht
    rw [hg]
    rfl

/-- References that can be treated one by one can be treated one after the other. -/
theorem foldlM (treat : Builder → Nat → Except AnalysisError Builder)
    (htreat : ∀ b r, Ready optimistic scope fate s left b → r ∈ left →
      ∃ b', treat b r = .ok b' ∧ Treated fate s scope.enclosing [r] b b')
    (l : List Nat) (hl : ∀ r ∈ l, r ∈ left) (h : Ready optimistic scope fate s left b) :
    ∃ b', l.foldlM treat b = .ok b' ∧ Treated fate s scope.enclosing l b b' := by
  induction l generalizing b with
  | nil => exact ⟨b, rfl, .refl b⟩
  | cons r l ih =>
    obtain ⟨b₁, hb₁, hfirst⟩ := htreat b r h (hl r List.mem_cons_self)
    obtain ⟨b', hb', hrest⟩ := ih (fun q hq => hl q (List.mem_cons_of_mem r hq)) (h.treated hfirst)
    refine ⟨b', ?_, hfirst.append hrest⟩
    rw [List.foldlM_cons, hb₁]
    exact hb'

end Ready

/-- The references that wait in a scope can all be treated. -/
theorem settleAll_spec {o : Options} {scope : Scope} {fate : Nat → Verdict} {s : Nat}
    {left : List Nat} (h : Ready o.optimistic scope fate s left b) :
    ∃ b', b.settleAll o s scope left = .ok b' ∧ Treated fate s scope.enclosing left b b' := by
  unfold settleAll
  split
  · next hstatic => exact h.foldlM _ (fun b r hb hr => hb.settle hr hstatic) left fun _ => id
  split
  · next hstatic hkind =>
    exact h.foldlM _ (fun b r hb hr => hb.taint hr hstatic hkind) left fun _ => id
  · next hstatic hkind =>
    have hfold := h.foldlM (fun b r => pure (b.abandon (s :: scope.enclosing) r))
      (fun b r hb hr => ⟨_, rfl, hb.abandon hr hstatic hkind⟩) left fun _ => id
    rw [List.foldlM_pure] at hfold
    exact hfold

/-! ## Closing a scope -/

private theorem treated_declareImplicit (fate : Nat → Verdict) (enclosing : List Nat) (b : Builder)
    (s : Nat) (d : Definition) : Treated fate s enclosing [] b (b.declareImplicit s d) := by
  obtain ⟨implicit, hedited⟩ := edited_declareImplicit b s d
  refine .of_edited_nil hedited (references_declareImplicit b s d) fun t y => ?_
  by_cases ht : t = s <;> simp [ht, Scope.frame]

theorem treated_createImplicit (fate : Nat → Verdict) (enclosing : List Nat) (b : Builder)
    (s r : Nat) : Treated fate s enclosing [] b (b.createImplicit s r) := by
  unfold createImplicit
  split
  · exact .refl b
  split
  · exact .refl b
  split
  · exact .refl b
  · exact treated_declareImplicit fate enclosing b s _

/-- The global variables that are made in the end change nothing that a view looks at. -/
theorem treated_createImplicits (fate : Nat → Verdict) (s : Nat) (enclosing : List Nat)
    (left : Array Nat) (b : Builder) :
    Treated fate s enclosing [] b (b.createImplicits s left) := by
  have hall (l : List Nat) (b : Builder) :
      Treated fate s enclosing [] b (l.foldl (fun b r => b.createImplicit s r) b) := by
    induction l generalizing b with
    | nil => exact .refl b
    | cons r l ih => exact (treated_createImplicit fate enclosing b s r).append (ih _)
  refine (hall left.toList b).append (.of_edited_nil (edited_modifyScope _ s _) rfl fun t y => ?_)
  by_cases ht : t = s <;> simp [ht, Scope.frame]

/-- The verdict of a scope on the name of a reference. -/
def fate (b : Builder) (optimistic : Bool) (s r : Nat) : Verdict :=
  match b.verdict? s, b.references[r]? with
  | some verdict, some x => verdict optimistic x.name
  | _, _ => .unknown

theorem fate_eq {optimistic : Bool} {s r : Nat} {verdict : Bool → String → Verdict} {x : Reference}
    (hs : b.verdict? s = some verdict) (hr : b.references[r]? = some x) :
    b.fate optimistic s r = verdict optimistic x.name := by
  rw [fate, hs, hr]

/-- The innermost open scope `s` has been closed: the references that waited in it have been
treated. -/
structure Closed (optimistic : Bool) (s : Nat) (b b' : Builder) : Prop where
  frame? : b'.frame? = Layout.closed b.frame? s
  stack : b.stack = s :: b'.stack
  sites : b'.sites = b.sites
  owned : b'.owned = b.owned
  vars : b.KeepsVariables b'
  verdict? : b'.verdict? = b.verdict?
  variableIn? : b'.variableIn? = b.variableIn?
  throughOf : ∀ t, b'.throughOf t = b.throughOf t ++
    (b.pendingOf s).filter fun r => t ∈ (b.fate optimistic s r).lets s b'.stack
  pendingOf : ∀ t, b'.pendingOf t = (if t = s then [] else b.pendingOf t) ++
    (b.pendingOf s).filter fun r => (b.fate optimistic s r).next? b'.stack = some t
  references : ∀ r, b'.references[r]? = (b.references[r]?).map fun x =>
    if r ∈ b.pendingOf s then (b.fate optimistic s r).judge x else x

theorem Closed.stack_eq {optimistic : Bool} {s : Nat} {rest : List Nat}
    (h : Closed optimistic s b b') (hstack : b.stack = s :: rest) : b'.stack = rest :=
  (List.cons.inj (h.stack.symm.trans hstack)).2

/-- A scope in which nothing waits any more. -/
def stopWaiting (b : Builder) (s : Nat) : Builder :=
  b.modifyScope s fun x => { x with pending := none }

section

variable {s : Nat}

private theorem edited_stopWaiting (b : Builder) (s : Nat) :
    Edited (fun t y => if t = s then { y with pending := none } else y) b (b.stopWaiting s) :=
  edited_modifyScope b s _

private theorem frame?_stopWaiting (b : Builder) (s : Nat) :
    (b.stopWaiting s).frame? = Layout.closed b.frame? s := by
  funext t
  rw [Analysis.frame?, (edited_stopWaiting b s).scopes, Layout.closed, Analysis.frame?,
    Option.map_map, Option.map_map]
  congr 1
  funext y
  by_cases ht : t = s <;> simp [ht, Scope.frame]

private theorem pendingOf_stopWaiting (b : Builder) (s t : Nat) :
    (b.stopWaiting s).pendingOf t = if t = s then [] else b.pendingOf t := by
  rw [Analysis.pendingOf, (edited_stopWaiting b s).scopes, Analysis.pendingOf]
  by_cases ht : t = s
  · cases b.scopes[t]? <;> simp [ht]
  · simp [ht]

private theorem throughOf_stopWaiting (b : Builder) (s : Nat) :
    (b.stopWaiting s).throughOf = b.throughOf := by
  funext t
  rw [Analysis.throughOf, (edited_stopWaiting b s).map_eq _ fun y _ => by split <;> rfl,
    Analysis.throughOf]

private theorem verdict?_stopWaiting (b : Builder) (s : Nat) :
    (b.stopWaiting s).verdict? = b.verdict? :=
  funext fun _ => (edited_stopWaiting b s).map_eq Scope.verdict fun y _ => by split <;> rfl

theorem variableIn?_stopWaiting (b : Builder) (s : Nat) :
    (b.stopWaiting s).variableIn? = b.variableIn? := by
  funext name t
  rw [Analysis.variableIn?_eq, (edited_stopWaiting b s).map_eq _ fun y _ => by split <;> rfl,
    Analysis.variableIn?_eq]

/-- References wait in the innermost open scope. -/
theorem exists_pending {rest : List Nat}
    (hlayout : Layout b.frame? b.scopes.size b.stack b.scopesOf) (hstack : b.stack = s :: rest) :
    ∃ scope left, b.scopes[s]? = some scope ∧ scope.pending = some left := by
  have hs : s ∈ b.stack := by
    rw [hstack]
    exact List.mem_cons_self
  obtain ⟨f, -, hf, -⟩ := hlayout.chained_stack.exists_frame hs
  have hisOpen := (hlayout.isOpen_iff hf).mpr hs
  obtain ⟨scope, hscope, rfl⟩ := Analysis.frame?_eq_some hf
  obtain ⟨left, hleft⟩ := Option.isSome_iff_exists.mp hisOpen
  exact ⟨scope, left, hscope, hleft⟩

/-- What there is to do when the innermost open scope is closed. -/
theorem ready_stopWaiting (optimistic : Bool) {scope : Scope} {rest : List Nat}
    (hlayout : Layout b.frame? b.scopes.size b.stack b.scopesOf) (hstack : b.stack = s :: rest)
    (hscope : b.scopes[s]? = some scope) (hpending : ∀ r ∈ b.pendingOf s, r < b.references.size) :
    scope.enclosing = rest ∧
      Ready optimistic scope (b.fate optimistic s) s (b.pendingOf s) (b.stopWaiting s) := by
  have hf := Analysis.frame?_of_getElem? hscope
  have hchained := hlayout.chained_stack
  have hnodup := hlayout.nodup_of_chained hchained
  rw [hstack] at hchained hnodup
  have henclosing : scope.enclosing = rest := hchained.enclosing_eq hf
  refine ⟨henclosing, ?_⟩
  exact {
    frame := by
      rw [frame?_stopWaiting]
      exact ⟨_, Layout.closed_of_eq_some hf, rfl⟩
    nodup := by rwa [henclosing]
    isOpen := fun u hu => by
      rw [henclosing] at hu
      have humem : u ∈ b.stack := by
        rw [hstack]
        exact List.mem_cons_of_mem s hu
      obtain ⟨g, -, hg, -⟩ := hlayout.chained_stack.exists_frame humem
      have hne : u ≠ s := fun e => (List.nodup_cons.mp hnodup).1 (e ▸ hu)
      refine ⟨_, by rw [frame?_stopWaiting, Layout.closed_of_eq_some hg], ?_⟩
      simp [(hlayout.isOpen_iff hg).mpr humem, hne]
    variableIn? := fun name => by
      rw [variableIn?_stopWaiting, Analysis.variableIn?_eq, hscope]
      rfl
    fate_eq := fun r hr => by
      have hr := Array.getElem?_eq_getElem (hpending r hr)
      refine ⟨_, hr, fate_eq ?_ hr⟩
      rw [Analysis.verdict?, hscope]
      rfl }

theorem closeScope_of_settleAll {o : Options} {scope : Scope} {left : Array Nat}
    (hscope : b.scopes[s]? = some scope) (hleft : scope.pending = some left)
    (h : (b.stopWaiting s).settleAll o s scope left.toList = .ok b') :
    b.closeScope o s = .ok
      { (if scope.kind = .global then b'.createImplicits s left else b') with
        stack := (if scope.kind = .global then b'.createImplicits s left else b').stack.tail } := by
  unfold stopWaiting at h
  simp only [closeScope, hscope, hleft, h, bind, Except.bind]
  rfl

end

/-- The innermost open scope can be closed. -/
theorem closeScope_spec {o : Options} {s : Nat} {rest : List Nat}
    (hlayout : Layout b.frame? b.scopes.size b.stack b.scopesOf) (hstack : b.stack = s :: rest)
    (hpending : ∀ r ∈ b.pendingOf s, r < b.references.size) :
    ∃ b', b.closeScope o s = .ok b' ∧ Closed o.optimistic s b b' := by
  obtain ⟨scope, left, hscope, hleft⟩ := exists_pending hlayout hstack
  have hpendingOf : b.pendingOf s = left.toList := by
    simp [Analysis.pendingOf, hscope, hleft]
  obtain ⟨henclosing, hready⟩ := ready_stopWaiting o.optimistic hlayout hstack hscope hpending
  obtain ⟨b₁, hb₁, hsettled⟩ := settleAll_spec hready
  obtain ⟨b₂, hb₂, htreated⟩ : ∃ b₂, (if scope.kind = .global then b₁.createImplicits s left
      else b₁) = b₂ ∧ Treated (b.fate o.optimistic s) s scope.enclosing (b.pendingOf s)
        (b.stopWaiting s) b₂ := by
    refine ⟨_, rfl, ?_⟩
    split
    · have := hsettled.append (treated_createImplicits (b.fate o.optimistic s) s _ left b₁)
      rwa [List.append_nil] at this
    · exact hsettled
  have hstack₂ : b₂.stack = s :: rest := htreated.stack.trans hstack
  have htail : b₂.stack.tail = scope.enclosing := by
    rw [hstack₂, henclosing]
    rfl
  refine ⟨{ b₂ with stack := b₂.stack.tail }, ?_, ?_⟩
  · rw [← hb₂]
    exact closeScope_of_settleAll hscope hleft (hpendingOf ▸ hb₁)
  · exact {
      frame? := htreated.frame?.trans (frame?_stopWaiting b s)
      stack := by rw [hstack, hstack₂]; rfl
      sites := htreated.sites
      owned := htreated.owned
      vars := (edited_stopWaiting b s).vars.trans htreated.vars
      verdict? := htreated.verdict?.trans (verdict?_stopWaiting b s)
      variableIn? := htreated.variableIn?.trans (variableIn?_stopWaiting b s)
      throughOf := fun t => by
        rw [htail, ← throughOf_stopWaiting b s]
        exact htreated.throughOf t
      pendingOf := fun t => by
        rw [htail, ← pendingOf_stopWaiting]
        exact htreated.pendingOf t
      references := htreated.references }

end Builder

end EcmaScope
