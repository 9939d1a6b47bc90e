import EcmaScope.Proofs.Runs

/-!
# The journeys of references

A reference starts in the scope in which it is made and travels outwards. It passes every scope that
does not bind its name, once that scope is closed, and it may stop at a scope that does, or at one
that leaves its meaning open. At any time it waits in at most one scope, and the scopes that let it
through are exactly those that it has passed, with all further ones if its meaning is left open.

Scopes do not change what they say of names after they have been closed. So the verdicts that a
reference has met on its journey can still be read off the tables when everything is done.

## Main definitions

* `Builder.Ruled`: what a closed scope says of a name.
* `Builder.Counted`: where a reference waits, and what lets it through.
* `Builder.Journey`: how far a reference has come.

## Main results

* `Builder.Journey.closed`: what becomes of a journey when a scope is closed.
* `Builder.Moves.journeys`: every reference is on a journey.
-/

namespace EcmaScope

namespace Builder

variable {b b' : Builder} {optimistic : Bool} {r : Nat} {x : Reference}

/-- The scope `t` has been closed, and its verdict on the name is `d`. -/
def Ruled (b : Builder) (optimistic : Bool) (name : String) (t : Nat) (d : Verdict) : Prop :=
  (∃ f, b.frame? t = some f ∧ f.isOpen = false) ∧
    ∃ verdict, b.verdict? t = some verdict ∧ verdict optimistic name = d

/-- All scopes of `passed` have been closed, and they have let the name pass. -/
def Passes (b : Builder) (optimistic : Bool) (name : String) (passed : List Nat) : Prop :=
  ∀ t ∈ passed, ∃ d, b.Ruled optimistic name t d ∧ d.passes = true

/-- The reference `r` waits in the scope `waits`, if in any, and is let through by `lets`, once by
each. -/
structure Counted (b : Builder) (r : Nat) (waits : Option Nat) (lets : List Nat) : Prop where
  pending : ∀ t, (b.pendingOf t).count r = if waits = some t then 1 else 0
  through : ∀ t, (b.throughOf t).count r = if t ∈ lets then 1 else 0

/-- How far the reference `x`, whose number is `r`, has come. -/
inductive Journey (b : Builder) (optimistic : Bool) (r : Nat) (x : Reference) : Prop
  /-- It has passed some scopes and waits in the next. -/
  | waiting {f : Frame} {passed rest : List Nat} {w : Nat} (hf : b.frame? x.scope = some f)
      (hchain : x.scope :: f.enclosing = passed ++ w :: rest)
      (hpassed : b.Passes optimistic x.name passed) (hresolved : x.resolved = none)
      (hcounted : b.Counted r (some w) passed)
  /-- It has passed some scopes and means a variable of the next. -/
  | found {f : Frame} {passed rest : List Nat} {w v : Nat} (hf : b.frame? x.scope = some f)
      (hchain : x.scope :: f.enclosing = passed ++ w :: rest)
      (hpassed : b.Passes optimistic x.name passed)
      (hruled : b.Ruled optimistic x.name w (.bound v)) (hresolved : x.resolved = some v)
      (hcounted : b.Counted r none passed)
  /-- It has passed some scopes, and the next leaves its meaning open, or there is none. -/
  | lost {f : Frame} {passed rest : List Nat} (hf : b.frame? x.scope = some f)
      (hchain : x.scope :: f.enclosing = passed ++ rest)
      (hpassed : b.Passes optimistic x.name passed)
      (hruled : ∀ w, rest.head? = some w → b.Ruled optimistic x.name w .unknown)
      (hresolved : x.resolved = none) (hcounted : b.Counted r none (passed ++ rest))

/-! ## What does not change a journey -/

/-- Scopes keep the scopes around them, and closed scopes stay closed and keep what they say of
names. -/
structure Keeps (b b' : Builder) : Prop where
  frame : ∀ {t f}, b.frame? t = some f → ∃ f', b'.frame? t = some f' ∧
    f'.enclosing = f.enclosing ∧ (f.isOpen = false → f'.isOpen = false)
  verdict : ∀ {t f}, b.frame? t = some f → f.isOpen = false → b'.verdict? t = b.verdict? t

namespace Keeps

variable {name : String}

theorem ruled (h : Keeps b b') {t : Nat} {d : Verdict} (hruled : b.Ruled optimistic name t d) :
    b'.Ruled optimistic name t d := by
  obtain ⟨⟨f, hf, hclosed⟩, verdict, hverdict, hd⟩ := hruled
  obtain ⟨f', hf', -, hkeep⟩ := h.frame hf
  exact ⟨⟨f', hf', hkeep hclosed⟩, verdict, by rw [h.verdict hf hclosed, hverdict], hd⟩

theorem passes (h : Keeps b b') {passed : List Nat} (hpassed : b.Passes optimistic name passed) :
    b'.Passes optimistic name passed := by
  intro t ht
  obtain ⟨d, hruled, hd⟩ := hpassed t ht
  exact ⟨d, h.ruled hruled, hd⟩

theorem chain (h : Keeps b b') {s : Nat} {f : Frame} {l : List Nat} (hf : b.frame? s = some f)
    (hchain : s :: f.enclosing = l) :
    ∃ f', b'.frame? s = some f' ∧ s :: f'.enclosing = l := by
  obtain ⟨f', hf', henclosing, -⟩ := h.frame hf
  exact ⟨f', hf', by rw [henclosing, hchain]⟩

end Keeps

/-- A reference that is not touched stays where it is. -/
theorem Journey.keeps (h : Journey b optimistic r x) (hkeeps : Keeps b b')
    (hpending : ∀ t, (b'.pendingOf t).count r = (b.pendingOf t).count r)
    (hthrough : ∀ t, (b'.throughOf t).count r = (b.throughOf t).count r) :
    Journey b' optimistic r x := by
  have hcount {waits : Option Nat} {lets : List Nat} (hc : b.Counted r waits lets) :
      b'.Counted r waits lets :=
    ⟨fun t => by rw [hpending, hc.pending], fun t => by rw [hthrough, hc.through]⟩
  cases h with
  | waiting hf hchain hpassed hresolved hcounted =>
    obtain ⟨f', hf', hchain'⟩ := hkeeps.chain hf hchain
    exact .waiting hf' hchain' (hkeeps.passes hpassed) hresolved (hcount hcounted)
  | found hf hchain hpassed hruled hresolved hcounted =>
    obtain ⟨f', hf', hchain'⟩ := hkeeps.chain hf hchain
    exact .found hf' hchain' (hkeeps.passes hpassed) (hkeeps.ruled hruled) hresolved
      (hcount hcounted)
  | lost hf hchain hpassed hruled hresolved hcounted =>
    obtain ⟨f', hf', hchain'⟩ := hkeeps.chain hf hchain
    exact .lost hf' hchain' (hkeeps.passes hpassed) (fun w hw => hkeeps.ruled (hruled w hw))
      hresolved (hcount hcounted)

/-- Every reference is on a journey. -/
def Journeys (b : Builder) (optimistic : Bool) : Prop :=
  ∀ r x, b.references[r]? = some x → Journey b optimistic r x

private theorem Journeys.keeps (h : Journeys b optimistic) (hkeeps : Keeps b b')
    (hreferences : b'.references = b.references) (hpending : b'.pendingOf = b.pendingOf)
    (hthrough : b'.throughOf = b.throughOf) : Journeys b' optimistic := by
  intro r x hx
  rw [hreferences] at hx
  exact (h r x hx).keeps hkeeps (fun t => by rw [hpending]) fun t => by rw [hthrough]

theorem Keeps.of_frame?_eq (hframe : b'.frame? = b.frame?)
    (hverdict : ∀ {t f}, b.frame? t = some f → f.isOpen = false → b'.verdict? t = b.verdict? t) :
    Keeps b b' :=
  ⟨fun {t f} hf => ⟨f, by rw [hframe, hf], rfl, id⟩, hverdict⟩

theorem keeps_opened {g : Frame} (hb : WellFormed b) (h : Opened g b b') : Keeps b b' where
  frame hf := ⟨_, (congrFun h.frame? _).trans (hb.layout.pushed_of_eq_some hf), rfl, id⟩
  verdict hf _ := h.verdict? _ (Nat.ne_of_lt (hb.layout.lt_size hf))

theorem keeps_quiet {T : List Nat} (hb : WellFormed b) (h : Quiet T b b')
    (hT : ∀ t ∈ T, t ∈ b.stack) : Keeps b b' := by
  refine .of_frame?_eq h.frame? fun {t f} hf hclosed => h.verdict? t fun ht => ?_
  have hopen := (hb.layout.isOpen_iff hf).mpr (hT t ht)
  rw [hclosed] at hopen
  cases hopen

theorem keeps_closed {s : Nat} (h : Closed optimistic s b b') : Keeps b b' where
  frame hf := by
    refine ⟨_, (congrFun h.frame? _).trans (Layout.closed_of_eq_some hf), rfl, fun hclosed => ?_⟩
    simp [hclosed]
  verdict _ _ := by rw [h.verdict?]

/-! ## Making a reference -/

private theorem Journeys.referred {y : Reference} (hj : Journeys b optimistic) (hb : WellFormed b)
    (h : Referred y b b') : Journeys b' optimistic := by
  have hkeeps : Keeps b b' := .of_frame?_eq h.frame? fun _ _ => by rw [h.verdict?]
  intro r x hx
  rw [h.references, Array.getElem?_push] at hx
  split at hx
  · next hr =>
    cases hx
    have hpending (t : Nat) : (b.pendingOf t).count b.references.size = 0 :=
      List.count_eq_zero.mpr fun hmem => Nat.lt_irrefl _ (hb.pending_lt t _ hmem)
    have hthrough (t : Nat) : (b.throughOf t).count b.references.size = 0 :=
      List.count_eq_zero.mpr fun hmem => Nat.lt_irrefl _ (hb.through_lt t _ hmem)
    obtain ⟨f, -, hf, -⟩ := hb.layout.chained_stack.exists_frame (List.mem_of_head? h.head)
    have hchain : y.scope :: f.enclosing = [] ++ y.scope :: f.enclosing := rfl
    refine .waiting (by rw [h.frame?, hf]) hchain (fun t ht => by cases ht) h.resolved
      ⟨fun t => ?_, fun t => ?_⟩
    · rw [hr, h.pendingOf, List.count_append, hpending]
      by_cases ht : t = y.scope
      · simp [ht]
      · have ht' : ¬ y.scope = t := fun e => ht e.symm
        simp [ht, ht']
    · rw [hr, h.throughOf, hthrough]
      simp
  · next hr =>
    refine (hj r x hx).keeps hkeeps (fun t => ?_) fun t => by rw [h.throughOf]
    rw [h.pendingOf, List.count_append]
    have hne : b.references.size ≠ r := fun e => hr e.symm
    split <;> simp [hne]

/-! ## Closing a scope -/

private theorem count_filter_eq {l : List Nat} (p : Nat → Bool) (hcount : l.count r = 1) :
    (l.filter p).count r = if p r = true then 1 else 0 := by
  split
  · next hp => rw [List.count_filter hp, hcount]
  · next hp => exact List.count_eq_zero.mpr fun hmem => hp (List.mem_filter.mp hmem).2

/-- Where a reference that waited in the scope `s` is sent when it is closed. -/
theorem Counted.closed {s : Nat} {passed : List Nat} (hcounted : b.Counted r (some s) passed)
    (h : Closed optimistic s b b') (hnodup : (passed ++ s :: b'.stack).Nodup) :
    b'.Counted r ((b.fate optimistic s r).next? b'.stack)
      (passed ++ (b.fate optimistic s r).lets s b'.stack) := by
  have hcount : (b.pendingOf s).count r = 1 := by rw [hcounted.pending, if_pos rfl]
  constructor
  · intro t
    rw [h.pendingOf, List.count_append, count_filter_eq _ hcount]
    have hzero : (if t = s then [] else b.pendingOf t).count r = 0 := by
      split
      · rfl
      · next ht => rw [hcounted.pending, if_neg fun e => ht (Option.some.inj e).symm]
    rw [hzero]
    simp
  · intro t
    rw [h.throughOf, List.count_append, count_filter_eq _ hcount, hcounted.through]
    have hdisjoint : t ∈ passed → t ∉ (b.fate optimistic s r).lets s b'.stack := by
      intro ht hmem
      exact (List.nodup_append.mp hnodup).2.2 t ht t (Verdict.mem_of_mem_lets hmem) rfl
    by_cases ht : t ∈ passed
    · simp [ht, hdisjoint ht]
    · simp [ht]

/-- A reference that is passed on waits in the next scope, if there is one. -/
theorem Journey.of_passes {f : Frame} {passed rest : List Nat} {w : Nat}
    (hf : b.frame? x.scope = some f) (hchain : x.scope :: f.enclosing = passed ++ w :: rest)
    (hpassed : b.Passes optimistic x.name passed)
    (hruled : ∃ d, b.Ruled optimistic x.name w d ∧ d.passes = true) (hresolved : x.resolved = none)
    (hcounted : b.Counted r rest.head? (passed ++ [w])) : Journey b optimistic r x := by
  have hpassed' : b.Passes optimistic x.name (passed ++ [w]) := by
    intro t ht
    rcases List.mem_append.mp ht with ht | ht
    · exact hpassed t ht
    · rwa [List.mem_singleton.mp ht]
  have hchain' : x.scope :: f.enclosing = passed ++ [w] ++ rest := by
    rw [hchain, List.append_assoc]
    rfl
  cases rest with
  | nil =>
    refine .lost hf hchain' hpassed' (fun w hw => by cases hw) hresolved ?_
    rwa [List.append_nil]
  | cons u rest => exact .waiting hf hchain' hpassed' hresolved hcounted

/-- The verdict of the next scope decides how the journey goes on. -/
theorem Journey.of_verdict {f : Frame} {passed rest : List Nat} {w : Nat} {d : Verdict}
    (hf : b.frame? x.scope = some f) (hchain : x.scope :: f.enclosing = passed ++ w :: rest)
    (hpassed : b.Passes optimistic x.name passed) (hruled : b.Ruled optimistic x.name w d)
    (hresolved : x.resolved = none)
    (hcounted : b.Counted r (d.next? rest) (passed ++ d.lets w rest)) :
    Journey b optimistic r (d.judge x) := by
  cases d with
  | bound v =>
    rw [Verdict.lets, List.append_nil] at hcounted
    exact .found hf hchain hpassed hruled rfl hcounted
  | unbound => exact .of_passes hf hchain hpassed ⟨_, hruled, rfl⟩ hresolved hcounted
  | hidden => exact .of_passes hf hchain hpassed ⟨_, hruled, rfl⟩ hresolved hcounted
  | unknown =>
    refine .lost hf hchain hpassed (fun u hu => ?_) hresolved hcounted
    cases hu
    exact hruled

/-- A reference that waits in a scope which is closed passes it, or stops. -/
theorem Journey.closed {s : Nat} (hj : Journey b optimistic r x) (hb : WellFormed b)
    (hx : b.references[r]? = some x) (h : Closed optimistic s b b') (hr : r ∈ b.pendingOf s) :
    Journey b' optimistic r ((b.fate optimistic s r).judge x) := by
  have hkeeps := keeps_closed h
  have hcount : 0 < (b.pendingOf s).count r := List.count_pos_iff.mpr hr
  cases hj with
  | found hf hchain hpassed hruled hresolved hcounted =>
    rw [hcounted.pending] at hcount
    simp at hcount
  | lost hf hchain hpassed hruled hresolved hcounted =>
    rw [hcounted.pending] at hcount
    simp at hcount
  | @waiting f passed rest w hf hchain hpassed hresolved hcounted =>
    obtain rfl : w = s := by
      rw [hcounted.pending] at hcount
      split at hcount
      · next hw => exact Option.some.inj hw
      · cases hcount
    have hchained : Chained b.frame? (passed ++ w :: rest) := by
      rw [← hchain]
      exact .cons hf (hb.layout.chained_enclosing hf)
    obtain ⟨g, hg, hrest⟩ := (Chained.of_append passed hchained).frame
    have hstack := hb.layout.chained_stack
    rw [h.stack] at hstack
    obtain rfl : b'.stack = rest := by rw [← hrest, hstack.enclosing_eq hg]
    have hcounted' := hcounted.closed h (hb.layout.nodup_of_chained hchained)
    obtain ⟨f', hf', hchain'⟩ := hkeeps.chain hf hchain
    have hpassed' := hkeeps.passes hpassed
    obtain ⟨y, hy, -⟩ := Analysis.frame?_eq_some hg
    have hverdict : b.verdict? w = some y.verdict := by
      rw [Analysis.verdict?, hy]
      rfl
    have hruled : b'.Ruled optimistic x.name w (b.fate optimistic w r) := by
      refine ⟨⟨_, (congrFun h.frame? w).trans (Layout.closed_of_eq_some hg), by simp⟩, y.verdict,
        by rw [h.verdict?, hverdict], ?_⟩
      rw [fate_eq hverdict hx]
    exact .of_verdict hf' hchain' hpassed' hruled hresolved hcounted'

private theorem Journeys.closed {s : Nat} (hj : Journeys b optimistic) (hb : WellFormed b)
    (h : Closed optimistic s b b') : Journeys b' optimistic := by
  intro r x' hx'
  rw [h.references] at hx'
  obtain ⟨x, hx, rfl⟩ := Option.map_eq_some_iff.mp hx'
  by_cases hr : r ∈ b.pendingOf s
  · rw [if_pos hr]
    exact (hj r x hx).closed hb hx h hr
  · have hfilter (p : Nat → Bool) : ((b.pendingOf s).filter p).count r = 0 :=
      List.count_eq_zero.mpr fun hmem => hr (List.mem_filter.mp hmem).1
    rw [if_neg hr]
    refine (hj r x hx).keeps (keeps_closed h) (fun t => ?_) fun t => ?_
    · rw [h.pendingOf, List.count_append, hfilter]
      split
      · next ht => rw [ht, List.count_eq_zero.mpr hr]; rfl
      · rfl
    · rw [h.throughOf, List.count_append, hfilter]
      rfl

/-- Closing scopes at the top of the stack keeps what closing one scope keeps. -/
theorem closeAll_induction {o : Options} {P : Builder → Prop}
    (hclose : ∀ {b b' : Builder} {s : Nat} {rest : List Nat}, WellFormed b →
      Journeys b o.optimistic → b.stack = s :: rest → b.closeScope o s = .ok b' → P b → P b')
    {l rest : List Nat} (hb : WellFormed b) (hj : Journeys b o.optimistic)
    (hstack : b.stack = l ++ rest) (h : l.foldlM (closeScope o) b = .ok b') (hP : P b) : P b' := by
  let Q (c : Builder) : Prop := Journeys c o.optimistic ∧ P c
  refine (closeAll_keeps (P := Q) ?_ hb hstack h ⟨hj, hP⟩).2
  rintro c c' s - hc hclosed hcs ⟨hj, hP⟩
  exact ⟨hj.closed hc hclosed, hclose hc hj hclosed.stack hcs hP⟩

/-! ## Runs -/

private theorem Move.journeys {o : Options} (h : Move o True b b') (hb : WellFormed b)
    (hj : Journeys b o.optimistic) : Journeys b' o.optimistic := by
  cases h with
  | opened h => exact hj.keeps (keeps_opened hb h) h.references h.pendingOf h.throughOf
  | referred h => exact hj.referred hb h
  | closed h => exact hj.closed hb h
  | quiet h hT =>
    exact hj.keeps (keeps_quiet hb h (hT trivial)) h.references h.pendingOf h.throughOf
  | sited sites h =>
    subst h
    exact hj.keeps (.of_frame?_eq rfl fun _ _ => rfl) rfl rfl rfl

/-- After orderly moves every reference is on a journey. -/
theorem Moves.journeys {o : Options} (h : Moves o True b b') (hb : WellFormed b)
    (hj : Journeys b o.optimistic) : Journeys b' o.optimistic := by
  induction h with
  | refl => exact hj
  | tail hmoves hmove ih => exact hmove.journeys (Moves.wellFormed hmoves hb) ih

/-- When no scope is open, nothing waits. -/
theorem WellFormed.pendingOf_eq_nil (hb : WellFormed b) (hstack : b.stack = []) (t : Nat) :
    b.pendingOf t = [] := by
  rw [Analysis.pendingOf]
  cases hy : b.scopes[t]? with
  | none => rfl
  | some y =>
    have hnotOpen := (hb.layout.isOpen_iff (Analysis.frame?_of_getElem? hy)).not.mpr
      (by rw [hstack]; exact List.not_mem_nil)
    have hnone : y.pending = none := by simpa [Scope.frame] using hnotOpen
    rw [Option.map_some, hnone]
    rfl

/-- When no scope is open, every journey has come to its end. -/
theorem Journey.ended (h : Journey b optimistic r x) (hb : WellFormed b) (hstack : b.stack = []) :
    ∃ f passed rest, b.frame? x.scope = some f ∧ x.scope :: f.enclosing = passed ++ rest ∧
      b.Passes optimistic x.name passed ∧
      ((∃ w v, rest.head? = some w ∧ b.Ruled optimistic x.name w (.bound v) ∧
          x.resolved = some v ∧ b.Counted r none passed) ∨
        ((∀ w, rest.head? = some w → b.Ruled optimistic x.name w .unknown) ∧
          x.resolved = none ∧ b.Counted r none (passed ++ rest))) := by
  cases h with
  | waiting hf hchain hpassed hresolved hcounted =>
    have hcount := hcounted.pending
    simp [hb.pendingOf_eq_nil hstack] at hcount
  | found hf hchain hpassed hruled hresolved hcounted =>
    exact ⟨_, _, _, hf, hchain, hpassed, Or.inl ⟨_, _, rfl, hruled, hresolved, hcounted⟩⟩
  | lost hf hchain hpassed hruled hresolved hcounted =>
    exact ⟨_, _, _, hf, hchain, hpassed, Or.inr ⟨hruled, hresolved, hcounted⟩⟩

end Builder

end EcmaScope
