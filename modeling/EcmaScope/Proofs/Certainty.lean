import EcmaScope.Proofs.EvalCalls
import EcmaScope.Proofs.Through

/-!
# Which references are certain

Inside a `with` a name may mean a property of an object. So a reference that passes the scope of a
`with` on its way outwards is tainted, and it is not certain to mean the variable that it is
resolved to. In the end a reference is tainted if and only if one of the scopes that it has passed
hides its name.

An optimist lets no scope hide names. For an optimist a reference to a variable of a static scope is
always certain, no matter how many `with` it passes.

## Main definitions

* `Builder.Traced`: the scopes that a reference has passed, and whether they have tainted it.
* `Analysis.StandsIn`: a reference stands for a variable of a static scope.
* `Analysis.Clear`: no `with` lies between two scopes.

## Main results

* `Builder.Moves.traces`: every reference is traced.
* `Program.isCertain_iff_clear`: which references are certain.
-/

namespace EcmaScope

private theorem Verdict.tainted_judge (d : Verdict) (x : Reference) :
    (d.judge x).tainted = true ↔ x.tainted = true ∨ d = .hidden := by
  cases d <;> simp [judge]

theorem Verdict.scope_judge (d : Verdict) (x : Reference) : (d.judge x).scope = x.scope := by
  cases d <;> rfl

/-- Only the scope of a `with` hides names, and not from an optimist. -/
theorem Scope.verdict_eq_hidden_iff (y : Scope) (optimistic : Bool) (name : String) :
    y.verdict optimistic name = .hidden ↔
      y.kind = .withStatement ∧ y.isStatic = false ∧ optimistic = false := by
  by_cases hunsure : y.isStatic = false ∧ optimistic = false
  · by_cases hkind : y.kind = .withStatement
    · rw [verdict_of_with hunsure hkind]
      exact iff_of_true rfl ⟨hkind, hunsure⟩
    · rw [verdict_of_ne_with hunsure hkind]
      exact iff_of_false nofun fun h => hkind h.1
  · have hsure : y.isStatic = true ∨ optimistic = true := by
      rwa [not_and_or, Bool.not_eq_false, Bool.not_eq_false] at hunsure
    refine iff_of_false ?_ fun h => hunsure h.2
    cases hv : y.find? name with
    | some v => rw [verdict_of_find?_some hsure hv]; nofun
    | none => rw [verdict_of_find?_none hsure hv]; nofun

namespace Builder

variable {b b' : Builder} {o : Options} {optimistic : Bool} {r s : Nat} {x : Reference}
  {passed rest : List Nat}

private theorem Ruled.unique {name : String} {t : Nat} {d d' : Verdict}
    (h : b.Ruled optimistic name t d) (h' : b.Ruled optimistic name t d') : d = d' := by
  obtain ⟨-, verdict, hverdict, rfl⟩ := h
  obtain ⟨-, verdict', hverdict', rfl⟩ := h'
  rw [Option.some.inj (hverdict.symm.trans hverdict')]

/-! ## Tracing a reference -/

/-- The reference `x`, whose number is `r`, has passed some scopes and has got no further: it waits
in the next, or the next has stopped it. If one of those that it has passed hides its name, it is
tainted. -/
structure Traced (b : Builder) (optimistic : Bool) (r : Nat) (x : Reference)
    (passed rest : List Nat) : Prop where
  chain : ∃ f, b.frame? x.scope = some f ∧ x.scope :: f.enclosing = passed ++ rest
  passes : b.Passes optimistic x.name passed
  waits : ∀ t, r ∈ b.pendingOf t → rest.head? = some t
  next : ∀ w, rest.head? = some w → r ∈ b.pendingOf w ∨
    ∃ d, b.Ruled optimistic x.name w d ∧ d.passes = false
  tainted_iff : x.tainted = true ↔ ∃ t ∈ passed, b.Ruled optimistic x.name t .hidden

/-- Every reference is traced. -/
def Traces (b : Builder) (optimistic : Bool) : Prop :=
  ∀ r x, b.references[r]? = some x → ∃ passed rest, Traced b optimistic r x passed rest

/-- What scopes that have been passed hide does not change. -/
theorem Passes.exists_hidden_iff {name : String} (h : b.Passes optimistic name passed)
    (hkeeps : Keeps b b') : (∃ t ∈ passed, b'.Ruled optimistic name t .hidden) ↔
      ∃ t ∈ passed, b.Ruled optimistic name t .hidden := by
  refine exists_congr fun t => and_congr_right fun ht => ⟨fun hruled => ?_, hkeeps.ruled⟩
  obtain ⟨d, hd, -⟩ := h t ht
  rwa [← (hkeeps.ruled hd).unique hruled]

theorem Traced.chained (h : Traced b optimistic r x passed rest) (hb : WellFormed b) :
    Chained b.frame? (passed ++ rest) := by
  obtain ⟨f, hf, hchain⟩ := h.chain
  rw [← hchain]
  exact .cons hf (hb.layout.chained_enclosing hf)

/-- A reference that is not touched stays where it is. -/
theorem Traced.keeps (h : Traced b optimistic r x passed rest) (hkeeps : Keeps b b')
    (hpending : ∀ t, r ∈ b'.pendingOf t ↔ r ∈ b.pendingOf t) :
    Traced b' optimistic r x passed rest where
  chain := by
    obtain ⟨f, hf, hchain⟩ := h.chain
    exact hkeeps.chain hf hchain
  passes := hkeeps.passes h.passes
  waits t ht := h.waits t ((hpending t).mp ht)
  next w hw := (h.next w hw).imp (hpending w).mpr fun ⟨d, hruled, hd⟩ =>
    ⟨d, hkeeps.ruled hruled, hd⟩
  tainted_iff := by rw [h.tainted_iff, h.passes.exists_hidden_iff hkeeps]

private theorem Traces.keeps (h : Traces b optimistic) (hkeeps : Keeps b b')
    (hreferences : b'.references = b.references) (hpending : b'.pendingOf = b.pendingOf) :
    Traces b' optimistic := by
  intro r x hx
  rw [hreferences] at hx
  obtain ⟨passed, rest, htraced⟩ := h r x hx
  exact ⟨passed, rest, htraced.keeps hkeeps fun t => by rw [hpending]⟩

/-- A reference that is made has passed nothing. -/
private theorem Traces.referred {y : Reference} (h : Traces b optimistic) (hb : WellFormed b)
    (hreferred : Referred y b b') : Traces b' optimistic := by
  have hkeeps : Keeps b b' := .of_frame?_eq hreferred.frame? fun _ _ => by rw [hreferred.verdict?]
  intro r x hx
  rw [hreferred.references, Array.getElem?_push] at hx
  split at hx
  · next hr =>
    cases hx
    obtain ⟨f, -, hf, -⟩ := hb.layout.chained_stack.exists_frame (List.mem_of_head? hreferred.head)
    have hnew (t : Nat) : r ∈ b'.pendingOf t ↔ t = y.scope := by
      have hold : r ∉ b.pendingOf t := fun hmem => by
        have := hb.pending_lt t r hmem
        omega
      rw [hreferred.pendingOf, List.mem_append, or_iff_right hold]
      by_cases ht : t = y.scope <;> simp [ht, hr]
    refine ⟨[], y.scope :: f.enclosing, ⟨f, by rw [hreferred.frame?, hf], rfl⟩, ?_, ?_, ?_, ?_⟩
    · simp [Passes]
    · exact fun t ht => by rw [(hnew t).mp ht, List.head?_cons]
    · exact fun w hw => Or.inl ((hnew w).mpr (Option.some.inj hw).symm)
    · simp [hreferred.tainted]
  · next hr =>
    obtain ⟨passed, rest, htraced⟩ := h r x hx
    refine ⟨passed, rest, htraced.keeps hkeeps fun t => ?_⟩
    rw [hreferred.pendingOf, List.mem_append]
    by_cases ht : t = y.scope <;> simp [ht, hr]

/-- A reference that waits in a scope which is closed passes it, or is stopped there. -/
theorem Traced.closed (h : Traced b optimistic r x passed rest) (hb : WellFormed b)
    (hx : b.references[r]? = some x) (hclosed : Closed optimistic s b b')
    (hr : r ∈ b.pendingOf s) : ∃ passed' rest',
      Traced b' optimistic r ((b.fate optimistic s r).judge x) passed' rest' := by
  have hkeeps := keeps_closed hclosed
  obtain ⟨rest₁, rfl⟩ := List.head?_eq_some_iff.mp (h.waits s hr)
  obtain ⟨g, hg, henclosing⟩ := (Chained.of_append passed (h.chained hb)).frame
  have hstack := hb.layout.chained_stack
  rw [hclosed.stack] at hstack
  obtain rfl : b'.stack = rest₁ := by rw [← henclosing, hstack.enclosing_eq hg]
  obtain ⟨y, hy, -⟩ := Analysis.frame?_eq_some hg
  have hverdict : b.verdict? s = some y.verdict := by
    rw [Analysis.verdict?, hy]
    rfl
  have hruled : b'.Ruled optimistic x.name s (b.fate optimistic s r) := by
    refine ⟨⟨_, (congrFun hclosed.frame? s).trans (Layout.closed_of_eq_some hg), by simp⟩,
      y.verdict, by rw [hclosed.verdict?, hverdict], ?_⟩
    rw [fate_eq hverdict hx]
  have hpending (t : Nat) : r ∈ b'.pendingOf t ↔
      (b.fate optimistic s r).next? b'.stack = some t := by
    have hold : r ∈ b.pendingOf t → t = s := fun hmem =>
      (Option.some.inj (h.waits t hmem)).symm
    rw [hclosed.pendingOf, List.mem_append]
    by_cases ht : t = s
    · simp [ht, hr]
    · have hnot : r ∉ b.pendingOf t := fun hmem => ht (hold hmem)
      simp [ht, hr, hnot]
  obtain ⟨f, hf, hchain⟩ := h.chain
  obtain ⟨f', hf', hchain'⟩ := hkeeps.chain hf hchain
  generalize hfate : b.fate optimistic s r = d at *
  have htainted := Verdict.tainted_judge d x
  rw [h.tainted_iff, ← h.passes.exists_hidden_iff hkeeps] at htainted
  by_cases hd : d.passes = true
  · have hnext : d.next? b'.stack = b'.stack.head? := by
      cases d with
      | unbound | hidden => rfl
      | bound | unknown => cases hd
    rw [hnext] at hpending
    refine ⟨passed ++ [s], b'.stack, ⟨f', ?_, ?_⟩, ?_, fun t => (hpending t).mp,
      fun w hw => Or.inl ((hpending w).mpr hw), ?_⟩
    · rw [Verdict.scope_judge, hf']
    · rw [Verdict.scope_judge, hchain', List.append_assoc]
      rfl
    · rw [Verdict.name_judge]
      intro t ht
      rcases List.mem_append.mp ht with ht | ht
      · exact hkeeps.passes h.passes t ht
      · rw [List.mem_singleton.mp ht]
        exact ⟨d, hruled, hd⟩
    · rw [htainted, Verdict.name_judge]
      constructor
      · rintro (⟨t, ht, hhidden⟩ | rfl)
        · exact ⟨t, List.mem_append_left [s] ht, hhidden⟩
        · exact ⟨s, List.mem_append_right passed List.mem_cons_self, hruled⟩
      · rintro ⟨t, ht, hhidden⟩
        rcases List.mem_append.mp ht with ht | ht
        · exact Or.inl ⟨t, ht, hhidden⟩
        · rw [List.mem_singleton.mp ht] at hhidden
          exact Or.inr (hruled.unique hhidden)
  · have hnone : d.next? b'.stack = none ∧ d ≠ .hidden := by
      cases d with
      | unbound | hidden => exact absurd rfl hd
      | bound | unknown => exact ⟨rfl, fun hhidden => by cases hhidden⟩
    refine ⟨passed, s :: b'.stack, ⟨f', ?_, ?_⟩, ?_, fun t ht => ?_, fun w hw => Or.inr ?_, ?_⟩
    · rw [Verdict.scope_judge, hf']
    · rw [Verdict.scope_judge, hchain']
    · rw [Verdict.name_judge]
      exact hkeeps.passes h.passes
    · rw [hpending, hnone.1] at ht
      cases ht
    · rw [Verdict.name_judge, ← Option.some.inj hw]
      exact ⟨d, hruled, Bool.not_eq_true _ ▸ hd⟩
    · rw [htainted, Verdict.name_judge, or_iff_left hnone.2]

private theorem Traces.closed (h : Traces b optimistic) (hb : WellFormed b)
    (hclosed : Closed optimistic s b b') : Traces b' optimistic := by
  intro r x' hx'
  rw [hclosed.references] at hx'
  obtain ⟨x, hx, rfl⟩ := Option.map_eq_some_iff.mp hx'
  obtain ⟨passed, rest, htraced⟩ := h r x hx
  by_cases hr : r ∈ b.pendingOf s
  · rw [if_pos hr]
    exact htraced.closed hb hx hclosed hr
  · rw [if_neg hr]
    refine ⟨passed, rest, htraced.keeps (keeps_closed hclosed) fun t => ?_⟩
    rw [hclosed.pendingOf, List.mem_append]
    by_cases ht : t = s
    · simp [ht, hr]
    · simp [ht, hr]

private theorem Move.traces (h : Move o True b b') (hb : WellFormed b)
    (ht : Traces b o.optimistic) : Traces b' o.optimistic := by
  cases h with
  | opened h => exact ht.keeps (keeps_opened hb h) h.references h.pendingOf
  | referred h => exact ht.referred hb h
  | closed h => exact ht.closed hb h
  | quiet h hT => exact ht.keeps (keeps_quiet hb h (hT trivial)) h.references h.pendingOf
  | sited sites h =>
    subst h
    exact ht.keeps (.of_frame?_eq rfl fun _ _ => rfl) rfl rfl

/-- After orderly moves every reference is traced. -/
theorem Moves.traces (h : Moves o True b b') (hb : WellFormed b) (ht : Traces b o.optimistic) :
    Traces b' o.optimistic := by
  induction h with
  | refl => exact ht
  | tail hmoves hmove ih => exact hmove.traces (Moves.wellFormed hmoves hb) ih

theorem Finished.traces {orderly : Prop} (h : b.Finished o orderly) (ho : orderly) :
    Traces b o.optimistic :=
  Moves.traces (h.moves.mono fun _ => ho) .empty fun r x hx => by simp at hx

/-! ## When everything is done -/

/-- A scope that has been passed says of the name what its verdict says. -/
theorem Passes.ruled_iff {name : String} {t : Nat} {y : Scope} {d : Verdict}
    (h : b.Passes optimistic name passed) (ht : t ∈ passed) (hy : b.scopes[t]? = some y) :
    b.Ruled optimistic name t d ↔ y.verdict optimistic name = d := by
  obtain ⟨d', hruled, -⟩ := h t ht
  obtain ⟨y', hy', rfl⟩ := hruled.exists_scope
  cases hy.symm.trans hy'
  exact ⟨hruled.unique, fun hd => hd ▸ hruled⟩

/-- When no scope is open, a reference has been stopped by the first scope that it has not
passed. -/
theorem Traced.stopped (h : Traced b optimistic r x passed rest) (hb : WellFormed b)
    (hstack : b.stack = []) {w : Nat} (hw : rest.head? = some w) :
    ∃ d, b.Ruled optimistic x.name w d ∧ d.passes = false := by
  refine (h.next w hw).resolve_left ?_
  rw [hb.pendingOf_eq_nil hstack]
  exact List.not_mem_nil

/-- What a reference means is a variable of the scope that has stopped it. -/
theorem Traced.exists_bound (h : Traced b optimistic r x passed rest) (hb : WellFormed b)
    (hstack : b.stack = []) {v : Nat} (hv : b.Means optimistic x.name (some x.scope) (some v)) :
    ∃ w, rest.head? = some w ∧ b.Ruled optimistic x.name w (.bound v) := by
  have hmeans {m : Option Nat} (hm : b.Means optimistic x.name rest.head? m) : some v = m := by
    obtain ⟨f, hf, hchain⟩ := h.chain
    have hwalk := h.passes.means (h.chained hb) hm
    rw [← hchain] at hwalk
    exact hwalk.unique hv
  cases hw : rest.head? with
  | none => cases hmeans (by rw [hw]; exact .outside)
  | some w =>
    obtain ⟨d, hruled, hd⟩ := h.stopped hb hstack hw
    obtain ⟨y, hy, hverdict⟩ := hruled.exists_scope
    cases d with
    | unbound | hidden => cases hd
    | bound v' =>
      have hend : b.Means optimistic x.name (some w) (some v') := by
        rw [Analysis.means_some_iff hy, hverdict]
      cases hmeans (hw ▸ hend)
      exact ⟨w, rfl, hruled⟩
    | unknown =>
      have hend : b.Means optimistic x.name (some w) none := by
        rw [Analysis.means_some_iff hy, hverdict]
      cases hmeans (hw ▸ hend)

/-- Of the scopes that a reference has passed, those of a `with` have tainted it, unless an optimist
is at work. -/
theorem Traced.tainted_iff_with (h : Traced b optimistic r x passed rest)
    (hwith : ∀ (t : Nat) (y : Scope), b.scopes[t]? = some y → y.kind = .withStatement →
      y.isStatic = false) :
    x.tainted = true ↔ optimistic = false ∧
      ∃ t ∈ passed, ∃ y, b.scopes[t]? = some y ∧ y.kind = .withStatement := by
  rw [h.tainted_iff]
  constructor
  · rintro ⟨t, ht, hhidden⟩
    obtain ⟨y, hy, hverdict⟩ := hhidden.exists_scope
    obtain ⟨hkind, -, hoptimistic⟩ := (y.verdict_eq_hidden_iff _ _).mp hverdict
    exact ⟨hoptimistic, t, ht, y, hy, hkind⟩
  · rintro ⟨hoptimistic, t, ht, y, hy, hkind⟩
    refine ⟨t, ht, (h.passes.ruled_iff ht hy).mpr ?_⟩
    exact (y.verdict_eq_hidden_iff _ _).mpr ⟨hkind, hwith t y hy hkind, hoptimistic⟩

end Builder

/-! ## Certain references -/

namespace Analysis

/-- The reference `x` stands for a variable of the scope `s`, and all names of that scope keep their
meanings while the program runs. -/
def StandsIn (a : Analysis) (x : Reference) (s : Nat) : Prop :=
  ∃ v z y, x.resolved = some v ∧ a.vars[v]? = some z ∧ z.scope = s ∧ a.scopes[s]? = some y ∧
    y.isStatic = true

/-- No scope from `t` outwards, up to `s` but without it, is that of a `with`. -/
def Clear (a : Analysis) (t s : Nat) : Prop :=
  ∀ (u : Nat) (y : Scope), a.Inside t u → a.Within u s → a.scopes[u]? = some y →
    y.kind ≠ .withStatement

variable {a : Analysis} {r : Nat} {x : Reference}

private theorem StandsIn.unique {s t : Nat} (hs : a.StandsIn x s) (ht : a.StandsIn x t) :
    s = t := by
  obtain ⟨v, z, -, hv, hz, rfl, -⟩ := hs
  obtain ⟨v', z', -, hv', hz', rfl, -⟩ := ht
  cases hv.symm.trans hv'
  cases hz.symm.trans hz'
  rfl

private theorem isCertain_iff (hx : a.references[r]? = some x) :
    a.isCertain r = true ↔ x.tainted = false ∧ ∃ s, a.StandsIn x s := by
  rw [isCertain, hx, Option.any_some, Bool.and_eq_true, Bool.not_eq_true']
  refine and_congr_right fun _ => ?_
  rw [Option.any_eq_true]
  constructor
  · rintro ⟨y, hy, hstatic⟩
    obtain ⟨v, hv, hy⟩ := Option.bind_eq_some_iff.mp hy
    obtain ⟨z, hz, hy⟩ := Option.bind_eq_some_iff.mp hy
    exact ⟨z.scope, v, z, y, hv, hz, rfl, hy, hstatic⟩
  · rintro ⟨s, v, z, y, hv, hz, rfl, hy, hstatic⟩
    exact ⟨y, by simp [hv, hz, hy], hstatic⟩

end Analysis

/-- The scope of a `with` is dynamic. -/
theorem Program.isStatic_of_with {o : Options} {p : Program} {a : Analysis}
    (h : Program.analyze o p = .ok a) (t : Nat) (y : Scope) (hy : a.scopes[t]? = some y)
    (hkind : y.kind = .withStatement) : y.isStatic = false :=
  (Program.isStatic_eq_false_iff h hy).mpr (Or.inl (by simp [hkind]))

/-- A reference to a variable of a static scope is tainted if and only if it passes a `with` and no
optimist is at work. -/
theorem Program.tainted_eq_false_iff {o : Options} {p : Program} {a : Analysis}
    (hids : (Tree.ids p).Nodup) (h : Program.analyze o p = .ok a) {r s : Nat} {x : Reference}
    (hx : a.references[r]? = some x) (hs : a.StandsIn x s) :
    x.tainted = false ↔ o.optimistic = true ∨ a.Clear x.scope s := by
  have hwith := Program.isStatic_of_with h
  obtain ⟨b, rfl, hb⟩ := Program.exists_finished h
  obtain ⟨passed, rest, htraced⟩ := hb.traces hids r x hx
  obtain ⟨v, z, y, hv, hz, rfl, -⟩ := hs
  have hmeans := (hb.journeys hids r x hx).means hb.wellFormed hb.stack
  rw [hv] at hmeans
  obtain ⟨w, hw, hruled⟩ := htraced.exists_bound hb.wellFormed hb.stack hmeans
  obtain ⟨-, z', hz', rfl, -⟩ := hruled.exists_variable hb.wellFormed
  cases hz.symm.trans hz'
  have hpassed (t : Nat) : t ∈ passed ↔ b.Inside x.scope t ∧ b.Within t z.scope := by
    obtain ⟨f, hf, hchain⟩ := htraced.chain
    rw [Builder.mem_passed_iff hb.wellFormed.layout (htraced.chained hb.wellFormed) hw,
      Analysis.inside_iff hb.wellFormed.layout hf, hchain]
  rw [← Bool.not_eq_true, htraced.tainted_iff_with hwith, not_and_or, Bool.not_eq_false]
  refine or_congr_right ⟨fun hnone t y hinside hwithin hy hkind => ?_, ?_⟩
  · exact hnone ⟨t, (hpassed t).mpr ⟨hinside, hwithin⟩, y, hy, hkind⟩
  · rintro hclear ⟨t, ht, y, hy, hkind⟩
    exact hclear t y ((hpassed t).mp ht).1 ((hpassed t).mp ht).2 hy hkind

/-- A reference is certain if and only if it stands for a variable of a static scope and there is no
`with` up to that scope, or an optimist is at work. So the answer looks at the `with` on the way
unless an optimist lets a reference pass one. -/
theorem Program.isCertain_iff_clear {o : Options} {p : Program} {a : Analysis}
    (hids : (Tree.ids p).Nodup) (h : Program.analyze o p = .ok a) {r : Nat} {x : Reference}
    (hx : a.references[r]? = some x) :
    (a.isCertain r = true ↔
        ∃ s, a.StandsIn x s ∧ (o.optimistic = true ∨ a.Clear x.scope s)) ∧
      ((a.isCertain r = true ↔ ∃ s, a.StandsIn x s ∧ a.Clear x.scope s) ↔
        ¬ (o.optimistic = true ∧ ∃ s, a.StandsIn x s ∧ ¬ a.Clear x.scope s)) := by
  have hcertain : a.isCertain r = true ↔
      ∃ s, a.StandsIn x s ∧ (o.optimistic = true ∨ a.Clear x.scope s) := by
    rw [Analysis.isCertain_iff hx, ← exists_and_left]
    refine exists_congr fun s => ?_
    rw [and_comm]
    exact and_congr_right fun hs => Program.tainted_eq_false_iff hids h hx hs
  refine ⟨hcertain, ?_⟩
  rw [hcertain]
  constructor
  · rintro hiff ⟨hoptimistic, s, hs, hclear⟩
    obtain ⟨t, ht, hclear'⟩ := hiff.mp ⟨s, hs, Or.inl hoptimistic⟩
    exact hclear (hs.unique ht ▸ hclear')
  · intro hnot
    refine exists_congr fun s => and_congr_right fun hs => ⟨?_, Or.inr⟩
    rintro (hoptimistic | hclear)
    · by_contra hclear
      exact hnot ⟨hoptimistic, s, hs, hclear⟩
    · exact hclear

/-- The program `function g() { var x; with (o) x }`. -/
def Program.readInWith : Program :=
  let mark (n : Nat) : Mark := ⟨n, ⟨n, n⟩⟩
  .program (mark 0) (.cons (.functionDeclaration (.function .declaration (mark 1)
    (some ⟨mark 2, "g"⟩) .nil (.blockBody (.block (mark 3)
      (.cons (.variableDeclaration (.declaration (mark 4) .var
        (.cons (.declarator (mark 5) (.identifierPattern ⟨mark 6, "x"⟩) .absent) .nil)))
      (.cons (.withStatement (mark 7) (.identifier ⟨mark 8, "o"⟩)
        (.expressionStatement (mark 9) (.identifier ⟨mark 10, "x"⟩) none)) .nil))))
    false false false)) .nil)

/-- In a function, a name that is read inside a `with` is not certain to mean a variable of the
function. -/
theorem Program.isCertain_iff_clear_with : (Tree.ids Program.readInWith).Nodup ∧
    ∃ a x, Program.analyze {} .readInWith = .ok a ∧ a.references[1]? = some x ∧
      x.resolved = some 2 ∧ a.isCertain 1 = false ∧
      (a.isCertain 1 = true ↔ ∃ s, a.StandsIn x s ∧ a.Clear x.scope s) := by
  have hids : (Tree.ids Program.readInWith).Nodup := by decide
  have hread : ((Program.analyze {} .readInWith).toOption.bind fun a =>
    (a.references[1]?).map fun x => (x.resolved, a.isCertain 1)) = some (some 2, false) := by
    decide +kernel
  cases h : Program.analyze {} .readInWith with
  | error e =>
    rw [h] at hread
    cases hread
  | ok a =>
    rw [h] at hread
    obtain ⟨x, hx, hread⟩ := Option.map_eq_some_iff.mp hread
    obtain ⟨hresolved, hcertain⟩ := Prod.mk.inj hread
    refine ⟨hids, a, x, rfl, hx, hresolved, hcertain, ?_⟩
    exact (Program.isCertain_iff_clear hids h hx).2.mpr fun hoptimist => by cases hoptimist.1

/-- To an optimist the same reference is certain, although there is a `with` on its way. -/
theorem Program.isCertain_through_with : ∃ a x,
    Program.analyze { optimistic := true } .readInWith = .ok a ∧ a.references[1]? = some x ∧
      a.isCertain 1 = true ∧ ¬ ∃ s, a.StandsIn x s ∧ a.Clear x.scope s := by
  have hread : ((Program.analyze { optimistic := true } .readInWith).toOption.bind fun a =>
    (a.references[1]?).map fun x => (x.scope, x.resolved, a.isCertain 1)) =
      some (2, some 2, true) := by decide +kernel
  have hvariable : ((Program.analyze { optimistic := true } .readInWith).toOption.bind fun a =>
    (a.vars[2]?).map fun z => (z.scope, a.upper? 2)) = some (1, some 1) := by decide +kernel
  have hscope : ((Program.analyze { optimistic := true } .readInWith).toOption.bind fun a =>
    (a.scopes[2]?).map (·.kind)) = some .withStatement := by decide +kernel
  cases h : Program.analyze { optimistic := true } .readInWith with
  | error e =>
    rw [h] at hread
    cases hread
  | ok a =>
    rw [h] at hread hvariable hscope
    obtain ⟨x, hx, hread⟩ := Option.map_eq_some_iff.mp hread
    obtain ⟨hxscope, hread⟩ := Prod.mk.inj hread
    obtain ⟨hresolved, hcertain⟩ := Prod.mk.inj hread
    obtain ⟨z, hz, hvariable⟩ := Option.map_eq_some_iff.mp hvariable
    obtain ⟨hzscope, hupper⟩ := Prod.mk.inj hvariable
    obtain ⟨y, hy, hkind⟩ := Option.map_eq_some_iff.mp hscope
    refine ⟨a, x, rfl, hx, hcertain, ?_⟩
    rintro ⟨s, ⟨v, z', -, hv, hz', rfl, -⟩, hclear⟩
    cases hresolved.symm.trans hv
    cases hz.symm.trans hz'
    rw [hxscope, hzscope] at hclear
    exact hclear 2 y .refl (.single hupper) hy hkind

end EcmaScope
