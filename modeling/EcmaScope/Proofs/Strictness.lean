import EcmaScope.Proofs.Around
import EcmaScope.Proofs.ImplicitGlobals
import EcmaScope.Proofs.Spans

/-!
# Strict code

A scope is strict if the scope around it is, or if something asks for strict mode where the scope is
opened. Whatever asks for it is a cause: arrow functions and methods, classes and modules, a
directive at the beginning of a function body or of the program, and the choice of strict mode for
the whole program. So a scope is strict exactly if it or a scope around it has a cause of its own.

## Main definitions

* `BeginsStrict`: code that begins with a directive for strict mode.
* `Program.MakesStrict`: causes by the node that a scope belongs to.
* `Analysis.IsInnermost`: the innermost scope of a node.
* `Program.HasCause`: a scope has a cause of its own.

## Main results

* `Builder.Effects.exists_openScope`: scopes are strict by what is around them, or by what is asked
  for.
* `Program.function_asks_iff`: which functions ask for strict mode.
* `Program.isStrict_step`: a scope is strict by the scope around it or by a cause of its own.
* `Program.isStrict_iff_cause`: which scopes are strict.
-/

namespace EcmaScope

open EcmaScope.Action

/-! ## Directives -/

/-- The code begins with directives, and one of them asks for strict mode. -/
def BeginsStrict (marked : Bool) (body : List Stmt) : Prop :=
  ∃ before s after, body = before ++ s :: after ∧
    (∀ d ∈ before, (Stmt.directive? marked d).isSome = true) ∧
    Stmt.directive? marked s = some true

theorem hasUseStrict_iff {marked : Bool} {body : List Stmt} :
    hasUseStrict marked body = true ↔ BeginsStrict marked body := by
  induction body with
  | nil => simp [hasUseStrict, BeginsStrict]
  | cons s rest ih =>
    have hsplit : BeginsStrict marked (s :: rest) ↔ Stmt.directive? marked s = some true ∨
        (Stmt.directive? marked s).isSome = true ∧ BeginsStrict marked rest := by
      constructor
      · rintro ⟨before, d, after, hbody, hbefore, hd⟩
        cases before with
        | nil =>
          cases hbody
          exact .inl hd
        | cons d' before =>
          cases hbody
          obtain ⟨hd', hbefore⟩ := List.forall_mem_cons.mp hbefore
          exact .inr ⟨hd', before, d, after, rfl, hbefore, hd⟩
      · rintro (hs | ⟨hs, before, d, after, rfl, hbefore, hd⟩)
        · exact ⟨[], s, rest, rfl, List.forall_mem_nil _, hs⟩
        · exact ⟨s :: before, d, after, rfl, List.forall_mem_cons.mpr ⟨hs, hbefore⟩, hd⟩
    rw [hsplit, ← ih, hasUseStrict]
    cases Stmt.directive? marked s <;> simp

/-! ## Causes -/

/-- The body of the program asks for strict mode. -/
def Program.HasUseStrict (marked : Bool) : Program → Prop
  | .program _ body => BeginsStrict marked body.toList

/-- A scope of this kind that belongs to this node is strict, whatever is around it. -/
inductive Program.MakesStrict (o : Options) (p : Program) : ScopeKind → Nat → Prop
  | arrow {role : Role} {m : Mark} {name : Option Identifier} {params : Tree (.list .pattern)}
      {body : Tree .functionBody} {generator async expression : Bool}
      (hu : ⟨_, role, .function .arrow m name params body generator async expression⟩ ∈
        Program.pieces o p) : MakesStrict o p .function m.id
  /-- The scope belongs to the value of a method. -/
  | method {v : Piece} {n : Nat} (hv : v ∈ Program.pieces o p) (hn : v.tree.methodId? = some n) :
      MakesStrict o p .function n
  | classBody (n : Nat) : MakesStrict o p .classBody n
  | module (n : Nat) : MakesStrict o p .module n
  | directive {role : Role} {form : FunctionForm} {m : Mark} {name : Option Identifier}
      {params : Tree (.list .pattern)} {bm : Mark} {body : Tree (.list .statement)}
      {generator async expression : Bool}
      (hu : ⟨_, role, .function form m name params (.blockBody (.block bm body)) generator async
        expression⟩ ∈ Program.pieces o p) (hbody : BeginsStrict o.directive body.toList) :
      MakesStrict o p .function m.id
  /-- The scope is that of the function that the loader provides. -/
  | wrapper (hp : Program.HasUseStrict o.directive p) :
      MakesStrict o p .function (Program.mark p).id
  | global (hp : Program.HasUseStrict o.directive p) (hwrapper : o.nodejsScope = false) :
      MakesStrict o p .global (Program.mark p).id

/-- The scope `t` is the innermost one of the node `n`. -/
def Analysis.IsInnermost (a : Analysis) (n t : Nat) : Prop :=
  t ∈ a.scopesOf n ∧ ∀ s ∈ a.scopesOf n, a.Inside t s

/-- The scope `t` has a cause of its own to be strict. -/
def Program.HasCause (o : Options) (p : Program) (a : Analysis) (t : Nat) : Prop :=
  (∃ y, a.scopes[t]? = some y ∧ Program.MakesStrict o p y.kind y.block.id) ∨
    o.impliedStrict = true ∧ a.IsInnermost (Program.mark p).id t

/-! ## Scopes that are opened -/

namespace Builder

variable {b b' : Builder} {o : Options}

/-- A scope that is opened is strict if the scope around it is, or if this is asked for. -/
theorem Effects.isStrict_opened {kind : ScopeKind} {block : Anchor} {strict : Bool}
    (h : Effects o b [.openScope kind block strict] b') :
    b'.isStrict b.scopes.size =
      (o.hasStrictMode && (b.stack.head?.any b.isStrict || strict)) := by
  obtain ⟨y, v, hy, hycore⟩ := h.exists_opened
  rw [isStrict, hy, Option.any_some]
  exact (congrArg Scope.isStrict hycore :)

/-- A scope that has been opened by actions is strict if the scope around it is, or if the action
that has opened it asks for this. -/
theorem Effects.exists_openScope {A : List Action} (h : Effects o b A b') {t : Nat} {y : Scope}
    (ht : b.scopes.size ≤ t) (hy : b'.scopes[t]? = some y) :
    ∃ strict, .openScope y.kind y.block strict ∈ A ∧
      y.isStrict = (o.hasStrictMode && ((b'.upper? t).any b'.isStrict || strict)) := by
  induction h with
  | nil => exact absurd (Array.getElem?_eq_some_iff.mp hy).1 (Nat.not_lt.mpr ht)
  | @cons b b₁ b' a A hb hstep heffect hA ih =>
    by_cases hold : b₁.scopes.size ≤ t
    · obtain ⟨strict, hmem, hstrict⟩ := ih hold hy
      exact ⟨strict, List.mem_cons_of_mem a hmem, hstrict⟩
    have hfirst : Effects o b [a] b₁ := .cons hb hstep heffect (.nil hA.start)
    have hsize : b₁.scopes.size = b.scopes.size + a.openings.length := by
      simpa [Analysis.openings] using congrArg List.length heffect.openings
    cases a with
    | openScope kind block strict =>
      have hlt : b.scopes.size < b₁.scopes.size := by omega
      obtain rfl : t = b.scopes.size := by
        change _ = b.scopes.size + 1 at hsize
        omega
      obtain ⟨⟨z, hz, rfl, rfl⟩, hupper, -⟩ := hfirst.opened
      obtain ⟨y', hy', hkind, hblock, -⟩ := hA.exists_scope hA.start.wellFormed hz
      cases hy.symm.trans hy'
      refine ⟨strict, ?_, ?_⟩
      · rw [hkind, hblock]
        exact List.mem_cons_self
      have hself : b'.isStrict b.scopes.size = y.isStrict := by
        rw [isStrict, hy, Option.any_some]
      rw [← hself, hA.isStrict_eq hlt, hfirst.isStrict_opened, hA.upper?_eq hlt, hupper]
      cases hhead : b.stack.head? with
      | none => rfl
      | some s =>
        have hs : s < b.scopes.size := hb.wellFormed.layout.stack_lt (List.mem_of_head? hhead)
        rw [Option.any_some, Option.any_some, (Effects.cons hb hstep heffect hA).isStrict_eq hs]
    | _ =>
      have hnone : b₁.scopes.size = b.scopes.size := hsize
      omega

end Builder

section

variable {o : Options} {p : Program} {a : Analysis}

/-- Every scope of a program has been opened by an action, and is strict if the scope around it is
or if the action asks for this. -/
theorem Program.exists_openScope (h : Program.analyze o p = .ok a) {s : Nat} {y : Scope}
    (hy : a.scopes[s]? = some y) :
    ∃ strict, .openScope y.kind y.block strict ∈ Program.actions o p ∧
      (y.isStrict = true ↔ o.hasStrictMode = true ∧
        ((∃ u, a.upper? s = some u ∧ ∃ z, a.scopes[u]? = some z ∧ z.isStrict = true) ∨
          strict = true)) := by
  obtain ⟨b, rfl, heffects⟩ := Program.exists_effects h
  obtain ⟨strict, hmem, hstrict⟩ := heffects.exists_openScope (Nat.zero_le s) hy
  refine ⟨strict, hmem, ?_⟩
  simp only [hstrict, Bool.and_eq_true, Bool.or_eq_true, Option.any_eq_true, Builder.isStrict]

/-- A scope is opened by one action only. -/
theorem Program.strict_eq_of_openScope (hids : (Tree.ids p).Nodup)
    (h : Program.analyze o p = .ok a) {kind : ScopeKind} {block block' : Anchor}
    {strict strict' : Bool} (hopen : .openScope kind block strict ∈ Program.actions o p)
    (hopen' : .openScope kind block' strict' ∈ Program.actions o p)
    (hblock : block.id = block'.id) : strict = strict' := by
  have hnodup := Program.nodup_openings_of_analyze hids h
  obtain ⟨b, rfl, heffects⟩ := Program.exists_effects h
  rw [heffects.openings] at hnodup
  have heq := eq_of_nodup_flatMap (x := (kind, block.id)) hnodup hopen hopen' (by simp [openings])
    (by simp [openings, hblock])
  cases heq
  rfl

end

/-! ## What asks for strict mode -/

/-- A construct opens scopes as it asks for them. -/
theorem Tree.Deed.asks {c : Category} {o : Options} {place : Place} {t : Tree c}
    {kind : ScopeKind} {block : Anchor} {strict : Bool}
    (h : t.Deed o place (.openScope kind block strict)) : t.Asks o place kind block strict := by
  cases h with
  | routine ha => exact ha.elim
  | opens hasks => exact hasks

/-! ## Functions -/

namespace Tree

private theorem openScope_mem_actions_function (o : Options) (form : FunctionForm) (m : Mark)
    (name : Option Identifier) (params : Tree (.list .pattern)) (body : Tree .functionBody)
    (generator async expression method : Bool) :
    .openScope .function ⟨.function form, m⟩
        (form = .arrow || method || FunctionBody.hasUseStrict o.directive body) ∈
      (function form m name params body generator async expression).actions o (.code method) := by
  change _ ∈ _ ++ [_, _] ++ _ ++ _ ++ _ ++ _
  simp [Place.isMethod]

/-- The value of a method stands in the role of the method, and it is walked as the value of a
method. -/
theorem exists_value_of_methodId? {c : Category} (o : Options) {t : Tree c} {n : Nat}
    (h : t.methodId? = some n) :
    c.isWhole = true ∧ ∃ (form : FunctionForm) (fn : Tree (.function form)),
      fn.functionId? = some n ∧ (∀ role, ⟨_, role, fn⟩ ∈ t.pieces o role) ∧
      ∀ method, fn.actions o (.code true) ⊆ t.actions o (.code method) := by
  have hself {form : FunctionForm} (fn : Tree (.function form)) (role : Role) :
      ⟨_, role, fn⟩ ∈ fn.pieces o role := by
    cases fn
    exact List.mem_cons_self
  cases t with
  | method m key value kind computed isStatic =>
    refine ⟨rfl, _, value, h, fun role => ?_, fun method => List.subset_append_right _ _⟩
    exact List.mem_cons_of_mem _ (List.mem_append_right _ (hself value role))
  | property m key value kind isMethod shorthand computed =>
    cases isMethod with
    | false => cases h
    | true =>
      cases value with
      | functionExpression fn =>
        refine ⟨rfl, _, fn, h, fun role => ?_, fun method => List.subset_append_right _ _⟩
        exact List.mem_cons_of_mem _
          (List.mem_append_right _ (List.mem_cons_of_mem _ (hself fn role)))
      | _ => cases h
  | _ => cases h

end Tree

section

variable {o : Options} {p : Program} {a : Analysis}

private theorem Tree.mem_marks_of_functionId? {form : FunctionForm} {fn : Tree (.function form)}
    {n : Nat} (h : fn.functionId? = some n) (role : Role) :
    n ∈ (⟨_, role, fn⟩ : Piece).marks.map (·.id) := by
  cases fn
  cases h
  exact List.mem_cons_self

/-- A node is the node of one function only. -/
theorem Program.eq_of_functionId? (hids : (Tree.ids p).Nodup) {form form' : FunctionForm}
    {role role' : Role} {fn : Tree (.function form)} {fn' : Tree (.function form')}
    (hu : ⟨_, role, fn⟩ ∈ Program.pieces o p) (hu' : ⟨_, role', fn'⟩ ∈ Program.pieces o p)
    {n : Nat} (hn : fn.functionId? = some n) (hn' : fn'.functionId? = some n) :
    (⟨_, role, fn⟩ : Piece) = ⟨_, role', fn'⟩ :=
  Program.eq_of_mem_marks hids hu hu' (Tree.mem_marks_of_functionId? hn role)
    (Tree.mem_marks_of_functionId? hn' role')

/-- The node of a program is not the node of a function. -/
theorem Program.functionId?_ne_mark (hids : (Tree.ids p).Nodup) {form : FunctionForm} {role : Role}
    {fn : Tree (.function form)} (hu : ⟨_, role, fn⟩ ∈ Program.pieces o p) :
    fn.functionId? ≠ some (Program.mark p).id := by
  intro hid
  cases p with
  | program m body =>
    have hprogram : ⟨_, .code, .program m body⟩ ∈ Program.pieces o (.program m body) :=
      List.mem_cons_self
    have heq := Program.eq_of_mem_marks hids hu hprogram (Tree.mem_marks_of_functionId? hid role)
      List.mem_cons_self
    cases heq

/-- A function asks for strict mode if there is a cause for it. -/
theorem Program.function_asks_iff (hids : (Tree.ids p).Nodup)
    (hmethods : ∀ v ∈ Program.pieces o p, v.tree.hasMethod = true)
    (h : Program.analyze o p = .ok a) {role : Role} {form : FunctionForm} {m : Mark}
    {name : Option Identifier} {params : Tree (.list .pattern)} {body : Tree .functionBody}
    {generator async expression : Bool}
    (hu : ⟨_, role, .function form m name params body generator async expression⟩ ∈
      Program.pieces o p) (hrole : role ≠ .skipped) {strict : Bool}
    (hopen : .openScope .function ⟨.function form, m⟩ strict ∈ Program.actions o p) :
    strict = true ↔ Program.MakesStrict o p .function m.id := by
  obtain ⟨-, method, hactions, hmethod⟩ := Program.spans o p _ hu hrole rfl
  have hstrict := Program.strict_eq_of_openScope hids h hopen (hactions.subset
    (Tree.openScope_mem_actions_function o form m name params body generator async expression
      method)) rfl
  constructor
  · intro hasks
    rw [hasks, eq_comm, Bool.or_eq_true, Bool.or_eq_true, decide_eq_true_eq] at hstrict
    rcases hstrict with (rfl | hm) | hbody
    · exact .arrow hu
    · rcases hmethod hm hmethods with ⟨v, hv, n, hn, hid⟩ | ⟨hfalse, -⟩
      · cases hid
        exact .method hv hn
      · cases hfalse
    · cases body with
      | expressionBody => cases hbody
      | blockBody b =>
        cases b with
        | block bm body => exact .directive hu (hasUseStrict_iff.mp hbody)
  · intro hmakes
    generalize hn : m.id = n at hmakes
    cases hmakes with
    | arrow hu' =>
      cases Program.eq_of_functionId? hids hu hu' (congrArg some hn) rfl
      rw [hstrict]
      rfl
    | directive hu' hbody =>
      cases Program.eq_of_functionId? hids hu hu' (congrArg some hn) rfl
      rw [hstrict, FunctionBody.hasUseStrict, hasUseStrict_iff.mpr hbody, Bool.or_true]
    | wrapper => exact absurd (congrArg some hn) (Program.functionId?_ne_mark hids hu)
    | @method v n hv hvalue =>
      obtain ⟨hwhole, form', fn, hfn, hpiece, hvalue⟩ := v.tree.exists_value_of_methodId? o hvalue
      have hu' := (p.gathered o .code v hv).subset (hpiece v.role)
      cases Program.eq_of_functionId? hids hu hu' (congrArg some hn) hfn
      obtain ⟨-, place, hactions', -⟩ :=
        Program.spans o p v hv hrole (Piece.isWhole_of_category hwhole)
      have hopen' := hactions'.subset (hvalue place (Tree.openScope_mem_actions_function o form m
        name params body generator async expression true))
      rw [Program.strict_eq_of_openScope hids h hopen hopen' rfl, Bool.or_true, Bool.true_or]

/-! ## Programs -/

/-- The kind of the innermost scope of a program. -/
def Options.innermostKind (o : Options) : ScopeKind :=
  if o.isEs6 && o.isModule then .module else if o.nodejsScope then .function else .global

private theorem Options.mayAsk_innermostKind (o : Options) : o.innermostKind.mayAsk = true := by
  unfold innermostKind
  split
  · rfl
  · split <;> rfl

private theorem Program.MakesStrict.mayAsk {kind : ScopeKind} {n : Nat}
    (h : MakesStrict o p kind n) : kind.mayAsk = true := by
  cases h <;> rfl

/-- The function around a program is strict by a directive of the program only. -/
theorem Program.MakesStrict.hasUseStrict (hids : (Tree.ids p).Nodup)
    (h : MakesStrict o p .function (Program.mark p).id) :
    Program.HasUseStrict o.directive p := by
  generalize hn : (Program.mark p).id = n at h
  cases h with
  | arrow hu | directive hu =>
    exact absurd (congrArg some hn.symm) (Program.functionId?_ne_mark hids hu)
  | @method v n hv hvalue =>
    obtain ⟨-, form, fn, hfn, hpiece, -⟩ := v.tree.exists_value_of_methodId? o hvalue
    rw [← hn] at hfn
    exact absurd hfn
      (Program.functionId?_ne_mark hids ((p.gathered o .code v hv).subset (hpiece v.role)))
  | wrapper hp => exact hp

/-- What asks for strict mode where scopes are opened are the causes. -/
theorem Program.asks_iff (hids : (Tree.ids p).Nodup)
    (hmethods : ∀ v ∈ Program.pieces o p, v.tree.hasMethod = true)
    (h : Program.analyze o p = .ok a) (hmode : o.hasStrictMode = true) {kind : ScopeKind}
    {block : Anchor} {strict : Bool}
    (hopen : .openScope kind block strict ∈ Program.actions o p) :
    strict = true ↔ Program.MakesStrict o p kind block.id ∨
      o.impliedStrict = true ∧ kind = o.innermostKind ∧ block.id = (Program.mark p).id := by
  obtain ⟨⟨c, role, t⟩, hu, hrole, place, hdeed⟩ := Program.done o p _ hopen
  have himplies : o.impliesStrict = o.impliedStrict := by
    rw [Options.impliesStrict, hmode, Bool.and_true]
  cases (t.all_deeds _ hdeed).asks with
  | global m body =>
    cases Program.eq_of_holdsProgram hu rfl
    have hdirective : MakesStrict o (.program m body) .global m.id ↔
        hasUseStrict o.directive body.toList = true ∧ o.nodejsScope = false := by
      rw [hasUseStrict_iff]
      refine ⟨fun hcause => ?_, fun ⟨hp, hwrapper⟩ => .global hp hwrapper⟩
      generalize hn : m.id = n at hcause
      cases hcause with
      | global hp hwrapper => exact ⟨hp, hwrapper⟩
    change _ ↔ MakesStrict o (.program m body) .global m.id ∨ _ ∧ _ ∧ m.id = m.id
    grind [Options.innermostKind]
  | wrapper m body hwrapper =>
    cases Program.eq_of_holdsProgram hu rfl
    have hdirective : MakesStrict o (.program m body) .function m.id ↔
        hasUseStrict o.directive body.toList = true := by
      rw [hasUseStrict_iff]
      exact ⟨fun hcause => hcause.hasUseStrict hids, fun hp => .wrapper hp⟩
    change _ ↔ MakesStrict o (.program m body) .function m.id ∨ _ ∧ _ ∧ m.id = m.id
    grind [Options.innermostKind]
  | module m body hmodule => exact iff_of_true rfl (.inl (.module _))
  | function form m =>
    rw [Program.function_asks_iff hids hmethods h hu hrole hopen]
    refine ⟨.inl, fun hcause => hcause.elim id fun ⟨_, _, hid⟩ => ?_⟩
    exact absurd (congrArg some hid) (Program.functionId?_ne_mark hids hu)
  | classNode form m => exact iff_of_true rfl (.inl (.classBody _))
  | other hkind =>
    refine iff_of_false Bool.false_ne_true fun hcause => ?_
    rcases hcause with hcause | ⟨-, rfl, -⟩
    · rw [hcause.mayAsk] at hkind
      cases hkind
    · rw [o.mayAsk_innermostKind] at hkind
      cases hkind

/-- The scope that a program opens last. -/
theorem Program.exists_last_opening (hids : (Tree.ids p).Nodup)
    (h : Program.analyze o p = .ok a) :
    ∃ last : Nat, a.openings[last]? = some (o.innermostKind, (Program.mark p).id) ∧
      ∀ (t : Nat) (k : ScopeKind), a.openings[t]? = some (k, (Program.mark p).id) →
        t ≤ last := by
  obtain ⟨M, l, hopenings, hnodup, harranged⟩ := Program.openings_eq_append hids h
  obtain ⟨own, hown⟩ : ∃ own,
      p.openings o .code = own ++ [(o.innermostKind, (Program.mark p).id)] := by
    cases p with
    | program m body =>
      change ∃ own, [(ScopeKind.global, m.id)] ++
        (if o.nodejsScope then [(ScopeKind.function, m.id)] else []) ++
        (if o.isEs6 && o.isModule then [(ScopeKind.module, m.id)] else []) = own ++ [(_, m.id)]
      unfold Options.innermostKind
      split_ifs
      · exact ⟨[_, _], rfl⟩
      · exact ⟨[_], rfl⟩
      · exact ⟨[_], rfl⟩
      · exact ⟨[], rfl⟩
  refine ⟨own.length, ?_, fun t k ht => ?_⟩
  · rw [hopenings, hown, List.append_assoc, List.getElem?_append_right (Nat.le_refl _),
      Nat.sub_self]
    rfl
  · by_contra hlt
    rw [hopenings, hown, List.getElem?_append_right (by simp; omega)] at ht
    exact (List.nodup_cons.mp hnodup).1 (harranged.node_mem _ (List.mem_of_getElem? ht))

/-- The innermost scope of a program. -/
theorem Program.isInnermost_iff (hids : (Tree.ids p).Nodup) (h : Program.analyze o p = .ok a)
    {t : Nat} : a.IsInnermost (Program.mark p).id t ↔
      a.openings[t]? = some (o.innermostKind, (Program.mark p).id) := by
  have htree := (Program.ordered hids h).isTree
  obtain ⟨last, hlast, hle⟩ := Program.exists_last_opening hids h
  constructor
  · rintro ⟨ht, hinside⟩
    obtain ⟨k, hk⟩ := htree.mem_scopesOf_iff.mp ht
    have hge := htree.le_of_inside (hinside last (htree.mem_scopesOf_iff.mpr ⟨_, hlast⟩))
    rwa [Nat.le_antisymm (hle t k hk) hge]
  · intro ht
    have heq : t = last := Program.eq_of_opening hids h ht hlast
    have hmem := htree.mem_scopesOf_iff.mpr ⟨_, ht⟩
    refine ⟨hmem, fun s hs => htree.inside_of_le hs hmem ?_⟩
    obtain ⟨k, hk⟩ := htree.mem_scopesOf_iff.mp hs
    exact heq ▸ hle s k hk

/-! ## Strict scopes -/

/-- A scope is strict by the scope around it or by a cause of its own. -/
theorem Program.isStrict_step (hids : (Tree.ids p).Nodup)
    (hmethods : ∀ v ∈ Program.pieces o p, v.tree.hasMethod = true)
    (h : Program.analyze o p = .ok a) {s : Nat} {y : Scope} (hy : a.scopes[s]? = some y) :
    y.isStrict = true ↔ o.hasStrictMode = true ∧
      ((∃ u, a.upper? s = some u ∧ ∃ z, a.scopes[u]? = some z ∧ z.isStrict = true) ∨
        Program.HasCause o p a s) := by
  obtain ⟨strict, hopen, hstrict⟩ := Program.exists_openScope h hy
  rw [hstrict]
  refine and_congr_right fun hmode => or_congr_right ?_
  rw [Program.asks_iff hids hmethods h hmode hopen, Program.HasCause,
    Program.isInnermost_iff hids h]
  refine or_congr ?_ (and_congr_right fun _ => ?_)
  · refine ⟨fun hmakes => ⟨y, hy, hmakes⟩, fun ⟨z, hz, hmakes⟩ => ?_⟩
    cases hy.symm.trans hz
    exact hmakes
  · rw [a.getElem?_openings, hy]
    simp [Scope.opening]

/-- Scopes inside a strict one are strict. -/
theorem Program.isStrict_of_inside (hids : (Tree.ids p).Nodup)
    (hmethods : ∀ v ∈ Program.pieces o p, v.tree.hasMethod = true)
    (h : Program.analyze o p = .ok a) {s t : Nat} {y z : Scope} (hy : a.scopes[s]? = some y)
    (hstrict : y.isStrict = true) (hz : a.scopes[t]? = some z) (hinside : a.Inside t s) :
    z.isStrict = true := by
  have htree := (Program.ordered hids h).isTree
  have hmode := ((Program.isStrict_step hids hmethods h hy).mp hstrict).1
  induction hinside using Relation.ReflTransGen.head_induction_on generalizing z with
  | refl =>
    cases hy.symm.trans hz
    exact hstrict
  | @head t u hu _ ih =>
    have hlt : u < a.scopes.size :=
      Nat.lt_trans (htree.lt_of_upper? hu) (Analysis.lt_size_of_upper? hu)
    have hw : a.scopes[u]? = some a.scopes[u] := Array.getElem?_eq_getElem hlt
    exact (Program.isStrict_step hids hmethods h hz).mpr ⟨hmode, .inl ⟨u, hu, _, hw, ih hw⟩⟩

/-- In a language without a strict mode, no scope is strict. Otherwise a scope is strict if it or a
scope around it has a cause of its own. So everything inside a strict scope is strict. -/
theorem Program.isStrict_iff_cause (hids : (Tree.ids p).Nodup)
    (hmethods : ∀ v ∈ Program.pieces o p, v.tree.hasMethod = true)
    (h : Program.analyze o p = .ok a) :
    (o.ecmaVersion < 5 → ∀ (s : Nat) (y : Scope), a.scopes[s]? = some y → y.isStrict = false) ∧
      (5 ≤ o.ecmaVersion → ∀ (s : Nat) (y : Scope), a.scopes[s]? = some y →
        (y.isStrict = true ↔ ∃ t, a.Inside s t ∧ Program.HasCause o p a t)) ∧
      ∀ (s t : Nat) (y z : Scope), a.scopes[s]? = some y → a.scopes[t]? = some z → a.Inside t s →
        y.isStrict = true → z.isStrict = true := by
  have htree := (Program.ordered hids h).isTree
  refine ⟨fun hversion s y hy => ?_, fun hversion s y hy => ⟨fun hstrict => ?_, ?_⟩,
    fun s t y z hy hz hinside hstrict =>
      Program.isStrict_of_inside hids hmethods h hy hstrict hz hinside⟩
  · rw [Bool.eq_false_iff]
    intro hstrict
    have hmode := ((Program.isStrict_step hids hmethods h hy).mp hstrict).1
    exact absurd (of_decide_eq_true hmode) (Nat.not_le.mpr hversion)
  · induction s using Nat.strongRecOn generalizing y with
    | ind s ih =>
      rcases ((Program.isStrict_step hids hmethods h hy).mp hstrict).2 with
        ⟨u, hu, z, hz, hzstrict⟩ | hcause
      · obtain ⟨t, hinside, hcause⟩ := ih u (htree.lt_of_upper? hu) z hz hzstrict
        exact ⟨t, .head hu hinside, hcause⟩
      · exact ⟨s, .refl, hcause⟩
  · rintro ⟨t, hinside, hcause⟩
    have hlt : t < a.scopes.size :=
      Nat.lt_of_le_of_lt (htree.le_of_inside hinside) (Array.getElem?_eq_some_iff.mp hy).1
    have hz : a.scopes[t]? = some a.scopes[t] := Array.getElem?_eq_getElem hlt
    have hstrict := (Program.isStrict_step hids hmethods h hz).mpr
      ⟨decide_eq_true hversion, .inr hcause⟩
    exact Program.isStrict_of_inside hids hmethods h hz hstrict hy hinside

end

/-- The program `({ m() { function f() {} }, g: function () {} });`. -/
def Program.objectWithMethod : Program :=
  let mark (n : Nat) : Mark := ⟨n, ⟨n, n⟩⟩
  .program (mark 0) (.cons (.expressionStatement (mark 1) (.objectExpression (mark 2)
    (.cons (.property (mark 3) (.identifier ⟨mark 4, "m"⟩) (.functionExpression
      (.function .expression (mark 5) none .nil (.blockBody (.block (mark 6)
        (.cons (.functionDeclaration (.function .declaration (mark 7) (some ⟨mark 8, "f"⟩) .nil
          (.blockBody (.block (mark 9) .nil)) false false false)) .nil))) false false false))
      .plain true false false)
    (.cons (.property (mark 10) (.identifier ⟨mark 11, "g"⟩) (.functionExpression
      (.function .expression (mark 12) none .nil (.blockBody (.block (mark 13) .nil))
        false false false)) .plain false false false) .nil))) none) .nil)

/-- The function inside a method is strict by the method, but the function that is the value of
another property is not. -/
theorem Program.isStrict_iff_cause_method : (Tree.ids Program.objectWithMethod).Nodup ∧
    (∀ v ∈ Program.pieces {} .objectWithMethod, v.tree.hasMethod = true) ∧
    ∃ (a : Analysis) (y z : Scope), Program.analyze {} .objectWithMethod = .ok a ∧
      a.scopes[2]? = some y ∧ a.scopes[3]? = some z ∧ y.isStrict = true ∧
      (∃ t, a.Inside 2 t ∧ Program.HasCause {} .objectWithMethod a t) ∧ z.isStrict = false ∧
      ¬ ∃ t, a.Inside 3 t ∧ Program.HasCause {} .objectWithMethod a t := by
  have hids : (Tree.ids Program.objectWithMethod).Nodup := by decide
  have hmethods : ∀ v ∈ Program.pieces {} .objectWithMethod, v.tree.hasMethod = true := by decide
  have hscopes : ((Program.analyze {} .objectWithMethod).toOption.bind fun a =>
      (a.scopes[2]?).bind fun y : Scope => (a.scopes[3]?).map fun z : Scope =>
        (y.isStrict, z.isStrict)) =
      some (true, false) := by decide +kernel
  cases h : Program.analyze {} .objectWithMethod with
  | error e =>
    rw [h] at hscopes
    cases hscopes
  | ok a =>
    rw [h] at hscopes
    obtain ⟨y, hy, hscopes⟩ : ∃ y, a.scopes[2]? = some y ∧ _ := Option.bind_eq_some_iff.mp hscopes
    obtain ⟨z, hz, hstrict⟩ := Option.map_eq_some_iff.mp hscopes
    obtain ⟨hystrict, hzstrict⟩ := Prod.mk.inj hstrict
    obtain ⟨-, hcause, -⟩ := Program.isStrict_iff_cause hids hmethods h
    refine ⟨hids, hmethods, a, y, z, rfl, hy, hz, hystrict, ?_, hzstrict, ?_⟩
    · exact (hcause (Nat.le_refl 5) 2 y hy).mp hystrict
    · rw [← hcause (Nat.le_refl 5) 3 z hz, hzstrict]
      exact Bool.false_ne_true

end EcmaScope
