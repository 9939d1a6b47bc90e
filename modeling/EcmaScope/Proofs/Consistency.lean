import EcmaScope.Proofs.Resolution
import EcmaScope.Proofs.Writes
import Mathlib.Data.List.Nodup
import Mathlib.Data.List.Range

/-!
# The tables fit together

The tables of scopes, variables and references refer to each other in both directions: scopes list
their variables and references, which know their scopes, and variables list the references that are
resolved to them. This module proves that in every analysis both directions agree.

Each of the three ways in which the tables refer to each other is an invariant of its own, of the
few functions that read it off the tables. What is written into the tables keeps all of them.

## Main definitions

* `Shelved`, `Filed`, `Credited`: tables of variables, lists of references, and the references of
  variables fit what variables and references say.
* `Analysis.tables`: the tables of variables with their scopes.
* `Analysis.Consistent`: everything fits.

## Main results

* `Builder.Writes.kempt`: what is written keeps the tables fit.
* `Program.analyze_consistent`: the tables of an analysis fit together.
-/

namespace EcmaScope

/-! ## Tables of variables -/

/-- The tables of variables fit what the variables say of themselves: each of them is in one place,
in a table of its scope, under its name. -/
structure Shelved (table? : Nat → Origin → Option Bindings)
    (title? : Nat → Option (Nat × String)) : Prop where
  find?_iff : ∀ {s k bindings}, table? s k = some bindings → ∀ name v,
    bindings.find? name = some v ↔ v ∈ bindings.vars ∧ title? v = some (s, name)
  titled : ∀ {s k bindings}, table? s k = some bindings → ∀ v ∈ bindings.vars,
    ∃ name, title? v = some (s, name)
  nodup : ∀ {s k bindings}, table? s k = some bindings → bindings.vars.toList.Nodup
  origin_eq : ∀ {s k j bindings others v}, table? s k = some bindings →
    table? s j = some others → v ∈ bindings.vars → v ∈ others.vars → k = j
  listed : ∀ {s name v}, title? v = some (s, name) →
    ∃ k bindings, table? s k = some bindings ∧ v ∈ bindings.vars

namespace Shelved

variable {table? table?' : Nat → Origin → Option Bindings}
  {title? title?' : Nat → Option (Nat × String)}

/-- Tables with nothing in them come into being. -/
theorem opened {s : Nat} (h : Shelved table? title?) (hs : ∀ k, table? s k = none)
    (hnew : ∀ {k bindings}, table?' s k = some bindings → bindings = {})
    (hold : ∀ t k, t ≠ s → table?' t k = table? t k) : Shelved table?' title? := by
  have hcases {t : Nat} {k : Origin} {bindings : Bindings} (ht : table?' t k = some bindings) :
      table? t k = some bindings ∨ bindings = {} := by
    by_cases hts : t = s
    · exact .inr (hnew (hts ▸ ht))
    · exact .inl (hold t k hts ▸ ht)
  constructor
  · intro t k bindings ht name v
    rcases hcases ht with ht | rfl
    · exact h.find?_iff ht name v
    · simp [Bindings.find?]
  · intro t k bindings ht v hv
    rcases hcases ht with ht | rfl
    · exact h.titled ht v hv
    · simp at hv
  · intro t k bindings ht
    rcases hcases ht with ht | rfl
    · exact h.nodup ht
    · simp
  · intro t k j bindings others v ht ht' hv hv'
    rcases hcases ht with ht | rfl
    · rcases hcases ht' with ht' | rfl
      · exact h.origin_eq ht ht' hv hv'
      · simp at hv'
    · simp at hv
  · intro t name v hv
    obtain ⟨k, bindings, ht, hmem⟩ := h.listed hv
    have hne : t ≠ s := fun e => by simp [e, hs] at ht
    exact ⟨k, bindings, (hold t k hne).trans ht, hmem⟩

/-- A new variable comes into a table that has none of its name. -/
theorem made {s n : Nat} {k : Origin} {bindings : Bindings} {name : String}
    (h : Shelved table? title?) (hbindings : table? s k = some bindings)
    (hname : bindings.find? name = none) (hn : title? n = none)
    (htable : ∀ t j, table?' t j =
      if t = s ∧ j = k then some (bindings.add name n) else table? t j)
    (htitle : ∀ v, title?' v = if v = n then some (s, name) else title? v) :
    Shelved table?' title?' := by
  have hfresh {t : Nat} {j : Origin} {others : Bindings} (ht : table? t j = some others)
      {v : Nat} (hv : v ∈ others.vars) : v ≠ n := by
    rintro rfl
    obtain ⟨m, hm⟩ := h.titled ht v hv
    rw [hn] at hm
    cases hm
  have hself : table?' s k = some (bindings.add name n) := by rw [htable, if_pos ⟨rfl, rfl⟩]
  have hcases {t : Nat} {j : Origin} {others : Bindings} (ht : table?' t j = some others) :
      (t = s ∧ j = k ∧ others = bindings.add name n) ∨ table? t j = some others := by
    rw [htable] at ht
    split at ht
    · next hsame => exact .inl ⟨hsame.1, hsame.2, (Option.some.inj ht).symm⟩
    · exact .inr ht
  have hmem {v : Nat} : v ∈ (bindings.add name n).vars ↔ v ∈ bindings.vars ∨ v = n :=
    Array.mem_push
  have hplace {t : Nat} {j : Origin} {others : Bindings} (ht : table?' t j = some others)
      (hv : n ∈ others.vars) : t = s ∧ j = k := by
    rcases hcases ht with ⟨rfl, rfl, -⟩ | ht
    · exact ⟨rfl, rfl⟩
    · exact absurd rfl (hfresh ht hv)
  have hprior {t v : Nat} {j : Origin} {others : Bindings} (ht : table?' t j = some others)
      (hv : v ∈ others.vars) (hvn : v ≠ n) :
      ∃ before, table? t j = some before ∧ v ∈ before.vars := by
    rcases hcases ht with ⟨rfl, rfl, rfl⟩ | ht
    · exact ⟨bindings, hbindings, (hmem.mp hv).resolve_right hvn⟩
    · exact ⟨others, ht, hv⟩
  have hold {v : Nat} (hv : v ≠ n) : title?' v = title? v := by rw [htitle, if_neg hv]
  have hnew : title?' n = some (s, name) := by rw [htitle, if_pos rfl]
  constructor
  · intro t j others ht m v
    rcases hcases ht with ⟨rfl, rfl, rfl⟩ | ht
    · rw [Bindings.find?_add, hmem]
      by_cases hv : v = n
      · subst hv
        rw [hnew]
        by_cases hm : m = name
        · simp [hm]
        · have hnone : bindings.find? m ≠ some v := fun hfind =>
            hfresh hbindings ((h.find?_iff hbindings m v).mp hfind).1 rfl
          simp [hm, hnone, Ne.symm hm]
      · rw [hold hv]
        by_cases hm : m = name
        · subst hm
          have hnot : ¬ (v ∈ bindings.vars ∧ title? v = some (t, m)) := fun hboth => by
            rw [(h.find?_iff hbindings m v).mpr hboth] at hname
            cases hname
          simpa [hv, Ne.symm hv] using hnot
        · simpa [hm, hv] using h.find?_iff hbindings m v
    · rw [h.find?_iff ht m v]
      refine and_congr_right fun hv => ?_
      rw [hold (hfresh ht hv)]
  · intro t j others ht v hv
    rcases hcases ht with ⟨rfl, rfl, rfl⟩ | ht
    · rcases hmem.mp hv with hv | rfl
      · rw [hold (hfresh hbindings hv)]
        exact h.titled hbindings v hv
      · exact ⟨name, hnew⟩
    · rw [hold (hfresh ht hv)]
      exact h.titled ht v hv
  · intro t j others ht
    rcases hcases ht with ⟨rfl, rfl, rfl⟩ | ht
    · have hnotMem : n ∉ bindings.vars.toList := fun hv =>
        hfresh hbindings (Array.mem_toList_iff.mp hv) rfl
      simpa [Bindings.add] using
        List.Nodup.append (h.nodup hbindings) (List.nodup_singleton n) (by simpa using hnotMem)
    · exact h.nodup ht
  · intro t j i others more v ht ht' hv hv'
    by_cases hvn : v = n
    · exact (hplace ht (hvn ▸ hv)).2.trans (hplace ht' (hvn ▸ hv')).2.symm
    · obtain ⟨_, hj, hvj⟩ := hprior ht hv hvn
      obtain ⟨_, hi, hvi⟩ := hprior ht' hv' hvn
      exact h.origin_eq hj hi hvj hvi
  · intro t m v hv
    by_cases hvn : v = n
    · rw [hvn, hnew] at hv
      cases hv
      exact ⟨k, _, hself, hmem.mpr (.inr hvn)⟩
    · rw [hold hvn] at hv
      obtain ⟨j, others, ht, hv⟩ := h.listed hv
      by_cases hsame : t = s ∧ j = k
      · obtain ⟨rfl, rfl⟩ := hsame
        rw [hbindings] at ht
        cases ht
        exact ⟨j, _, hself, hmem.mpr (.inl hv)⟩
      · exact ⟨j, others, by rw [htable, if_neg hsame, ht], hv⟩

end Shelved

/-! ## Lists of references -/

/-- The lists of references fit what the `n` references say of themselves: a scope lists the
references in it, in the order in which they were made. -/
structure Filed (list? : Nat → Option (Array Nat)) (scope? : Nat → Option Nat) (n : Nat) :
    Prop where
  toList_eq : ∀ {s l}, list? s = some l →
    l.toList = (List.range n).filter fun r => scope? r = some s
  listed : ∀ {r s}, scope? r = some s → r < n ∧ (list? s).isSome = true

namespace Filed

variable {list? list?' : Nat → Option (Array Nat)} {scope? scope?' : Nat → Option Nat} {n : Nat}

/-- A list with nothing in it comes into being. -/
private theorem opened {s : Nat} (h : Filed list? scope? n) (hs : list? s = none)
    (hlist : ∀ t, list?' t = if t = s then some #[] else list? t) : Filed list?' scope? n := by
  constructor
  · intro t l ht
    rw [hlist] at ht
    split at ht
    · next hts =>
      cases ht
      refine (List.filter_eq_nil_iff.mpr fun r _ hr => ?_).symm
      have hsome := (h.listed (of_decide_eq_true hr)).2
      rw [hts, hs] at hsome
      cases hsome
    · exact h.toList_eq ht
  · intro r t hr
    obtain ⟨hlt, hsome⟩ := h.listed hr
    refine ⟨hlt, ?_⟩
    rw [hlist]
    split
    · rfl
    · exact hsome

/-- A new reference comes to the end of a list. -/
private theorem referred {s : Nat} (h : Filed list? scope? n) (hs : (list? s).isSome = true)
    (hlist : ∀ t, list?' t = if t = s then (list? t).map (·.push n) else list? t)
    (hscope : ∀ r, scope?' r = if r = n then some s else scope? r) :
    Filed list?' scope?' (n + 1) := by
  have hold (t : Nat) : ((List.range n).filter fun r => scope?' r = some t) =
      (List.range n).filter fun r => scope? r = some t := by
    refine List.filter_congr fun r hr => ?_
    rw [hscope, if_neg (Nat.ne_of_lt (List.mem_range.mp hr))]
  have hnew : scope?' n = some s := by rw [hscope, if_pos rfl]
  constructor
  · intro t l ht
    rw [List.range_succ, List.filter_append, hold]
    rw [hlist] at ht
    by_cases hts : t = s
    · subst hts
      rw [if_pos rfl] at ht
      obtain ⟨l, hl, rfl⟩ := Option.map_eq_some_iff.mp ht
      simp [hnew, h.toList_eq hl]
    · rw [if_neg hts] at ht
      simp [hnew, Ne.symm hts, h.toList_eq ht]
  · intro r t hr
    rw [hscope] at hr
    have hsome : (list? t).isSome = true := by
      split at hr
      · cases hr
        exact hs
      · exact (h.listed hr).2
    refine ⟨?_, ?_⟩
    · split at hr
      · omega
      · have := (h.listed hr).1
        omega
    · rw [hlist]
      split <;> simpa using hsome

end Filed

/-! ## The references of variables -/

/-- The references of variables fit what the references say of themselves: a variable has those that
are resolved to it. It lives on the stack if they are all in the same function as the variable,
where `function?` tells the function of a scope. -/
structure Credited (credit? : Nat → Option (Nat × Array Nat × Bool))
    (meaning? : Nat → Option (Nat × Option Nat)) (function? : Nat → Option Nat) : Prop where
  mem_iff : ∀ {v s l stack}, credit? v = some (s, l, stack) → ∀ r,
    r ∈ l ↔ ∃ t, meaning? r = some (t, some v)
  nodup : ∀ {v s l stack}, credit? v = some (s, l, stack) → l.toList.Nodup
  stack_iff : ∀ {v s l stack}, credit? v = some (s, l, stack) →
    (stack = true ↔ ∀ r ∈ l, ∀ t m, meaning? r = some (t, m) → function? t = function? s)
  credited : ∀ {r t v}, meaning? r = some (t, some v) → (credit? v).isSome = true
  scope_of_credit : ∀ {v s l stack}, credit? v = some (s, l, stack) → (function? s).isSome = true
  scope_of_meaning : ∀ {r t m}, meaning? r = some (t, m) → (function? t).isSome = true

namespace Credited

variable {credit? credit?' : Nat → Option (Nat × Array Nat × Bool)}
  {meaning? meaning?' : Nat → Option (Nat × Option Nat)} {function? function?' : Nat → Option Nat}

/-- A scope comes into being. -/
theorem opened (h : Credited credit? meaning? function?)
    (hfunction : ∀ {t}, (function? t).isSome = true → function?' t = function? t) :
    Credited credit? meaning? function?' where
  mem_iff := h.mem_iff
  nodup := h.nodup
  stack_iff hv := by
    rw [h.stack_iff hv]
    refine forall₂_congr fun r _ => forall₃_congr fun t m hr => ?_
    rw [hfunction (h.scope_of_meaning hr), hfunction (h.scope_of_credit hv)]
  credited := h.credited
  scope_of_credit hv := by
    rw [hfunction (h.scope_of_credit hv)]
    exact h.scope_of_credit hv
  scope_of_meaning hr := by
    rw [hfunction (h.scope_of_meaning hr)]
    exact h.scope_of_meaning hr

/-- A variable without references comes into being. -/
theorem made {n s : Nat} (h : Credited credit? meaning? function?) (hn : credit? n = none)
    (hs : (function? s).isSome = true)
    (hcredit : ∀ v, credit?' v = if v = n then some (s, #[], true) else credit? v) :
    Credited credit?' meaning? function? := by
  have hnone {r t : Nat} : meaning? r ≠ some (t, some n) := fun hr => by
    have hsome := h.credited hr
    rw [hn] at hsome
    cases hsome
  have hcases {v t : Nat} {l : Array Nat} {stack : Bool} (hv : credit?' v = some (t, l, stack)) :
      (v = n ∧ t = s ∧ l = #[] ∧ stack = true) ∨ credit? v = some (t, l, stack) := by
    rw [hcredit] at hv
    split at hv
    · next hvn =>
      cases hv
      exact .inl ⟨hvn, rfl, rfl, rfl⟩
    · exact .inr hv
  constructor
  · intro v t l stack hv r
    rcases hcases hv with ⟨rfl, -, rfl, -⟩ | hv
    · simpa using fun t => hnone
    · exact h.mem_iff hv r
  · intro v t l stack hv
    rcases hcases hv with ⟨-, -, rfl, -⟩ | hv
    · simp
    · exact h.nodup hv
  · intro v t l stack hv
    rcases hcases hv with ⟨-, -, rfl, rfl⟩ | hv
    · simp
    · exact h.stack_iff hv
  · intro r t v hr
    rw [hcredit]
    split
    · rfl
    · exact h.credited hr
  · intro v t l stack hv
    rcases hcases hv with ⟨-, rfl, -, -⟩ | hv
    · exact hs
    · exact h.scope_of_credit hv
  · exact h.scope_of_meaning

/-- A reference that is not resolved comes into being. -/
theorem referred {n s : Nat} (h : Credited credit? meaning? function?) (hn : meaning? n = none)
    (hs : (function? s).isSome = true)
    (hmeaning : ∀ r, meaning?' r = if r = n then some (s, none) else meaning? r) :
    Credited credit? meaning?' function? := by
  have hresolved {r t v : Nat} :
      meaning?' r = some (t, some v) ↔ meaning? r = some (t, some v) := by
    rw [hmeaning]
    split
    · next hrn => simp [hrn, hn]
    · rfl
  constructor
  · intro v t l stack hv r
    simpa only [hresolved] using h.mem_iff hv r
  · exact h.nodup
  · intro v t l stack hv
    rw [h.stack_iff hv]
    refine forall₂_congr fun r hr => forall₂_congr fun u m => ?_
    obtain ⟨w, hw⟩ := (h.mem_iff hv r).mp hr
    have hne : r ≠ n := fun e => by simp [e, hn] at hw
    rw [hmeaning, if_neg hne]
  · exact fun hr => h.credited (hresolved.mp hr)
  · exact h.scope_of_credit
  · intro r t m hr
    rw [hmeaning] at hr
    split at hr
    · cases hr
      exact hs
    · exact h.scope_of_meaning hr

/-- A reference is resolved. -/
theorem resolved {r v s t : Nat} {l : Array Nat} {stack : Bool}
    (h : Credited credit? meaning? function?) (hr : meaning? r = some (t, none))
    (hv : credit? v = some (s, l, stack))
    (hcredit : ∀ u, credit?' u = if u = v then
      some (s, l.push r, stack && decide (function? t = function? s)) else credit? u)
    (hmeaning : ∀ q, meaning?' q = if q = r then some (t, some v) else meaning? q) :
    Credited credit?' meaning?' function? := by
  have hfresh {u w : Nat} {k : Array Nat} {st : Bool} (hu : credit? u = some (w, k, st))
      {q : Nat} (hq : q ∈ k) : q ≠ r := by
    rintro rfl
    obtain ⟨_, hmeans⟩ := (h.mem_iff hu q).mp hq
    rw [hr] at hmeans
    cases hmeans
  have hself : meaning?' r = some (t, some v) := by rw [hmeaning, if_pos rfl]
  have hold {q : Nat} (hq : q ≠ r) : meaning?' q = meaning? q := by rw [hmeaning, if_neg hq]
  have hcases {u w : Nat} {k : Array Nat} {st : Bool} (hu : credit?' u = some (w, k, st)) :
      (u = v ∧ w = s ∧ k = l.push r ∧ st = (stack && decide (function? t = function? s))) ∨
        (u ≠ v ∧ credit? u = some (w, k, st)) := by
    rw [hcredit] at hu
    split at hu
    · next huv =>
      cases hu
      exact .inl ⟨huv, rfl, rfl, rfl⟩
    · next huv => exact .inr ⟨huv, hu⟩
  constructor
  · intro u w k st hu q
    rcases hcases hu with ⟨rfl, -, rfl, -⟩ | ⟨huv, hu⟩
    · rw [Array.mem_push, h.mem_iff hv]
      by_cases hq : q = r
      · simp [hq, hself]
      · simp [hq, hold hq]
    · by_cases hq : q = r
      · subst hq
        have hnotMem : q ∉ k := fun hmem => hfresh hu hmem rfl
        simp [hnotMem, hself, Ne.symm huv]
      · rw [hold hq]
        exact h.mem_iff hu q
  · intro u w k st hu
    rcases hcases hu with ⟨-, -, rfl, -⟩ | ⟨-, hu⟩
    · have hnotMem : r ∉ l.toList := fun hmem => hfresh hv (Array.mem_toList_iff.mp hmem) rfl
      simpa using List.Nodup.append (h.nodup hv) (List.nodup_singleton r) (by simpa using hnotMem)
    · exact h.nodup hu
  · intro u w k st hu
    rcases hcases hu with ⟨rfl, rfl, rfl, rfl⟩ | ⟨-, hu⟩
    · rw [Bool.and_eq_true, decide_eq_true_iff, h.stack_iff hv]
      constructor
      · rintro ⟨hall, hlast⟩ q hq x m hx
        rcases Array.mem_push.mp hq with hq | rfl
        · exact hall q hq x m (hold (hfresh hv hq) ▸ hx)
        · rw [hself] at hx
          cases hx
          exact hlast
      · intro hall
        refine ⟨fun q hq x m hx => ?_, hall r (Array.mem_push.mpr (.inr rfl)) t _ hself⟩
        exact hall q (Array.mem_push.mpr (.inl hq)) x m ((hold (hfresh hv hq)).trans hx)
    · rw [h.stack_iff hu]
      refine forall₂_congr fun q hq => ?_
      rw [hold (hfresh hu hq)]
  · intro q x u hq
    rw [hcredit]
    split
    · rfl
    · next huv =>
      by_cases hqr : q = r
      · rw [hqr, hself] at hq
        cases hq
        exact absurd rfl huv
      · exact h.credited (hold hqr ▸ hq)
  · intro u w k st hu
    rcases hcases hu with ⟨-, rfl, -, -⟩ | ⟨-, hu⟩
    · exact h.scope_of_credit hv
    · exact h.scope_of_credit hu
  · intro q x m hq
    by_cases hqr : q = r
    · rw [hqr, hself] at hq
      cases hq
      exact h.scope_of_meaning hr
    · exact h.scope_of_meaning (hold hqr ▸ hq)

end Credited

/-! ## What is written -/

namespace Analysis

/-- The scope and the name of a variable. -/
def title? (a : Analysis) (v : Nat) : Option (Nat × String) :=
  (a.vars[v]?).map fun x => (x.scope, x.name)

/-- The references in a scope. -/
def list? (a : Analysis) (s : Nat) : Option (Array Nat) :=
  (a.scopes[s]?).map Scope.references

/-- The scope of a variable, its references, and whether it lives on the stack. -/
def credit? (a : Analysis) (v : Nat) : Option (Nat × Array Nat × Bool) :=
  (a.vars[v]?).map fun x => (x.scope, x.references, x.stack)

/-- The scope of a reference, and the variable to which it is resolved. -/
def meaning? (a : Analysis) (r : Nat) : Option (Nat × Option Nat) :=
  (a.references[r]?).map Reference.contents

/-- The scope that binds what is declared by `var` in a scope. -/
def variableScope? (a : Analysis) (s : Nat) : Option Nat :=
  (a.scopes[s]?).map Scope.variableScope

/-- All tables fit, as far as they are written. -/
structure Kempt (a : Analysis) : Prop where
  shelved : Shelved a.table? a.title?
  filed : Filed a.list? (fun r => (a.meaning? r).map Prod.fst) a.references.size
  credited : Credited a.credit? a.meaning? a.variableScope?

end Analysis

namespace Builder

variable {b b' : Builder}

theorem kempt_empty : ({} : Builder).Kempt where
  shelved := by constructor <;> simp [Analysis.table?, Analysis.title?]
  filed := by constructor <;> simp [Analysis.list?, Analysis.meaning?]
  credited := by constructor <;> simp [Analysis.credit?, Analysis.meaning?]

private theorem Same.kempt (h : Same b b') (hb : b.Kempt) : b'.Kempt := by
  have htable : b'.table? = b.table? := by
    funext t k
    have hcontents := congrArg (Option.map fun y => y.1 k) (h.scopes t)
    rw [Option.map_map, Option.map_map] at hcontents
    rw [Analysis.table?_eq, Analysis.table?_eq]
    exact congrArg Option.join hcontents
  have htitle : b'.title? = b.title? := by
    funext v
    have hcontents := congrArg (Option.map fun x => (x.1, x.2.1)) (h.vars v)
    rwa [Option.map_map, Option.map_map] at hcontents
  have hlist : b'.list? = b.list? := by
    funext t
    have hcontents := congrArg (Option.map fun y => y.2.1) (h.scopes t)
    rwa [Option.map_map, Option.map_map] at hcontents
  have hcredit : b'.credit? = b.credit? := by
    funext v
    have hcontents := congrArg (Option.map fun x => (x.1, x.2.2)) (h.vars v)
    rwa [Option.map_map, Option.map_map] at hcontents
  have hmeaning : b'.meaning? = b.meaning? := funext h.references
  have hfunction : b'.variableScope? = b.variableScope? := by
    funext t
    have hcontents := congrArg (Option.map fun y => y.2.2) (h.scopes t)
    rwa [Option.map_map, Option.map_map] at hcontents
  have hsize : b'.references.size = b.references.size := by
    have hiff (r : Nat) : b'.references.size ≤ r ↔ b.references.size ≤ r := by
      rw [← Array.getElem?_eq_none_iff, ← Option.map_eq_none_iff, h.references,
        Option.map_eq_none_iff, Array.getElem?_eq_none_iff]
    exact Nat.le_antisymm ((hiff _).mpr (Nat.le_refl _)) ((hiff _).mp (Nat.le_refl _))
  constructor
  · rw [htable, htitle]
    exact hb.shelved
  · rw [hlist, hmeaning, hsize]
    exact hb.filed
  · rw [hcredit, hmeaning, hfunction]
    exact hb.credited

/-- Making a variable keeps the tables fit. -/
theorem kempt_listVariable {s : Nat} {k : Origin} {bindings : Bindings} {name : String}
    (hb : b.Kempt) (hbindings : b.table? s k = some bindings) (hname : bindings.find? name = none) :
    (b.listVariable s k bindings name).Kempt := by
  obtain ⟨y, hy, hk⟩ := Option.bind_eq_some_iff.mp hbindings
  have hkeep {α : Type} (g : Scope → α) (hg : ∀ y others, g (y.setTable k others) = g y) (t : Nat) :
      ((b.listVariable s k bindings name).scopes[t]?).map g = (b.scopes[t]?).map g := by
    rw [scopes_listVariable, Option.map_map]
    congr 1
    funext y
    simp only [Function.comp_apply]
    split
    · exact hg y _
    · rfl
  have hlist : (b.listVariable s k bindings name).list? = b.list? :=
    funext (hkeep Scope.references fun y others => by cases k <;> rfl)
  have hfunction : (b.listVariable s k bindings name).variableScope? = b.variableScope? :=
    funext (hkeep Scope.variableScope fun y others => by cases k <;> rfl)
  constructor
  · refine hb.shelved.made hbindings hname (n := b.vars.size) ?_ (fun t j => ?_) fun v => ?_
    · simp [Analysis.title?]
    · rw [Analysis.table?, scopes_listVariable, Analysis.table?]
      by_cases ht : t = s
      · have hsome : (y.table? k).isSome = true := by rw [hk]; rfl
        simp [ht, hy, Scope.table?_setTable y k j _ hsome]
      · simp [ht]
    · rw [Analysis.title?, vars_listVariable]
      split <;> rfl
  · rw [hlist]
    exact hb.filed
  · rw [hfunction]
    refine hb.credited.made (n := b.vars.size) (s := s) ?_ ?_ fun v => ?_
    · simp [Analysis.credit?]
    · rw [Analysis.variableScope?, hy]
      rfl
    · rw [Analysis.credit?, vars_listVariable]
      split <;> rfl

/-- Opening a scope with nothing in it keeps the tables fit. -/
theorem kempt_pushScope {scope : Scope} (hb : b.Kempt)
    (htable : ∀ {k bindings}, scope.table? k = some bindings → bindings = {})
    (hreferences : scope.references = #[]) : (b.pushScope scope).Kempt := by
  have hsize : b.scopes[b.scopes.size]? = none := Array.getElem?_size
  have htitle : (b.pushScope scope).title? = b.title? := by
    funext v
    rw [Analysis.title?, vars_pushScope, Analysis.title?]
  have hcredit : (b.pushScope scope).credit? = b.credit? := by
    funext v
    rw [Analysis.credit?, vars_pushScope, Analysis.credit?]
  have hmeaning : (b.pushScope scope).meaning? = b.meaning? := by
    funext r
    rw [Analysis.meaning?, references_pushScope, Analysis.meaning?]
  constructor
  · rw [htitle]
    refine hb.shelved.opened (s := b.scopes.size) (fun k => ?_) (fun {k bindings} hk => ?_) ?_
    · rw [Analysis.table?, hsize]
      rfl
    · rw [Analysis.table?, scopes_pushScope, if_pos rfl] at hk
      exact htable hk
    · intro t k ht
      rw [Analysis.table?_eq, Analysis.table?_eq]
      exact congrArg Option.join (map_pushScope b scope (·.table? k) (fun _ _ => rfl) ht)
  · rw [hmeaning, references_pushScope]
    refine hb.filed.opened (s := b.scopes.size) ?_ fun t => ?_
    · rw [Analysis.list?, hsize]
      rfl
    · split
      · next ht =>
        rw [Analysis.list?, scopes_pushScope, if_pos ht, Option.map_some, hreferences]
      · next ht => exact map_pushScope b scope Scope.references (fun _ _ => rfl) ht
  · rw [hcredit, hmeaning]
    refine hb.credited.opened fun {t} ht => ?_
    have hne : t ≠ b.scopes.size := fun e => by
      rw [e, Analysis.variableScope?, hsize] at ht
      cases ht
    exact map_pushScope b scope Scope.variableScope (fun _ _ => rfl) hne

/-- Making a reference keeps the tables fit. -/
theorem kempt_listReference {x : Reference} (hb : b.Kempt) (hscope : x.scope < b.scopes.size)
    (hresolved : x.resolved = none) : (b.listReference x).Kempt := by
  have hsome := Array.getElem?_eq_getElem hscope
  have hkeep {α : Type} (g : Scope → α)
      (hg : ∀ y references, g { y with references := references } = g y) (t : Nat) :
      ((b.listReference x).scopes[t]?).map g = (b.scopes[t]?).map g := by
    rw [scopes_listReference, Option.map_map]
    congr 1
    funext y
    simp only [Function.comp_apply]
    split
    · exact hg y _
    · rfl
  have htable : (b.listReference x).table? = b.table? := by
    funext t k
    rw [Analysis.table?_eq, hkeep (·.table? k) (fun _ _ => rfl), Analysis.table?_eq]
  have hfunction : (b.listReference x).variableScope? = b.variableScope? :=
    funext (hkeep Scope.variableScope fun _ _ => rfl)
  have hmeaning (r : Nat) : (b.listReference x).meaning? r =
      if r = b.references.size then some (x.scope, none) else b.meaning? r := by
    rw [Analysis.meaning?, references_listReference]
    split
    · rw [Option.map_some, Reference.contents, hresolved]
    · rfl
  constructor
  · rw [htable]
    exact hb.shelved
  · have hsize : (b.listReference x).references.size = b.references.size + 1 := Array.size_push x
    rw [hsize]
    refine hb.filed.referred (s := x.scope) ?_ (fun t => ?_) fun r => ?_
    · rw [Analysis.list?, hsome]
      rfl
    · rw [Analysis.list?, scopes_listReference, Analysis.list?]
      by_cases ht : t = x.scope <;> simp [ht, Function.comp_def]
    · rw [hmeaning]
      split <;> rfl
  · rw [hfunction]
    refine hb.credited.referred (n := b.references.size) (s := x.scope) ?_ ?_ hmeaning
    · simp [Analysis.meaning?]
    · rw [Analysis.variableScope?, hsome]
      rfl

/-- Resolving a reference keeps the tables fit. -/
theorem kempt_listResolved {s r v : Nat} {x : Reference} {z : Variable} (hb : b.Kempt)
    (hx : b.references[r]? = some x) (hresolved : x.resolved = none) (hz : b.vars[v]? = some z)
    (hscope : z.scope = s) : (b.listResolved s r v x).Kempt := by
  have hmeaning : b.meaning? r = some (x.scope, none) := by
    rw [Analysis.meaning?, hx, Option.map_some, Reference.contents, hresolved]
  have hcredit : b.credit? v = some (s, z.references, z.stack) := by
    rw [Analysis.credit?, hz, Option.map_some, hscope]
  have hfunction {t : Nat} (ht : (b.variableScope? t).isSome = true) :
      b.variableScope? t = some (b.variableScope t) := by
    rw [Analysis.variableScope?, Option.isSome_map] at ht
    obtain ⟨y, hy⟩ := Option.isSome_iff_exists.mp ht
    rw [Analysis.variableScope?, variableScope, hy]
    rfl
  have hreference (q : Nat) : (b.listResolved s r v x).meaning? q =
      if q = r then some (x.scope, some v) else b.meaning? q := by
    rw [Analysis.meaning?, references_listResolved, Analysis.meaning?]
    by_cases hq : q = r
    · simp [hq, hx, Reference.contents]
    · simp [hq]
  constructor
  · have htitle : (b.listResolved s r v x).title? = b.title? := by
      funext u
      rw [Analysis.title?, vars_listResolved, Analysis.title?]
      split
      · rw [Option.map_map]
        rfl
      · rfl
    rw [htitle]
    exact hb.shelved
  · have hscopes : (fun q => ((b.listResolved s r v x).meaning? q).map Prod.fst) =
        fun q => (b.meaning? q).map Prod.fst := by
      funext q
      rw [hreference]
      split
      · next hq =>
        rw [hq, hmeaning]
        rfl
      · rfl
    have hsize : (b.listResolved s r v x).references.size = b.references.size :=
      Array.size_modify
    rw [hscopes, hsize]
    exact hb.filed
  · refine hb.credited.resolved hmeaning hcredit (fun u => ?_) hreference
    rw [Analysis.credit?, vars_listResolved]
    split
    · next hu =>
      rw [hfunction (hb.credited.scope_of_meaning hmeaning),
        hfunction (hb.credited.scope_of_credit hcredit), hu, hz]
      simp [hscope]
    · rfl

/-- What is written keeps the tables fit. -/
theorem Write.kempt (h : Write b b') (hb : b.Kempt) : b'.Kempt := by
  cases h with
  | same h => exact h.kempt hb
  | made name hbindings hname => exact kempt_listVariable hb hbindings hname
  | opened htable hreferences => exact kempt_pushScope hb htable hreferences
  | referred hscope hresolved => exact kempt_listReference hb hscope hresolved
  | resolved hx hresolved hz hscope => exact kempt_listResolved hb hx hresolved hz hscope

theorem Writes.kempt (h : Writes b b') (hb : b.Kempt) : b'.Kempt := by
  induction h with
  | refl => exact hb
  | tail _ hwrite ih => exact hwrite.kempt ih

end Builder

/-! ## Consistent analyses -/

/-- The tables of variables of a scope: that of the declared variables, and in the global scope that
of the variables which nothing declares. -/
def Scope.tables (y : Scope) : List Bindings :=
  y.bindings :: y.implicit.toList.map ImplicitGlobals.bindings

theorem Scope.mem_tables {y : Scope} {bindings : Bindings} :
    bindings ∈ y.tables ↔ ∃ k, y.table? k = some bindings := by
  constructor
  · intro h
    rcases List.mem_cons.mp h with rfl | h
    · exact ⟨.declared, rfl⟩
    · obtain ⟨i, hi, rfl⟩ := List.mem_map.mp h
      exact ⟨.implicit, by rw [table?, Option.mem_toList.mp hi, Option.map_some]⟩
  · rintro ⟨k, hk⟩
    cases k with
    | declared =>
      cases hk
      exact List.mem_cons_self
    | implicit =>
      obtain ⟨i, hi, rfl⟩ := Option.map_eq_some_iff.mp hk
      exact List.mem_cons_of_mem _ (List.mem_map.mpr ⟨i, Option.mem_toList.mpr hi, rfl⟩)

namespace Analysis

/-- All tables of variables, with the scopes that they belong to. -/
def tables (a : Analysis) : List (Nat × Bindings) :=
  a.scopes.toList.zipIdx.flatMap fun (y, s) => y.tables.map (s, ·)

/-- The tables of an analysis fit together. -/
structure Consistent (a : Analysis) : Prop where
  /-- Every variable is listed once in all tables of variables together, and nothing else is. -/
  vars_perm : (a.tables.flatMap fun t => t.2.vars.toList).Perm (List.range a.vars.size)
  /-- A variable is listed in a table of its own scope. -/
  scope_eq : ∀ t ∈ a.tables, ∀ v ∈ t.2.vars, (a.vars[v]?).map Variable.scope = some t.1
  /-- The names of the variables in a table are distinct. -/
  names_nodup : ∀ t ∈ a.tables, (t.2.vars.toList.map fun v => (a.vars[v]?).map Variable.name).Nodup
  /-- By name, a table finds the variables that it lists. -/
  find?_iff : ∀ t ∈ a.tables, ∀ name v, t.2.find? name = some v ↔
    v ∈ t.2.vars ∧ (a.vars[v]?).map Variable.name = some name
  /-- Every reference is listed once by all scopes together, and nothing else is. -/
  references_perm : (a.scopes.toList.flatMap fun y => y.references.toList).Perm
    (List.range a.references.size)
  /-- A scope lists references that are in it, and in increasing order. -/
  references_of_scope : ∀ {s : Nat} {y : Scope}, a.scopes[s]? = some y →
    (∀ r ∈ y.references, (a.references[r]?).map Reference.scope = some s) ∧
      y.references.toList.Pairwise (· < ·)
  /-- Of the references that an identifier is in a scope, the first one is found. -/
  referenceAt?_eq : ∀ s n : Nat, a.referenceAt? s n = (List.range a.references.size).find? fun r =>
    (a.references[r]?).any fun x => x.scope = s ∧ x.identifier.mark.id = n
  /-- References are resolved to variables that are there. -/
  resolved_lt : ∀ {r v : Nat} {x : Reference}, a.references[r]? = some x → x.resolved = some v →
    v < a.vars.size
  /-- A variable has the references that are resolved to it, each one once, and they have its
  name. -/
  references_of_variable : ∀ {v : Nat} {z : Variable}, a.vars[v]? = some z →
    (∀ r, r ∈ z.references ↔ (a.references[r]?).bind Reference.resolved = some v) ∧
      z.references.toList.Nodup ∧
      ∀ r ∈ z.references, (a.references[r]?).map Reference.name = some z.name
  /-- A variable lives on the stack if all its references are in the same function as itself. -/
  stack_iff : ∀ {v : Nat} {z : Variable}, a.vars[v]? = some z → (z.stack = true ↔
    ∀ r ∈ z.references, ∀ x, a.references[r]? = some x →
      a.variableScope? x.scope = a.variableScope? z.scope)

variable {a : Analysis}

private theorem mem_tables {t : Nat × Bindings} :
    t ∈ a.tables ↔ ∃ k, a.table? t.1 k = some t.2 := by
  have hscope (y : Scope) (s : Nat) :
      (y, s) ∈ a.scopes.toList.zipIdx ↔ a.scopes[s]? = some y := by
    rw [List.mem_zipIdx_iff_getElem?, Array.getElem?_toList]
  constructor
  · intro h
    obtain ⟨⟨y, s⟩, hy, h⟩ := List.mem_flatMap.mp h
    obtain ⟨bindings, hbindings, rfl⟩ := List.mem_map.mp h
    obtain ⟨k, hk⟩ := Scope.mem_tables.mp hbindings
    exact ⟨k, Option.bind_eq_some_iff.mpr ⟨y, (hscope y s).mp hy, hk⟩⟩
  · rintro ⟨k, hk⟩
    obtain ⟨y, hy, hk⟩ := Option.bind_eq_some_iff.mp hk
    exact List.mem_flatMap.mpr ⟨(y, t.1), (hscope y t.1).mpr hy,
      List.mem_map.mpr ⟨t.2, Scope.mem_tables.mpr ⟨k, hk⟩, rfl⟩⟩

private theorem title?_isSome (a : Analysis) (v : Nat) :
    (a.title? v).isSome = true ↔ v < a.vars.size := by
  rw [title?, Option.isSome_map]
  simp

theorem title?_eq_some_iff {v s : Nat} {name : String} : a.title? v = some (s, name) ↔
    (a.vars[v]?).map Variable.scope = some s ∧ (a.vars[v]?).map Variable.name = some name := by
  rw [title?]
  cases a.vars[v]? <;> simp

theorem meaning?_eq_some_iff {r t : Nat} {m : Option Nat} : a.meaning? r = some (t, m) ↔
    ∃ x, a.references[r]? = some x ∧ x.scope = t ∧ x.resolved = m := by
  rw [meaning?, Option.map_eq_some_iff]
  simp [Reference.contents]

private theorem scope_of_meaning? (a : Analysis) :
    (fun r => (a.meaning? r).map Prod.fst) = fun r => (a.references[r]?).map Reference.scope := by
  funext r
  rw [meaning?, Option.map_map]
  rfl

namespace Kempt

/-- Different tables have no variables in common. -/
theorem disjoint (h : a.Kempt) {s t : Nat} {k j : Origin} {bindings others : Bindings}
    (hs : a.table? s k = some bindings) (ht : a.table? t j = some others) (hne : s = t → k ≠ j) :
    bindings.vars.toList.Disjoint others.vars.toList := by
  intro v hv hv'
  have hv := Array.mem_toList_iff.mp hv
  have hv' := Array.mem_toList_iff.mp hv'
  obtain ⟨name, hname⟩ := h.shelved.titled hs v hv
  obtain ⟨name', hname'⟩ := h.shelved.titled ht v hv'
  rw [hname] at hname'
  cases hname'
  exact hne rfl (h.shelved.origin_eq hs ht hv hv')

theorem pairwise_tables (h : a.Kempt) :
    a.tables.Pairwise fun t u => t.2.vars.toList.Disjoint u.2.vars.toList := by
  have htable {p : Scope × Nat} (hp : p ∈ a.scopes.toList.zipIdx) (k : Origin) :
      a.table? p.2 k = p.1.table? k := by
    rw [List.mem_zipIdx_iff_getElem?, Array.getElem?_toList] at hp
    rw [table?, hp, Option.bind_some]
  refine List.pairwise_flatMap.mpr ⟨fun p hp => ?_, ?_⟩
  · obtain ⟨y, s⟩ := p
    refine List.pairwise_map.mpr (List.pairwise_cons.mpr ⟨fun others hothers => ?_, ?_⟩)
    · obtain ⟨i, hi, rfl⟩ := List.mem_map.mp hothers
      refine h.disjoint (htable hp .declared) ((htable hp .implicit).trans ?_) fun _ => by decide
      rw [Scope.table?, Option.mem_toList.mp hi, Option.map_some]
    · cases y.implicit <;> simp
  · have hdistinct : a.scopes.toList.zipIdx.Pairwise fun p q => p.2 ≠ q.2 := by
      rw [← List.pairwise_map, List.zipIdx_map_snd]
      exact List.nodup_range'
    refine hdistinct.imp_of_mem fun {p q} hp hq hne t ht u hu => ?_
    obtain ⟨bindings, hbindings, rfl⟩ := List.mem_map.mp ht
    obtain ⟨others, hothers, rfl⟩ := List.mem_map.mp hu
    obtain ⟨k, hk⟩ := Scope.mem_tables.mp hbindings
    obtain ⟨j, hj⟩ := Scope.mem_tables.mp hothers
    exact h.disjoint ((htable hp k).trans hk) ((htable hq j).trans hj) fun e => absurd e hne

theorem vars_perm (h : a.Kempt) :
    (a.tables.flatMap fun t => t.2.vars.toList).Perm (List.range a.vars.size) := by
  have hnodup : (a.tables.flatMap fun t => t.2.vars.toList).Nodup := by
    refine List.nodup_flatMap.mpr ⟨fun t ht => ?_, h.pairwise_tables⟩
    obtain ⟨k, hk⟩ := mem_tables.mp ht
    exact h.shelved.nodup hk
  refine (List.perm_ext_iff_of_nodup hnodup List.nodup_range).mpr fun v => ?_
  rw [List.mem_range, ← title?_isSome]
  constructor
  · intro hv
    obtain ⟨t, ht, hv⟩ := List.mem_flatMap.mp hv
    obtain ⟨k, hk⟩ := mem_tables.mp ht
    obtain ⟨name, hname⟩ := h.shelved.titled hk v (Array.mem_toList_iff.mp hv)
    rw [hname]
    rfl
  · intro hv
    obtain ⟨⟨s, name⟩, hv⟩ := Option.isSome_iff_exists.mp hv
    obtain ⟨k, bindings, hk, hmem⟩ := h.shelved.listed hv
    exact List.mem_flatMap.mpr
      ⟨(s, bindings), mem_tables.mpr ⟨k, hk⟩, Array.mem_toList_iff.mpr hmem⟩

/-- A scope lists the references in it. -/
theorem references_eq (h : a.Kempt) {s : Nat} {y : Scope} (hy : a.scopes[s]? = some y) :
    y.references.toList = (List.range a.references.size).filter fun r =>
      (a.references[r]?).map Reference.scope = some s := by
  have hfiled := h.filed
  rw [scope_of_meaning?] at hfiled
  exact hfiled.toList_eq (by rw [list?, hy, Option.map_some])

theorem mem_references (h : a.Kempt) {s r : Nat} {y : Scope} (hy : a.scopes[s]? = some y) :
    r ∈ y.references ↔ (a.references[r]?).map Reference.scope = some s := by
  rw [← Array.mem_toList_iff, h.references_eq hy, List.mem_filter, List.mem_range,
    decide_eq_true_iff]
  refine and_iff_right_of_imp fun hr => ?_
  obtain ⟨x, hx, -⟩ := Option.map_eq_some_iff.mp hr
  exact (Array.getElem?_eq_some_iff.mp hx).1

/-- The scope of a reference is there. -/
theorem exists_scope (h : a.Kempt) {r s : Nat}
    (hr : (a.references[r]?).map Reference.scope = some s) : ∃ y, a.scopes[s]? = some y := by
  have hfiled := h.filed
  rw [scope_of_meaning?] at hfiled
  have hsome := (hfiled.listed hr).2
  rw [list?, Option.isSome_map] at hsome
  exact Option.isSome_iff_exists.mp hsome

theorem references_perm (h : a.Kempt) :
    (a.scopes.toList.flatMap fun y => y.references.toList).Perm
      (List.range a.references.size) := by
  have hscope {s : Nat} (hs : s < a.scopes.toList.length) :
      a.scopes[s]? = some (a.scopes.toList[s]) := by
    rw [← Array.getElem?_toList, List.getElem?_eq_getElem hs]
  have hnodup : (a.scopes.toList.flatMap fun y => y.references.toList).Nodup := by
    refine List.nodup_flatMap.mpr ⟨fun y hy => ?_, ?_⟩
    · obtain ⟨s, hs, rfl⟩ := List.getElem_of_mem hy
      rw [h.references_eq (hscope hs)]
      exact List.nodup_range.filter _
    · refine List.pairwise_iff_getElem.mpr fun s t hs ht hlt r hr hr' => ?_
      have hr := (h.mem_references (hscope hs)).mp (Array.mem_toList_iff.mp hr)
      have hr' := (h.mem_references (hscope ht)).mp (Array.mem_toList_iff.mp hr')
      rw [hr] at hr'
      exact Nat.ne_of_lt hlt (Option.some.inj hr')
  refine (List.perm_ext_iff_of_nodup hnodup List.nodup_range).mpr fun r => ?_
  rw [List.mem_range]
  constructor
  · intro hr
    obtain ⟨y, hy, hr⟩ := List.mem_flatMap.mp hr
    obtain ⟨s, hs, rfl⟩ := List.getElem_of_mem hy
    rw [h.references_eq (hscope hs)] at hr
    exact List.mem_range.mp (List.mem_filter.mp hr).1
  · intro hr
    have hx : (a.references[r]?).map Reference.scope = some (a.references[r]).scope := by
      rw [Array.getElem?_eq_getElem hr, Option.map_some]
    obtain ⟨y, hy⟩ := h.exists_scope hx
    refine List.mem_flatMap.mpr ⟨y, ?_, Array.mem_toList_iff.mpr ((h.mem_references hy).mpr hx)⟩
    exact Array.mem_toList_iff.mpr (Array.mem_of_getElem? hy)

/-- Of the references that an identifier is in a scope, the first one is found. -/
theorem referenceAt?_eq (h : a.Kempt) (s n : Nat) :
    a.referenceAt? s n = (List.range a.references.size).find? fun r =>
      (a.references[r]?).any fun x => x.scope = s ∧ x.identifier.mark.id = n := by
  cases hy : a.scopes[s]? with
  | none =>
    have hnone : a.referenceAt? s n = none := by
      rw [referenceAt?, hy]
      rfl
    rw [hnone, eq_comm, List.find?_eq_none]
    intro r _ hr
    rw [Option.any_eq_true] at hr
    obtain ⟨x, hx, hboth⟩ := hr
    have hscope : (a.references[r]?).map Reference.scope = some s := by
      rw [hx, Option.map_some, (of_decide_eq_true hboth).1]
    obtain ⟨y, hy'⟩ := h.exists_scope hscope
    rw [hy] at hy'
    cases hy'
  | some y =>
    have hfind : a.referenceAt? s n = y.references.toList.find? fun r =>
        (a.references[r]?).any (·.identifier.mark.id = n) := by
      rw [referenceAt?, hy]
      exact Array.find?_toList.symm
    rw [hfind, h.references_eq hy, List.find?_filter]
    congr 1
    funext r
    cases a.references[r]? <;> simp

end Kempt

/-- Tables that are fit are consistent, if references are resolved to variables of their names. -/
theorem Kempt.consistent (h : a.Kempt)
    (hnames : ∀ {r v : Nat} {x : Reference}, a.references[r]? = some x → x.resolved = some v →
      (a.vars[v]?).map Variable.name = some x.name) : a.Consistent where
  vars_perm := h.vars_perm
  scope_eq t ht v hv := by
    obtain ⟨k, hk⟩ := mem_tables.mp ht
    obtain ⟨name, hname⟩ := h.shelved.titled hk v hv
    exact (title?_eq_some_iff.mp hname).1
  names_nodup t ht := by
    obtain ⟨k, hk⟩ := mem_tables.mp ht
    have hfind {v : Nat} (hv : v ∈ t.2.vars.toList) :
        ∃ name, (a.vars[v]?).map Variable.name = some name ∧ t.2.find? name = some v := by
      have hv := Array.mem_toList_iff.mp hv
      obtain ⟨name, hname⟩ := h.shelved.titled hk v hv
      exact ⟨name, (title?_eq_some_iff.mp hname).2, (h.shelved.find?_iff hk name v).mpr ⟨hv, hname⟩⟩
    refine List.Nodup.map_on (fun v hv u hu heq => ?_) (h.shelved.nodup hk)
    obtain ⟨name, hname, hv⟩ := hfind hv
    obtain ⟨name', hname', hu⟩ := hfind hu
    rw [hname, hname'] at heq
    cases heq
    exact Option.some.inj (hv.symm.trans hu)
  find?_iff t ht name v := by
    obtain ⟨k, hk⟩ := mem_tables.mp ht
    rw [h.shelved.find?_iff hk]
    refine and_congr_right fun hv => ?_
    obtain ⟨name', hname'⟩ := h.shelved.titled hk v hv
    rw [title?_eq_some_iff]
    exact and_iff_right (title?_eq_some_iff.mp hname').1
  references_perm := h.references_perm
  references_of_scope hy := by
    refine ⟨fun r hr => (h.mem_references hy).mp hr, ?_⟩
    rw [h.references_eq hy]
    exact List.pairwise_lt_range.filter _
  referenceAt?_eq := h.referenceAt?_eq
  resolved_lt hx hv := by
    have hsome := h.credited.credited (meaning?_eq_some_iff.mpr ⟨_, hx, rfl, hv⟩)
    rw [credit?, Option.isSome_map] at hsome
    simpa using hsome
  references_of_variable {v z} hz := by
    have hcredit : a.credit? v = some (z.scope, z.references, z.stack) := by
      rw [credit?, hz, Option.map_some]
    have hmem (r : Nat) :
        r ∈ z.references ↔ (a.references[r]?).bind Reference.resolved = some v := by
      rw [h.credited.mem_iff hcredit, Option.bind_eq_some_iff]
      simp only [meaning?_eq_some_iff]
      exact ⟨fun ⟨_, x, hx, _, hv⟩ => ⟨x, hx, hv⟩, fun ⟨x, hx, hv⟩ => ⟨_, x, hx, rfl, hv⟩⟩
    refine ⟨hmem, h.credited.nodup hcredit, fun r hr => ?_⟩
    obtain ⟨x, hx, hv⟩ := Option.bind_eq_some_iff.mp ((hmem r).mp hr)
    have hname := hnames hx hv
    rw [hz, Option.map_some] at hname
    rw [hx, Option.map_some, hname]
  stack_iff {v z} hz := by
    have hcredit : a.credit? v = some (z.scope, z.references, z.stack) := by
      rw [credit?, hz, Option.map_some]
    rw [h.credited.stack_iff hcredit]
    simp only [meaning?_eq_some_iff]
    refine forall₂_congr fun r _ => ?_
    constructor
    · exact fun hall x hx => hall x.scope x.resolved ⟨x, hx, rfl, rfl⟩
    · rintro hall _ _ ⟨x, hx, rfl, rfl⟩
      exact hall x hx

end Analysis

/-- If the nodes of a program are distinct, the tables of its analysis fit together. Every variable
is listed once, with its own scope, where it is found by its name and nothing else is; every
reference is listed once, with its own scope; and a variable has exactly the references that are
resolved to it. -/
theorem Program.analyze_consistent {o : Options} {p : Program} {a : Analysis}
    (hids : (Tree.ids p).Nodup) (h : Program.analyze o p = .ok a) : a.Consistent := by
  obtain ⟨b, hb, heffects⟩ := Program.exists_effects h
  have hwrites : Builder.Writes {} b :=
    heffects.writes (Program.orderly_actions o hids) fun r x hx => by simp at hx
  have hkempt : a.Kempt := hb ▸ hwrites.kempt Builder.kempt_empty
  obtain ⟨c, rfl, hc⟩ := Program.exists_finished h
  refine hkempt.consistent fun {r v x} hx hv => ?_
  obtain ⟨z, hz, hname, -⟩ :=
    (hc.journeys hids r x hx).exists_variable hc.wellFormed hc.stack hv
  rw [hz, Option.map_some, hname]

/-- In `for (let x of function f() { x });` the function refers to the `x` that is not initialized
yet, so this one does not live on the stack. -/
theorem Program.analyze_consistent_loop : (Tree.ids (Program.loopOverFunction id)).Nodup ∧
    ∃ a, Program.analyze .es6 (.loopOverFunction id) = .ok a ∧ a.Consistent ∧
      a.tables.map (fun t => (t.1, t.2.vars.toList)) =
        [(0, []), (0, []), (1, [0]), (2, [1]), (3, [2]), (4, [3])] ∧
      a.vars.toList.map (fun z => (z.name, z.references.toList, z.stack)) =
        [("x", [0], false), ("f", [], true), ("arguments", [], true), ("x", [1], true)] := by
  have hids : (Tree.ids (Program.loopOverFunction id)).Nodup := by decide
  have hvalue : (Program.analyze .es6 (.loopOverFunction id)).toOption.map (fun a =>
      (a.tables.map fun t => (t.1, t.2.vars.toList),
        a.vars.toList.map fun z => (z.name, z.references.toList, z.stack))) =
      some ([(0, []), (0, []), (1, [0]), (2, [1]), (3, [2]), (4, [3])],
        [("x", [0], false), ("f", [], true), ("arguments", [], true), ("x", [1], true)]) := by
    decide +kernel
  cases h : Program.analyze .es6 (.loopOverFunction id) with
  | error e =>
    rw [h] at hvalue
    cases hvalue
  | ok a =>
    rw [h] at hvalue
    obtain ⟨htables, hvars⟩ := Prod.mk.inj (Option.some.inj hvalue)
    exact ⟨hids, a, rfl, Program.analyze_consistent hids h, htables, hvars⟩

end EcmaScope
