import EcmaScope.Proofs.Clauses

/-!
# Declarations and the values that they give

A declaration may write values into the names that it declares: defaults, initial values, and the
items of a value that is looped over. Such a write comes right after the declaration of the name, or
after the whole declaration that the name is a part of; in a loop whose rounds have their own
variables, it comes after the names have been declared in the scope of the rounds. In between,
nothing is left open.

An identifier is either declared, and then always by `var` or never, or it is assigned to. If the
nodes of a program are distinct, no identifier is both.

This module says so of lists of actions, and deals with patterns and with declarations.

## Main definitions

* `Capacity`: what is done with an identifier other than reading it.
* `Action.Distinguishes`: every identifier occurs in one capacity.
* `Action.Declares`, `Action.Met`: an identifier has been declared, in a declaration that is still
  under way or at a place that is still in reach.
* `Action.Founds`: values are written after the declarations that they belong to.
* `Primes`, `Primed`: all of this, for actions of given nodes and for those of a tree.

## Main results

* `Primes.append`, `Primes.closed`: actions one after the other, and a declaration with its site.
* `Primes.pattern`: the targets of a pattern and what it evaluates.
* `Primes.parameters`, `Primes.declarators`: lists of parameters and of declarators.
-/

namespace EcmaScope

/-! ## Declaring and assigning -/

namespace DefinitionKind

/-- The name is declared by `var`. -/
def isVar : DefinitionKind → Bool
  | .declared _ _ kind => !kind.isLexical
  | _ => false

/-- The name is declared by `let` or `const`. -/
def isLexical : DefinitionKind → Bool
  | .declared _ _ kind => kind.isLexical
  | _ => false

/-- Which scope receives the definition. -/
def reach (kind : DefinitionKind) : Reach :=
  if kind.isVar then .variableScope else .innermost

/-- The definition may come with values for the name. -/
def takesValues : DefinitionKind → Bool
  | .parameter .. | .catchClause | .tdz .. | .declared .. => true
  | _ => false

theorem reach_declared (declaration : Anchor) (index : Nat) (kind : VariableKind) :
    (declared declaration index kind).reach =
      if kind.isLexical then .innermost else .variableScope := by
  cases kind <;> rfl

end DefinitionKind

/-- What is done with an identifier, other than reading it. -/
inductive Capacity where
  /-- It is declared; `isVar` says whether by `var`. -/
  | declared (isVar : Bool)
  /-- It is written, without being declared. -/
  | assigned
  deriving DecidableEq, Repr

namespace Action

/-- The identifier that an action declares or assigns to, with its capacity. -/
def capacity? : Action → Option (Nat × Capacity)
  | .declare d => some (d.name.mark.id, .declared d.kind.isVar)
  | .refer i use _ => if use.writes && !use.isInit then some (i.mark.id, .assigned) else none
  | _ => none

theorem capacity?_declare (d : Definition) :
    (Action.declare d).capacity? = some (d.name.mark.id, .declared d.kind.isVar) := rfl

/-- The action declares no name and writes none. -/
def isIdle : Action → Bool
  | .declare _ => false
  | .refer _ use _ => !use.writes
  | _ => true

private theorem capacity?_of_isIdle {a : Action} (ha : a.isIdle = true) : a.capacity? = none := by
  cases a with
  | declare d => cases ha
  | refer i use creator => cases use <;> first | rfl | cases ha
  | _ => rfl

/-- The identifiers that are declared or assigned to are among `M`, and each of them occurs in one
capacity. -/
structure Distinguishes (M : List Nat) (A : List Action) : Prop where
  mem : ∀ e ∈ A.filterMap capacity?, e.1 ∈ M
  eq : ∀ e ∈ A.filterMap capacity?, ∀ e' ∈ A.filterMap capacity?, e.1 = e'.1 → e = e'

namespace Distinguishes

variable {M N : List Nat} {A B : List Action}

theorem of_eq_nil (h : A.filterMap capacity? = []) : Distinguishes M A := by
  refine ⟨?_, ?_⟩ <;> simp [h]

/-- All identifiers occur in the same capacity. -/
theorem uniform (capacity : Capacity)
    (h : ∀ e ∈ A.filterMap capacity?, e.1 ∈ M ∧ e.2 = capacity) : Distinguishes M A where
  mem e he := (h e he).1
  eq e he e' he' heq := Prod.ext heq ((h e he).2.trans (h e' he').2.symm)

theorem mono (h : Distinguishes M A) (hMN : M ⊆ N) : Distinguishes N A :=
  ⟨fun e he => hMN (h.mem e he), h.eq⟩

/-- The order of actions does not matter, nor how often they are repeated. -/
theorem of_subset (h : Distinguishes M A) (hBA : B.filterMap capacity? ⊆ A.filterMap capacity?) :
    Distinguishes M B :=
  ⟨fun e he => h.mem e (hBA he), fun e he e' he' => h.eq e (hBA he) e' (hBA he')⟩

theorem append (hA : Distinguishes M A) (hB : Distinguishes N B) (hMN : M.Disjoint N) :
    Distinguishes (M ++ N) (A ++ B) := by
  have hmem : ∀ e ∈ (A ++ B).filterMap capacity?,
      e ∈ A.filterMap capacity? ∨ e ∈ B.filterMap capacity? := fun e he => by
    rwa [List.filterMap_append, List.mem_append] at he
  refine ⟨fun e he => ?_, fun e he e' he' heq => ?_⟩
  · exact List.mem_append.mpr ((hmem e he).imp (hA.mem e) (hB.mem e))
  · rcases hmem e he with h | h <;> rcases hmem e' he' with h' | h'
    · exact hA.eq e h e' h' heq
    · exact absurd (hB.mem e' h') (heq ▸ hMN (hA.mem e h))
    · exact absurd (hB.mem e h) (heq ▸ hMN (hA.mem e' h'))
    · exact hB.eq e h e' h' heq

end Distinguishes

/-! ## Declarations that values belong to -/

/-- Of a declaration that was begun with `reach`, the actions have declared `i`. -/
inductive Declares (reach : Reach) (i : Identifier) : List Action → Prop
  | intro {D D' : List Action} {M M' : List Mark} (d : Definition) (hname : d.name = i)
      (hreach : d.kind.reach = reach) (hvalues : d.kind.takesValues = true)
      (hD : Enclosed none true M D) (hD' : Enclosed none true M' D') :
      Declares reach i (D ++ .declare d :: D')

/-- The identifier has been declared, in a declaration that is still under way, or in one that has
just ended, or in the scope that is innermost. -/
inductive Met (i : Identifier) : List Action → Prop
  | inside (B : List Action) {reach : Reach} {D : List Action} (h : Declares reach i D) :
      Met i (B ++ ([.beginSite reach] ++ D))
  | after (B : List Action) {reach : Reach} {D U : List Action} (h : Declares reach i D)
      (hU : ∀ a ∈ U, a.isPlain = true) : Met i (B ++ (site reach D ++ U))
  | within (B : List Action) {kind : ScopeKind} {block : Anchor} {strict : Bool}
      {D E : List Action} {M : List Mark} (h : Declares .innermost i D)
      (hD : ∀ a ∈ D, a.isPlain = true ∨ ∃ d, a = .declare d) (hE : Enclosed none false M E)
      (hclose : .closeScopes block.id ∉ E) : Met i (B ++ (scope kind block strict D ++ E))

namespace Declares

variable {reach : Reach} {i : Identifier} {B D : List Action} {M : List Mark}

theorem append_left (hB : Enclosed none true M B) (h : Declares reach i D) :
    Declares reach i (B ++ D) := by
  obtain ⟨d, hname, hreach, hvalues, hD, hD'⟩ := h
  rw [← List.append_assoc]
  exact .intro d hname hreach hvalues (hB.append hD) hD'

theorem exists_enclosed (h : Declares reach i D) : ∃ M, Enclosed none true M D := by
  obtain ⟨d, -, -, -, hD, hD'⟩ := h
  have hd : Enclosed none true [] [Action.declare d] :=
    .of_declare fun a ha => .inr ⟨d, List.mem_singleton.mp ha⟩
  exact ⟨_, hD.append (hd.append hD')⟩

/-- Names are declared and nothing else is begun. -/
theorem of_mem {d : Definition} (hreach : d.kind.reach = reach)
    (hvalues : d.kind.takesValues = true) (hd : .declare d ∈ D)
    (hD : ∀ a ∈ D, a.isPlain = true ∨ ∃ d, a = .declare d) :
    Declares reach d.name D := by
  obtain ⟨E, E', rfl⟩ := List.append_of_mem hd
  exact .intro (M := []) d rfl hreach hvalues
    (.of_declare fun a ha => hD a (List.mem_append_left _ ha))
    (.of_declare (M := []) fun a ha =>
      hD a (List.mem_append_right _ (List.mem_cons_of_mem _ ha)))

theorem append_right (h : Declares reach i D) (hB : Enclosed none true M B) :
    Declares reach i (D ++ B) := by
  obtain ⟨d, hname, hreach, hvalues, hD, hD'⟩ := h
  rw [List.append_assoc, List.cons_append]
  exact .intro d hname hreach hvalues hD (hD'.append hB)

end Declares

private theorem Met.append_left {i : Identifier} (A : List Action) {B : List Action} (h : Met i B) :
    Met i (A ++ B) := by
  cases h with
  | inside B h =>
    rw [← List.append_assoc]
    exact .inside _ h
  | after B h hU =>
    rw [← List.append_assoc]
    exact .after _ h hU
  | within B h hD hE hclose =>
    rw [← List.append_assoc]
    exact .within _ h hD hE hclose

/-- Every initial value is written to an identifier that has been declared. If the actions are a
part of a declaration that was begun with the reach `site`, that declaration may have done so. -/
def Founds (site : Option Reach) (A : List Action) : Prop :=
  ∀ ⦃B : List Action⦄ ⦃i : Identifier⦄ ⦃use : Use⦄ ⦃creator : Option Anchor⦄ ⦃C : List Action⦄,
    A = B ++ .refer i use creator :: C → use.isInit = true →
      Met i B ∨ ∃ reach ∈ site, Declares reach i B

/-- An element of two lists one after the other is in the first or in the second one. -/
theorem append_eq_append_cons {α : Type} {A B P C : List α} {a : α}
    (h : A ++ B = P ++ a :: C) :
    (∃ D, A = P ++ a :: D) ∨ ∃ D, P = A ++ D ∧ B = D ++ a :: C := by
  rcases List.append_eq_append_iff.mp h with ⟨D, hP, hB⟩ | ⟨D, hA, hC⟩
  · exact .inr ⟨D, hP, hB⟩
  · cases D with
    | nil => exact .inr ⟨[], by simpa using hA.symm, by simpa using hC.symm⟩
    | cons b D =>
      cases hC
      exact .inl ⟨D, hA⟩

namespace Founds

variable {site : Option Reach} {reach : Reach} {A B : List Action}

/-- Where no initial values are written. -/
theorem of_not_isInit (h : ∀ i use creator, .refer i use creator ∈ A → use.isInit = false) :
    Founds site A := by
  intro B i use creator C hA hinit
  rw [h i use creator (hA ▸ List.mem_append_right B List.mem_cons_self)] at hinit
  cases hinit

/-- Where no name is written. -/
theorem idle (h : ∀ a ∈ A, a.isIdle = true) : Founds site A :=
  of_not_isInit fun _ use _ hmem => by
    have := h _ hmem
    cases use <;> first | rfl | cases this

theorem single {a : Action} (ha : a.isIdle = true) : Founds site [a] :=
  idle fun _ hmem => List.mem_singleton.mp hmem ▸ ha

theorem embed (h : Founds none A) : Founds site A := by
  intro B i use creator C hA hinit
  rcases h hA hinit with hmet | ⟨reach, hreach, -⟩
  · exact .inl hmet
  · cases hreach

theorem append (hA : Founds site A) (hB : Founds site B)
    (hsite : ∀ reach ∈ site, ∃ M, Enclosed none true M A) : Founds site (A ++ B) := by
  intro P i use creator C hsplit hinit
  rcases append_eq_append_cons hsplit with ⟨D, rfl⟩ | ⟨D, rfl, rfl⟩
  · exact hA rfl hinit
  · rcases hB rfl hinit with hmet | ⟨reach, hreach, hdeclares⟩
    · exact .inl (hmet.append_left A)
    · obtain ⟨M, hM⟩ := hsite reach hreach
      exact .inr ⟨reach, hreach, hdeclares.append_left hM⟩

/-- Where no site is open. -/
theorem append_none (hA : Founds none A) (hB : Founds none B) : Founds none (A ++ B) :=
  hA.append hB fun _ hreach => by cases hreach

/-- A declaration with its site. -/
theorem closed (h : Founds (some reach) A) : Founds none (Action.site reach A) := by
  intro P i use creator C hsplit hinit
  rcases append_eq_append_cons hsplit with ⟨D, hD⟩ | ⟨D, -, hD⟩
  · rcases append_eq_append_cons hD with ⟨E, hE⟩ | ⟨E, rfl, rfl⟩
    · cases P <;> simp at hE
    · rcases h rfl hinit with hmet | ⟨_, ⟨⟩, hdeclares⟩
      · exact .inl (hmet.append_left _)
      · exact .inl (.inside [] hdeclares)
  · cases D <;> simp at hD

end Founds

/-- The action gives `i` an initial value. -/
def Gives (i : Identifier) (a : Action) : Prop :=
  ∃ use creator, a = .refer i use creator ∧ use.isInit = true

theorem Gives.isPlain {i : Identifier} {a : Action} (h : Gives i a) : a.isPlain = true := by
  obtain ⟨use, creator, rfl, -⟩ := h
  rfl

theorem Gives.capacity? {i : Identifier} {a : Action} (h : Gives i a) : a.capacity? = none := by
  obtain ⟨use, creator, rfl, hinit⟩ := h
  simp [Action.capacity?, hinit]

end Action

open EcmaScope.Action

/-! ## Actions of nodes -/

/-- If the nodes `M` are distinct, they are the identifiers that the actions declare or assign to,
and initial values are written after the declarations that they belong to. The actions are code or,
with a `site`, a part of a declaration. -/
structure Primes (site : Option Reach) (M : List Mark) (A : List Action) : Prop where
  distinguishes : (M.map (·.id)).Nodup → Distinguishes (M.map (·.id)) A
  founds : (M.map (·.id)).Nodup → Founds site A
  enclosed : ∀ reach ∈ site, ∃ N, Enclosed none true N A

namespace Primes

variable {site : Option Reach} {reach : Reach} {M N : List Mark} {A B : List Action}

theorem mono (h : Primes site M A)
    (hMN : ∀ n, (M.map (·.id)).count n ≤ (N.map (·.id)).count n) : Primes site N A := by
  have hnodup (hN : (N.map (·.id)).Nodup) : (M.map (·.id)).Nodup :=
    List.nodup_iff_count_le_one.mpr fun n =>
      Nat.le_trans (hMN n) (List.nodup_iff_count_le_one.mp hN n)
  have hsubset : M.map (·.id) ⊆ N.map (·.id) := fun n hn =>
    List.count_pos_iff.mp (Nat.lt_of_lt_of_le (List.count_pos_iff.mpr hn) (hMN n))
  exact ⟨fun hN => (h.distinguishes (hnodup hN)).mono hsubset, fun hN => h.founds (hnodup hN),
    h.enclosed⟩

theorem sublist (h : Primes site M A) (hMN : M.Sublist N) : Primes site N A :=
  h.mono fun n => (hMN.map _).count_le n

theorem cons {m : Mark} (h : Primes site M A) : Primes site (m :: M) A :=
  h.sublist (List.sublist_cons_self m M)

theorem left (h : Primes site M A) : Primes site (M ++ N) A :=
  h.sublist (List.sublist_append_left M N)

theorem right (h : Primes site N A) : Primes site (M ++ N) A :=
  h.sublist (List.sublist_append_right M N)

theorem append (hA : Primes site M A) (hB : Primes site N B) : Primes site (M ++ N) (A ++ B) where
  distinguishes hnodup := by
    rw [List.map_append] at hnodup ⊢
    obtain ⟨hM, hN, hMN⟩ := List.nodup_append'.mp hnodup
    exact (hA.distinguishes hM).append (hB.distinguishes hN) hMN
  founds hnodup := by
    rw [List.map_append] at hnodup
    obtain ⟨hM, hN, -⟩ := List.nodup_append'.mp hnodup
    exact (hA.founds hM).append (hB.founds hN) hA.enclosed
  enclosed reach hreach := by
    obtain ⟨M', hM'⟩ := hA.enclosed reach hreach
    obtain ⟨N', hN'⟩ := hB.enclosed reach hreach
    exact ⟨M' ++ N', hM'.append hN'⟩

/-- Actions of which none declares or writes a name. -/
theorem idle (h : ∀ a ∈ A, a.isIdle = true) : Primes none M A where
  distinguishes _ :=
    .of_eq_nil (List.filterMap_eq_nil_iff.mpr fun a ha => capacity?_of_isIdle (h a ha))
  founds _ := .idle h
  enclosed := nofun

theorem nil : Primes none M [] :=
  idle fun _ hmem => absurd hmem List.not_mem_nil

theorem single {a : Action} (ha : a.isIdle = true) : Primes none M [a] :=
  idle fun _ hmem => List.mem_singleton.mp hmem ▸ ha

theorem after (hA : ∀ a ∈ A, a.isIdle = true) (hB : Primes none M B) : Primes none M (A ++ B) :=
  (idle (M := []) hA).append hB

theorem before (hA : Primes none M A) (hB : ∀ a ∈ B, a.isIdle = true) : Primes none M (A ++ B) :=
  (hA.append (idle (M := []) hB)).mono fun n => by simp

/-- A part that is looked at only under a condition. -/
theorem ite {p : Prop} [Decidable p] (h : Primes none M A) :
    Primes none M (if p then A else []) := by
  split
  · exact h
  · exact nil

/-- Code within a declaration. -/
theorem embed (h : Primes none M A) (hA : Enclosed none true N A) : Primes site M A :=
  ⟨h.distinguishes, fun hM => (h.founds hM).embed, fun _ _ => ⟨N, hA⟩⟩

theorem filterMap_site : (Action.site reach A).filterMap capacity? = A.filterMap capacity? := by
  rw [List.filterMap_append, List.filterMap_append]
  exact List.append_nil _

/-- A declaration with its site. -/
theorem closed (h : Primes (some reach) M A) : Primes none M (Action.site reach A) where
  distinguishes hM := (h.distinguishes hM).of_subset fun e he => by
    rwa [filterMap_site] at he
  founds hM := (h.founds hM).closed
  enclosed := nofun

/-! ### Targets -/

/-- An identifier is declared and receives its values. -/
theorem declared {d : Definition} {i : Identifier} (hname : d.name = i)
    (hreach : d.kind.reach = reach) (hvalues : d.kind.takesValues = true)
    (hA : ∀ a ∈ A, Gives i a) :
    Primes (some reach) [i.mark] (.declare d :: A) where
  distinguishes _ := by
    have hA' : A.filterMap capacity? = [] :=
      List.filterMap_eq_nil_iff.mpr fun a ha => (hA a ha).capacity?
    refine .uniform (.declared d.kind.isVar) fun e he => ?_
    rw [List.filterMap_cons_some (capacity?_declare d), hA', List.mem_singleton] at he
    subst he
    simp [hname]
  founds _ := by
    intro B j use creator C hsplit hinit
    cases B with
    | nil => cases hsplit
    | cons b B =>
      obtain ⟨rfl, rfl⟩ := List.cons.inj hsplit
      obtain ⟨_, _, heq, -⟩ := hA _ (List.mem_append_right B List.mem_cons_self)
      cases heq
      have hplain : ∀ a ∈ B, a.isPlain = true := fun a ha =>
        (hA a (List.mem_append_left _ ha)).isPlain
      exact .inr ⟨reach, rfl, .intro (M := []) (D := []) d hname hreach hvalues .nil
        (.of_plain (M := []) hplain)⟩
  enclosed _ _ := ⟨[], .of_declare fun a ha => by
    rcases List.mem_cons.mp ha with rfl | ha
    · exact .inr ⟨d, rfl⟩
    · exact .inl (hA a ha).isPlain⟩

/-- An identifier is assigned to. -/
theorem assigned {i : Identifier} (hA : ∀ a ∈ A, ∃ use creator,
    a = .refer i use creator ∧ use.writes = true ∧ use.isInit = false) :
    Primes none [i.mark] A where
  distinguishes _ := .uniform .assigned fun e he => by
    obtain ⟨a, ha, hcapacity⟩ := List.mem_filterMap.mp he
    obtain ⟨use, creator, rfl, hwrites, hinit⟩ := hA a ha
    simp only [capacity?, hwrites, hinit, Bool.not_false, Bool.and_self, if_true] at hcapacity
    cases hcapacity
    simp
  founds _ := .of_not_isInit fun j use creator hmem => by
    obtain ⟨_, _, heq, -, hinit⟩ := hA _ hmem
    cases heq
    exact hinit
  enclosed := nofun

/-- What is done with the targets of a pattern, one after the other. -/
theorem targets {f : Target → List Action}
    (h : ∀ t, Primes site [t.identifier.mark] (f t)) : (ts : List Target) →
    Primes site (ts.map (·.identifier.mark)) (ts.flatMap f)
  | [] => nil.embed (N := []) .nil
  | t :: ts => (h t).append (targets h ts)

end Primes

namespace Action

private theorem gives_writeDefaults {t : Target} {creator : Option Anchor} {a : Action}
    (ha : a ∈ writeDefaults t true creator) : Gives t.identifier a := by
  obtain ⟨d, -, rfl⟩ := List.mem_map.mp ha
  exact ⟨_, _, rfl, rfl⟩

/-- After a target of a declarator has been declared, it receives values. -/
theorem gives_of_mem {t : Target} {reserved : Bool} {init : Tree (.optional .expression)}
    {a : Action}
    (ha : a ∈ (if reserved then [] else writeDefaults t true none) ++
      match init with
      | .present value =>
        [.refer t.identifier (.write (Expr.anchor value) (!t.isWhole) true) none]
      | .absent => []) : Gives t.identifier a := by
  rcases List.mem_append.mp ha with ha | ha
  · split at ha
    · cases ha
    · exact gives_writeDefaults ha
  · cases init with
    | absent => cases ha
    | present value => exact ⟨_, _, List.mem_singleton.mp ha, rfl⟩

/-- The targets of a declarator are declared. -/
theorem declares_bindDeclarator (kind : DefinitionKind) (hkind : kind.takesValues = true)
    (reserved : Bool) (m : Mark) {target : Pat} (init : Tree (.optional .expression)) {t : Target}
    (ht : t ∈ Pat.targets target) :
    Declares kind.reach t.identifier (bindDeclarator kind reserved (.declarator m target init)) :=
  .of_mem (d := ⟨kind, t.identifier, ⟨.declarator, m⟩⟩) rfl hkind
    (List.mem_flatMap.mpr ⟨t, ht, List.mem_cons_self⟩)
    fun _ => isPlain_or_declare_of_mem_bindDeclarator

/-- The identifiers that a declarator declares. -/
theorem filterMap_bindDeclarator (kind : DefinitionKind) (reserved : Bool) (m : Mark) (target : Pat)
    (init : Tree (.optional .expression)) :
    (bindDeclarator kind reserved (.declarator m target init)).filterMap capacity? =
      (Pat.targets target).map fun t =>
        (t.identifier.mark.id, .declared kind.isVar) := by
  refine (List.filterMap_flatMap ..).trans ?_
  rw [List.map_eq_flatMap]
  refine List.flatMap_congr fun t _ => ?_
  refine (List.filterMap_cons_some (capacity?_declare _)).trans (congrArg _ ?_)
  exact List.filterMap_eq_nil_iff.mpr fun a ha => (gives_of_mem ha).capacity?

/-- The items of the value that is looped over are given to the targets of the first declarator. -/
theorem gives_bindItems {value : Anchor} {m : Mark} {target : Pat}
    {init : Tree (.optional .expression)} {rest : Tree (.list .declarator)} {a : Action}
    (ha : a ∈ bindItems value (.cons (.declarator m target init) rest)) :
    ∃ t ∈ Pat.targets target, Gives t.identifier a := by
  obtain ⟨t, ht, rfl⟩ := List.mem_map.mp ha
  exact ⟨t, ht, _, _, rfl, rfl⟩

end Action

/-! ## Patterns and declarations -/

/-- The actions of a tree that is walked as code. -/
def Primed (o : Options) {c : Category} (t : Tree c) : Prop :=
  ∀ method, Primes none t.marks (t.actions o (.code method))

theorem Tree.actions_enclosed {c : Category} (o : Options) (method : Bool) (t : Tree c) :
    Enclosed none true t.marks (t.actions o (.code method)) :=
  (t.actions_nested o (.code method)).sit

namespace Primes

variable {o : Options} {site : Option Reach} {reach : Reach} {M N : List Mark} {A B : List Action}

/-- What expressions do one after the other. -/
theorem evaluated : {l : List Expr} → (∀ e ∈ l, Primed o e) → (method : Bool) →
    Primes site (l.flatMap Tree.marks) (l.flatMap (Tree.actions o (.code method)))
  | [], _, _ => nil.embed (N := []) .nil
  | e :: _, h, method =>
    ((h e List.mem_cons_self method).embed (e.actions_enclosed o method)).append
      (evaluated (fun e' he' => h e' (List.mem_cons_of_mem e he')) method)

/-- The targets of a pattern are dealt with, and then what it evaluates. -/
theorem pattern {p : Pat} (hA : Primes site ((Pat.targets p).map (·.identifier.mark)) A)
    (he : ∀ e ∈ p.evaluated, Primed o e) (method : Bool) :
    Primes site p.marks (A ++ p.actions o (.code method)) := by
  rw [p.actions_eq_evaluated rfl]
  refine (hA.append (evaluated he method)).mono fun n => ?_
  rw [List.map_append, List.count_append, List.map_map]
  exact p.count_targets_le _ _ _ n

theorem ofTargets {p : Pat} (hA : Primes site ((Pat.targets p).map (·.identifier.mark)) A) :
    Primes site p.marks A := by
  refine hA.mono fun n => ?_
  rw [List.map_map]
  exact Nat.le_trans (Nat.le_add_right _ _) (p.count_targets_le _ _ _ n)

theorem bindTargets (kind : Target → DefinitionKind)
    (hkind : ∀ t, (kind t).reach = reach ∧ (kind t).takesValues = true) (node : Anchor) (p : Pat) :
    Primes (some reach) ((Pat.targets p).map (·.identifier.mark)) (bindTargets kind node p) :=
  targets (fun t => declared rfl (hkind t).1 (hkind t).2 fun _ => gives_writeDefaults) _

theorem bindDeclarator (kind : DefinitionKind) (hkind : kind.takesValues = true) (reserved : Bool)
    (m : Mark) (target : Pat) (init : Tree (.optional .expression)) :
    Primes (some kind.reach) ((Pat.targets target).map (·.identifier.mark))
      (bindDeclarator kind reserved (.declarator m target init)) :=
  targets (fun t => declared (d := ⟨kind, t.identifier, ⟨.declarator, m⟩⟩) rfl rfl hkind
    fun _ => gives_of_mem) _

theorem assignTargets (creator value : Anchor) (isPartial : Target → Bool) (p : Pat) :
    Primes none ((Pat.targets p).map (·.identifier.mark))
      (assignTargets creator value isPartial p) := by
  refine after (A := [.needScope]) (by simp [isIdle]) (targets (fun t => assigned fun a ha => ?_) _)
  rcases List.mem_append.mp ha with ha | ha
  · obtain ⟨d, -, rfl⟩ := List.mem_map.mp ha
    exact ⟨_, _, rfl, rfl, rfl⟩
  · exact ⟨_, _, List.mem_singleton.mp ha, rfl, rfl⟩

/-- A list of parameters. -/
theorem parameters (owner : Anchor) : (params : Tree (.list .pattern)) → (index : Nat) →
    (∀ e ∈ params.evaluated, Primed o e) →
    Primes (some .innermost) params.marks (params.actions o (.parameters owner index))
  | .nil, _, _ => nil.embed (N := []) .nil
  | .cons p rest, index, he => by
    have hbind := bindTargets (fun t => .parameter index t.isRest) (fun _ => ⟨rfl, rfl⟩) owner p
    exact (hbind.pattern (fun e h => he e (List.mem_append_left _ h)) false).append
      (parameters owner rest (index + 1) fun e h => he e (List.mem_append_right _ h))

/-- A declarator that is declared as it is met. -/
theorem declarator {m : Mark} {target : Pat} {init : Tree (.optional .expression)}
    (he : ∀ e ∈ (Tree.declarator m target init).computed, Primed o e) (declaration : Anchor)
    (kind : VariableKind) (index : Nat) :
    Primes (some (if kind.isLexical then .innermost else .variableScope))
      (Tree.declarator m target init).marks
      (Action.bindDeclarator (.declared declaration index kind) false (.declarator m target init) ++
        (Tree.declarator m target init).actions o (.code false)) := by
  have hbind := bindDeclarator (.declared declaration index kind) rfl false m target init
  rw [DefinitionKind.reach_declared] at hbind
  have htarget := hbind.pattern (o := o) (fun e h => he e (mem_computed_target h)) false
  have hinit : Primes (some (if kind.isLexical then .innermost else .variableScope)) init.marks
      (init.actions o (.code false)) := by
    refine embed ?_ (init.actions_enclosed o false)
    cases init with
    | absent => exact nil
    | present value => exact he value (List.mem_append_right _ List.mem_cons_self) false
  have hall := (htarget.append hinit).cons (m := m)
  rwa [List.append_assoc] at hall

/-- A list of declarators that are declared as they are met. -/
theorem declarators (declaration : Anchor) (kind : VariableKind) :
    (ds : Tree (.list .declarator)) → (index : Nat) → (∀ e ∈ ds.computed, Primed o e) →
    Primes (some (if kind.isLexical then .innermost else .variableScope)) ds.marks
      (ds.actions o (.declarators declaration kind index))
  | .nil, _, _ => nil.embed (N := []) .nil
  | .cons (.declarator _ _ _) rest, index, he =>
    (declarator (fun e h => he e (List.mem_append_left _ h)) declaration kind index).append
      (declarators declaration kind rest (index + 1) fun e h => he e (List.mem_append_right _ h))

/-! ## Names without values -/

/-- A name is declared and receives no value. -/
theorem declare (d : Definition) : Primes none [d.name.mark] [.declare d] where
  distinguishes _ := .uniform (.declared d.kind.isVar) fun e he => by
    rw [List.filterMap_cons_some (capacity?_declare d), List.filterMap_nil,
      List.mem_singleton] at he
    subst he
    simp
  founds _ := .of_not_isInit fun i use creator hmem => by cases List.mem_singleton.mp hmem
  enclosed := nofun

theorem declares : (ds : List Definition) →
    Primes none (ds.map (·.name.mark)) (ds.map .declare)
  | [] => nil
  | d :: ds => (declare d).append (declares ds)

theorem declareHere (ds : List Definition) :
    Primes none (ds.map (·.name.mark)) (declareHere ds) :=
  ((declares ds).after (A := [.beginSite .innermost]) (by simp [isIdle])).before (by simp [isIdle])

theorem className (block : Anchor) (name : Option Identifier) :
    Primes none (name.map (·.mark)).toList (Tree.className block name) := by
  cases name with
  | none => exact nil
  | some i => exact declareHere [⟨.className, i, block⟩]

theorem functionName (form : FunctionForm) (block : Anchor) (name : Option Identifier) :
    Primes none (name.map (·.mark)).toList (Tree.functionName form block name) := by
  cases name with
  | none => cases form <;> exact nil
  | some i =>
    cases form with
    | declaration => exact declareHere [⟨.functionName, i, block⟩]
    | expression =>
      exact (declareHere [⟨.functionName, i, block⟩]).after
        (A := [.openScope .functionName block false]) (by simp [isIdle])
    | arrow => exact nil

theorem sublist_importDefinitions (declaration : Anchor) :
    (specifiers : Tree (.list .importSpecifier)) →
    ((Tree.importDefinitions declaration specifiers).map (·.name.mark)).Sublist specifiers.marks
  | .nil => .slnil
  | .cons s rest => by
    have hs : [(ImportSpecifier.binding s).mark].Sublist s.marks := by
      cases s with
      | importDefaultSpecifier m binding | importNamespaceSpecifier m binding =>
        exact List.sublist_cons_self m _
      | importNamedSpecifier m imported binding =>
        exact (List.sublist_append_right imported.marks [binding.mark]).trans
          (List.sublist_cons_self m _)
    exact hs.append (sublist_importDefinitions declaration rest)

end Primes

end EcmaScope
