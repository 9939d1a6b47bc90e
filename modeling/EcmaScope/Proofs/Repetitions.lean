import EcmaScope.Proofs.ImplicitGlobals
import EcmaScope.Proofs.Regions
import EcmaScope.Proofs.Spans

/-!
# Definitions that are repeated

A target of a pattern is written once for every value that it may receive: for the value that is
assigned, and for every default in front of it. If nothing declares its name, each of these writes
adds a definition to the variable that is created, and all of them are the same one. So an
identifier is listed as often as its target may receive a value, and the variable lists all of its
identifiers once only if no target has a default.

This holds since what is written into one target is written at one go, so that all of the references
are made in the same scope and share their fate.

## Main definitions

* `Program.AssignsTo`: a definition is where a target is assigned to.
* `Action.writesTo`: what is done to write into a target.
* `Builder.Labelled`: variables list the names of their definitions.

## Main results

* `Program.AssignsTo.countP_references`: how often a target is referred to.
* `Program.AssignsTo.alike`: the references to a target are made in the same way.
* `Builder.Last.filter_creations`: how often a definition is created.
* `Program.definitions_repeat`: how often a definition is repeated.
-/

namespace EcmaScope

open EcmaScope.Action

variable {o : Options} {p : Program} {a : Analysis} {d : Definition} {t : Target}

/-! ## Targets and the values that they receive -/

namespace Tree

/-- A target receives one value more than the pattern for every default in front of it. -/
theorem mem_pieces_of_mem_targets {c : Category} (o : Options) (tree : Tree c) (values : Nat)
    {root : Nat} {defaults : List Default} {rest? : Option Pat}
    (ht : t ∈ tree.targets root defaults rest?) :
    ∃ n, t.defaults.length = defaults.length + n ∧
      ⟨.pattern, .target (values + n), .identifierPattern t.identifier⟩ ∈
        tree.pieces o (.target values) := by
  induction tree generalizing defaults rest? values with
  | identifierPattern i =>
    cases List.mem_singleton.mp ht
    exact ⟨0, rfl, List.mem_cons_self⟩
  | arrayPattern _ part ih | objectPattern _ part ih | restPattern part ih | restMember part ih
  | rest _ part ih | present part ih =>
    obtain ⟨n, hn, hmem⟩ := ih values ht
    exact ⟨n, hn, List.mem_cons_of_mem _ hmem⟩
  | patternProperty _ _ _ _ _ _ ih =>
    obtain ⟨n, hn, hmem⟩ := ih values ht
    exact ⟨n, hn, List.mem_cons_of_mem _ (List.mem_append_right _ hmem)⟩
  | assignmentPattern m left right ih _ =>
    obtain ⟨n, hn, hmem⟩ := ih (values + 1) ht
    rw [List.length_append, List.length_singleton] at hn
    rw [Nat.add_assoc, Nat.add_comm 1 n] at hmem
    exact ⟨n + 1, by omega, List.mem_cons_of_mem _ (List.mem_append_left _ hmem)⟩
  | cons head tail ihhead ihtail =>
    rcases List.mem_append.mp ht with ht | ht
    · obtain ⟨n, hn, hmem⟩ := ihhead values ht
      exact ⟨n, hn, List.mem_cons_of_mem _ (List.mem_append_left _ hmem)⟩
    · obtain ⟨n, hn, hmem⟩ := ihtail values ht
      exact ⟨n, hn, List.mem_cons_of_mem _ (List.mem_append_right _ hmem)⟩
  | _ => cases ht

variable {c : Category} {tree : Tree c} {creator : Anchor} {left : Pat}

/-- The pattern that a construct assigns to receives one value. -/
theorem pieces_subset_of_assigned? (h : tree.assigned? = some (creator, left)) :
    left.pieces o (.target 1) ⊆ tree.pieces o .code := by
  unfold assigned? at h
  split at h
  · cases h
    exact fun u hu => List.mem_cons_of_mem _ (List.mem_append_left _ hu)
  · cases h
    exact fun u hu => List.mem_cons_of_mem _
      (List.mem_append_left _ (List.mem_append_left _ (List.mem_cons_of_mem _ hu)))
  · cases h

/-- A construct that assigns to a pattern writes into its targets one after the other. -/
theorem exists_assignTargets (h : tree.assigned? = some (creator, left))
    (ht : t ∈ Pat.targets left) (place : Place) :
    ∃ value isPartial, assignTargets creator value isPartial left <:+: tree.actions o place := by
  unfold assigned? at h
  split at h
  · next right =>
    cases h
    refine ⟨Expr.anchor right, fun t => !t.isWhole, ?_⟩
    cases left with
    | memberPattern => cases ht
    | _ =>
      exact (List.prefix_append _ _).isInfix.trans (List.prefix_append _ _).isInfix
  · next right _ _ =>
    cases h
    refine ⟨Expr.anchor right, fun _ => true, ?_⟩
    cases left with
    | memberPattern => cases ht
    | _ =>
      exact (List.prefix_append _ _).isInfix.trans ((List.prefix_append _ _).isInfix.trans
        (List.prefix_append _ _).isInfix)
  · cases h

end Tree

/-- The definition `d` is at an assignment or at a loop over a value, and the name that it defines
is the target `t` of the pattern that is assigned to. -/
def Program.AssignsTo (o : Options) (p : Program) (d : Definition) (t : Target) : Prop :=
  ∃ u ∈ Program.pieces o p, u.role ≠ .skipped ∧ ∃ left, u.tree.assigned? = some (d.node, left) ∧
    t ∈ Pat.targets left ∧ t.identifier = d.name

private theorem Program.assigns_iff : Program.Assigns o p d ↔ ∃ t, Program.AssignsTo o p d t := by
  constructor
  · rintro ⟨u, hu, hrole, left, hleft, t, ht⟩
    exact ⟨t, u, hu, hrole, left, hleft, ht⟩
  · rintro ⟨t, u, hu, hrole, left, hleft, ht⟩
    exact ⟨u, hu, hrole, left, hleft, t, ht⟩

/-- The actions that write into a target for the construct `creator`: all defaults first, and then
the value. -/
def Action.writesTo (creator value : Anchor) (isPartial : Bool) (t : Target) : List Action :=
  writeDefaults t false (some creator) ++
    [.refer t.identifier (.write value isPartial false) (some creator)]

private theorem Action.length_writesTo (creator value : Anchor) (isPartial : Bool) (t : Target) :
    (writesTo creator value isPartial t).length = t.defaults.length + 1 := by
  simp [writesTo, writeDefaults]

private theorem Action.exists_of_mem_writesTo {creator value : Anchor} {isPartial : Bool}
    {b : Action} (h : b ∈ writesTo creator value isPartial t) :
    ∃ use, b = .refer t.identifier use (some creator) := by
  rcases List.mem_append.mp h with h | h
  · obtain ⟨e, -, rfl⟩ := List.mem_map.mp h
    exact ⟨_, rfl⟩
  · exact ⟨_, List.mem_singleton.mp h⟩

/-- A construct that assigns to a pattern is walked as it is. -/
theorem Piece.isWhole_of_assigned? {u : Piece} {creator : Anchor} {left : Pat}
    (h : u.tree.assigned? = some (creator, left)) : u.isWhole = true := by
  obtain ⟨c, role, tree⟩ := u
  change tree.assigned? = _ at h
  unfold Tree.assigned? at h
  split at h
  · rfl
  · rfl
  · cases h

namespace Program.AssignsTo

/-- A target is an identifier of the program, and its defaults say how many values it receives. -/
private theorem mem_occurrences (h : Program.AssignsTo o p d t) :
    (d.name, .target (t.defaults.length + 1)) ∈ Program.occurrences o p := by
  obtain ⟨u, hu, hrole, left, hleft, ht, hname⟩ := h
  have hspanned := Program.spans o p u hu hrole (Piece.isWhole_of_assigned? hleft)
  obtain ⟨n, hn, hpiece⟩ := left.mem_pieces_of_mem_targets o 1 ht
  have htree : u.tree.pieces o .code <:+: Program.pieces o p :=
    hspanned.role ▸ Tree.gathered o p .code u hu
  rw [List.length_nil, Nat.zero_add] at hn
  rw [← hn, Nat.add_comm, hname] at hpiece
  refine List.mem_flatMap.mpr ⟨_, htree.subset (Tree.pieces_subset_of_assigned? hleft hpiece), ?_⟩
  exact List.mem_singleton_self _

/-- All that is written into a target is written without anything else in between. -/
private theorem exists_writesTo (h : Program.AssignsTo o p d t) :
    ∃ value isPartial, writesTo d.node value isPartial t <:+: Program.actions o p := by
  obtain ⟨u, hu, hrole, left, hleft, ht, -⟩ := h
  obtain ⟨m, hactions, -⟩ :=
    (Program.spans o p u hu hrole (Piece.isWhole_of_assigned? hleft)).actions
  obtain ⟨value, isPartial, htargets⟩ :=
    Tree.exists_assignTargets (o := o) hleft ht (.code m)
  obtain ⟨T, T', hsplit⟩ := List.append_of_mem ht
  have hone : writesTo d.node value (isPartial t) t <:+:
      assignTargets d.node value isPartial left := by
    rw [assignTargets, hsplit, List.flatMap_append, List.flatMap_cons]
    exact List.infix_cons (List.infix_append' _ _ _)
  exact ⟨value, isPartial t, hone.trans (htargets.trans hactions)⟩

end Program.AssignsTo

/-! ## The references to a target -/

namespace Builder

variable {b b' : Builder} {A : List Action} {i : Identifier} {creator : Option Anchor}

/-- Uses of one name, one after the other, are made in the same scope. -/
theorem Effects.record_of_refers (h : Effects o b A b')
    (hA : ∀ act ∈ A, ∃ use, act = .refer i use creator) :
    ∃ l, b'.record = b.record ++ l ∧ l.length = A.length ∧
      ∀ x ∈ l, x.identifier = i ∧ b.stack.head? = some x.scope ∧
        x.implicit = if b.isStrict x.scope then none else creator := by
  induction h with
  | nil => exact ⟨[], by simp, rfl, by simp⟩
  | @cons b b₁ b' act A hb hstep heffect hrest ih =>
    obtain ⟨⟨use, rfl⟩, hothers⟩ := List.forall_mem_cons.mp hA
    obtain ⟨l, hrecord, hlength, hl⟩ := ih hothers
    have hone : Effects o b [.refer i use creator] b₁ := .cons hb hstep heffect (.nil hrest.start)
    have hstack : b₁.stack = b.stack :=
      congrArg Outline.stack (hone.outline.eq_of_declare (by simp [isPlain]))
    rcases heffect.record_cases with ⟨hnone, -⟩ | ⟨j, use', creator', s, heq, hs, hnew⟩
    · cases hnone
    · cases heq
      have hlt : s < b.scopes.size := hb.wellFormed.layout.stack_lt (List.mem_of_head? hs)
      refine ⟨b.newReference s i use creator :: l, ?_, by simp [hlength], ?_⟩
      · rw [hrecord, hnew, List.append_assoc, List.singleton_append]
      · rw [List.forall_mem_cons]
        refine ⟨⟨rfl, hs, rfl⟩, fun x hx => ?_⟩
        obtain ⟨hidentifier, hscope, himplicit⟩ := hl x hx
        rw [hstack] at hscope
        cases hs.symm.trans hscope
        rw [hone.isStrict_eq hlt] at himplicit
        exact ⟨hidentifier, hscope, himplicit⟩

end Builder

/-- The identifier of a target is referred to once for every value that the target receives. -/
theorem Program.AssignsTo.countP_references (hids : (Tree.ids p).Nodup)
    (h : Program.analyze o p = .ok a) (ht : Program.AssignsTo o p d t) :
    a.references.toList.countP (fun x => x.identifier.mark.id = d.name.mark.id) =
      t.defaults.length + 1 := by
  have hflags := congrArg List.length (Program.flags_of_mem hids h ht.mem_occurrences)
  rwa [List.length_map, ← List.countP_eq_length_filter, Role.flags, List.length_replicate]
    at hflags

/-- If as many members of a list have a property as there are in a part of it that all have it, then
no others have. -/
private theorem mem_of_countP_eq {α : Type} {q : α → Bool} {l₁ l l₂ : List α}
    (hl : ∀ x ∈ l, q x = true) (hcount : (l₁ ++ l ++ l₂).countP q = l.length) {x : α}
    (hx : x ∈ l₁ ++ l ++ l₂) (hq : q x = true) : x ∈ l := by
  rw [List.countP_append, List.countP_append, List.countP_eq_length.mpr hl] at hcount
  have h₁ : l₁.countP q = 0 := by omega
  have h₂ : l₂.countP q = 0 := by omega
  rcases List.mem_append.mp hx with hx | hx
  · refine (List.mem_append.mp hx).resolve_left fun hx => ?_
    exact List.countP_eq_zero.mp h₁ x hx hq
  · exact absurd hq (List.countP_eq_zero.mp h₂ x hx)

/-- The references to a target are made in the same scope, and may create the same variable. -/
theorem Program.AssignsTo.alike (hids : (Tree.ids p).Nodup)
    (h : Program.analyze o p = .ok a) (ht : Program.AssignsTo o p d t) {x x' : Reference}
    (hx : x ∈ a.references) (hid : x.identifier.mark.id = d.name.mark.id)
    (hx' : x' ∈ a.references) (hid' : x'.identifier.mark.id = d.name.mark.id) :
    x'.identifier = x.identifier ∧ x'.scope = x.scope ∧ x'.implicit = x.implicit := by
  have hcount := ht.countP_references hids h
  obtain ⟨b, rfl, heffects⟩ := Program.exists_effects h
  obtain ⟨value, isPartial, A, C, hsplit⟩ := ht.exists_writesTo
  obtain ⟨-, -, -, -, -, -, hname⟩ := ht
  rw [← hsplit] at heffects
  obtain ⟨b₂, hbefore, hC⟩ := heffects.exists_of_append
  obtain ⟨b₁, -, hW⟩ := hbefore.exists_of_append
  obtain ⟨l, hrecord, hlength, hl⟩ :=
    hW.record_of_refers fun act hact => exists_of_mem_writesTo hact
  obtain ⟨l₂, hl₂⟩ := hC.record_prefix
  rw [hrecord] at hl₂
  have hall : (b₁.record ++ l ++ l₂).countP (fun x => x.identifier.mark.id = d.name.mark.id) =
      l.length := by
    rw [hl₂, hlength, length_writesTo, ← hcount, Analysis.record, List.countP_map]
    rfl
  -- no reference to the target is made before or afterwards
  have hmem {x : Reference} (hx : x ∈ b.references)
      (hid : x.identifier.mark.id = d.name.mark.id) : x.lasting ∈ l := by
    refine mem_of_countP_eq (fun y hy => ?_) hall ?_ (decide_eq_true hid)
    · rw [(hl y hy).1, hname]
      exact decide_eq_true rfl
    · rw [hl₂]
      exact List.mem_map_of_mem (Array.mem_toList_iff.mpr hx)
  obtain ⟨hidentifier, hscope, himplicit⟩ := hl _ (hmem hx hid)
  obtain ⟨hidentifier', hscope', himplicit'⟩ := hl _ (hmem hx' hid')
  have hsame : x'.scope = x.scope := Option.some.inj (hscope'.symm.trans hscope)
  refine ⟨hidentifier'.trans hidentifier.symm, hsame, himplicit'.trans ?_⟩
  change (if b₁.isStrict x'.scope then _ else _) = x.implicit
  rw [hsame]
  exact himplicit.symm

/-- What a name means depends only on the scope in which it is used. -/
theorem Program.resolved_eq (hids : (Tree.ids p).Nodup) (h : Program.analyze o p = .ok a)
    {r r' : Nat} {x x' : Reference} (hx : a.references[r]? = some x)
    (hx' : a.references[r']? = some x') (hname : x'.name = x.name) (hscope : x'.scope = x.scope) :
    x'.resolved = x.resolved := by
  obtain ⟨b, rfl, hb⟩ := Program.exists_finished h
  have hmeans := (hb.journeys hids r x hx).means hb.wellFormed hb.stack
  have hmeans' := (hb.journeys hids r' x' hx').means hb.wellFormed hb.stack
  rw [hname, hscope] at hmeans'
  exact hmeans.unique hmeans'

/-! ## What the references to a target create -/

/-- The members of a list with a property, counted by their positions. -/
private theorem countP_range_getElem? {α : Type} (q : α → Bool) (l : List α) :
    (List.range l.length).countP (fun r => (l[r]?).any q) = l.countP q := by
  induction l using List.reverseRecOn with
  | nil => rfl
  | append_singleton l x ih =>
    have hbefore : (List.range l.length).countP (fun r => ((l ++ [x])[r]?).any q) = l.countP q := by
      rw [← ih]
      refine List.countP_congr fun r hr => ?_
      rw [List.getElem?_append_left (List.mem_range.mp hr)]
    rw [List.length_append, List.length_singleton, List.range_succ, List.countP_append, hbefore,
      List.countP_append]
    simp

namespace Builder.Last

variable {b b' : Builder}

/-- If a reference to a target creates a definition, all references to it do. -/
theorem creation?_eq (hlast : Last o b b') (hids : (Tree.ids p).Nodup)
    (h : Program.analyze o p = .ok b'.toAnalysis) (ht : Program.AssignsTo o p d t) {r r' : Nat}
    {x' : Reference} (hr : r ∈ b.pendingOf 0) (hd : b'.creation? 0 r = some d)
    (hx' : b'.references[r']? = some x') (hid : x'.identifier.mark.id = d.name.mark.id) :
    r' ∈ b.pendingOf 0 ∧ b'.creation? 0 r' = some d := by
  obtain ⟨x, creator, hx, himplicit, hnone, rfl⟩ := Analysis.creation?_eq_some_iff.mp hd
  obtain ⟨hidentifier, hscope, himplicit'⟩ := ht.alike hids h (Array.mem_of_getElem? hx) rfl
    (Array.mem_of_getElem? hx') hid
  have hname : x'.name = x.name := congrArg Identifier.name hidentifier
  have hresolved := Program.resolved_eq hids h hx hx' hname hscope
  have hnone' : b'.variableIn? x'.name 0 = none := by rwa [hname]
  constructor
  · rw [hlast.waits_iff hx' hnone', hresolved, hscope]
    exact (hlast.waits_iff hx hnone).mp hr
  · refine Analysis.creation?_eq_some_iff.mpr ⟨x', creator, hx', ?_, hnone', ?_⟩
    · rw [himplicit', himplicit]
    · rw [hidentifier]

/-- If all references with a property have waited in the global scope, there are as many of them
there as there are at all. -/
theorem countP_pendingOf (hlast : Last o b b') {q : Reference → Bool}
    (hq : ∀ {r : Nat} {x : Reference}, b'.references[r]? = some x → q x = true →
      r ∈ b.pendingOf 0) :
    (b.pendingOf 0).countP (fun r => (b'.references[r]?).any q) =
      b'.references.toList.countP q := by
  have hperm : ((b.pendingOf 0).filter fun r => (b'.references[r]?).any q).Perm
      ((List.range b'.references.size).filter fun r => (b'.references[r]?).any q) := by
    refine (List.perm_ext_iff_of_nodup (hlast.nodup_pendingOf.filter _)
      (List.nodup_range.filter _)).mpr fun r => ?_
    rw [List.mem_filter, List.mem_filter, and_congr_left_iff]
    intro hany
    obtain ⟨x, hx, hqx⟩ := (Option.any_eq_true _ _).mp hany
    exact iff_of_true (hq hx hqx) (List.mem_range.mpr (Array.getElem?_eq_some_iff.mp hx).1)
  have hcount := countP_range_getElem? q b'.references.toList
  simp only [Array.getElem?_toList, Array.length_toList] at hcount
  rw [List.countP_eq_length_filter, hperm.length_eq, ← List.countP_eq_length_filter, hcount]

/-- A definition is created once for every value that its target receives. -/
theorem filter_creations (hlast : Last o b b') (hids : (Tree.ids p).Nodup)
    (h : Program.analyze o p = .ok b'.toAnalysis) (ht : Program.AssignsTo o p d t)
    (hd : d ∈ (b.pendingOf 0).filterMap (b'.creation? 0)) :
    ((b.pendingOf 0).filterMap (b'.creation? 0)).filter
        (fun e => e.name.mark.id = d.name.mark.id) =
      List.replicate (t.defaults.length + 1) d := by
  obtain ⟨r, hr, hcreates⟩ := List.mem_filterMap.mp hd
  have hsame {r' : Nat} {x : Reference} (hx : b'.references[r']? = some x)
      (hid : x.identifier.mark.id = d.name.mark.id) :
      r' ∈ b.pendingOf 0 ∧ b'.creation? 0 r' = some d :=
    hlast.creation?_eq hids h ht hr hcreates hx hid
  have hrefers {r' : Nat} {e : Definition} (he : b'.creation? 0 r' = some e) :
      ∃ x, b'.references[r']? = some x ∧ x.identifier = e.name := by
    obtain ⟨x, creator, hx, -, -, rfl⟩ := Analysis.creation?_eq_some_iff.mp he
    exact ⟨x, hx, rfl⟩
  refine List.eq_replicate_iff.mpr ⟨?_, fun e he => ?_⟩
  · rw [← List.countP_eq_length_filter, List.countP_filterMap, ← ht.countP_references hids h,
      ← hlast.countP_pendingOf fun hx hid => (hsame hx (of_decide_eq_true hid)).1]
    refine List.countP_congr fun r' _ => ?_
    rw [Option.any_eq_true]
    constructor
    · intro hid
      cases he : b'.creation? 0 r' with
      | none => simp [he] at hid
      | some e =>
        obtain ⟨x, hx, hname⟩ := hrefers he
        exact ⟨x, hx, by simpa [he, hname] using hid⟩
    · rintro ⟨x, hx, hid⟩
      simp [(hsame hx (of_decide_eq_true hid)).2]
  · rw [List.mem_filter, decide_eq_true_iff, List.mem_filterMap] at he
    obtain ⟨⟨r', -, he⟩, hid⟩ := he
    obtain ⟨x, hx, hname⟩ := hrefers he
    exact Option.some.inj (he.symm.trans (hsame hx (hname ▸ hid)).2)

end Builder.Last

/-! ## What is listed -/

namespace Builder

variable {b b' : Builder} {s n : Nat}

/-- The variables with numbers from `n` on list the names of their definitions. -/
def Labelled (n : Nat) (b : Builder) : Prop :=
  ∀ (v : Nat) (z : Variable), n ≤ v → b.vars[v]? = some z →
    z.identifiers.toList = z.defs.toList.map (·.name)

private theorem Labelled.ensure (h : Labelled n b) (bindings : Bindings) (s : Nat) (name : String) :
    Labelled n (b.ensure bindings s name).1 := by
  rcases b.ensure_cases bindings s name with ⟨v, -, heq⟩ | ⟨-, heq⟩
  · rwa [heq]
  · intro v z hv hz
    rw [heq, Array.getElem?_push] at hz
    split at hz
    · cases hz
      rfl
    · exact h v z hv hz

private theorem Labelled.modifyScope (h : Labelled n b) (s : Nat) (f : Scope → Scope) :
    Labelled n (b.modifyScope s f) :=
  h

private theorem Labelled.define (h : Labelled n b) (v : Nat) (d : Definition) :
    Labelled n (b.define v d) := by
  intro u z hu hz
  rw [vars_define, Array.getElem?_modify] at hz
  split at hz
  · obtain ⟨z₀, hz₀, rfl⟩ := Option.map_eq_some_iff.mp hz
    simp [h u z₀ hu hz₀]
  · exact h u z hu hz

private theorem Labelled.createImplicit (h : Labelled n b) (s r : Nat) :
    Labelled n (b.createImplicit s r) := by
  rw [createImplicit_eq]
  cases b.creation? s r with
  | none => exact h
  | some d =>
    change Labelled n (b.declareImplicit s d)
    unfold declareImplicit
    split
    · exact h
    split
    · exact h
    next i _ => exact ((h.ensure i.bindings s d.name.name).modifyScope s _).define _ d

/-- What is created by one reference after the other lists the names of its definitions. -/
theorem labelled_createImplicits (hb : Apart s n b) (h : Labelled n b) (l : List Nat) :
    Apart s n (l.foldl (fun b r => b.createImplicit s r) b) ∧
      Labelled n (l.foldl (fun b r => b.createImplicit s r) b) := by
  induction l generalizing b with
  | nil => exact ⟨hb, h⟩
  | cons r l ih => exact ih (hb.createImplicit r).2 (h.createImplicit s r)

/-- The variables that nothing declares list the names of their definitions. -/
theorem Last.identifiers_eq {o : Options} (h : Last o b b') {y : Scope} {i : ImplicitGlobals}
    {name : String} {v : Nat} {z : Variable} (hy : b'.scopes[0]? = some y)
    (hi : y.implicit = some i) (hv : i.bindings.find? name = some v) (hz : b'.vars[v]? = some z) :
    z.identifiers.toList = z.defs.toList.map (·.name) := by
  obtain ⟨left, b₁, y₁, -, hy₁, hi₁, rfl⟩ := h.exists_settled
  have hempty : Apart 0 b₁.vars.size b₁ := by
    refine ⟨Nat.le_refl _, fun {y i name v} hy hi hv => ?_⟩
    cases hy₁.symm.trans hy
    cases hi₁.symm.trans hi
    simp [Bindings.find?] at hv
  have hfresh : Labelled b₁.vars.size b₁ := fun v z hv hz =>
    absurd (Array.getElem?_eq_some_iff.mp hz).1 (Nat.not_lt.mpr hv)
  obtain ⟨hapart, hlabelled⟩ := labelled_createImplicits hempty hfresh left.toList
  obtain ⟨y₂, hy₂, rfl⟩ :=
    Option.map_eq_some_iff.mp ((b₁.scopes_createImplicits 0 left).symm.trans hy)
  obtain ⟨i₂, hi₂, rfl⟩ := Option.map_eq_some_iff.mp hi
  exact hlabelled v z (hapart.le_of_find? hy₂ hi₂ hv) hz

end Builder

/-- If every definition is there once for every value that its target receives, no two have the same
name node if and only if no target has a default. -/
theorem Program.nodup_names_iff {D : List Definition} (hassigns : ∀ d ∈ D, Program.Assigns o p d)
    (hfilter : ∀ d ∈ D, ∀ t, Program.AssignsTo o p d t →
      D.filter (fun e => e.name.mark.id = d.name.mark.id) =
        List.replicate (t.defaults.length + 1) d) :
    (D.map (·.name.mark.id)).Nodup ↔
      ∀ d ∈ D, ∀ t, Program.AssignsTo o p d t → t.defaults = [] := by
  have hcount {d : Definition} {t : Target} (hd : d ∈ D) (ht : Program.AssignsTo o p d t) :
      (D.map (·.name.mark.id)).count d.name.mark.id = t.defaults.length + 1 := by
    rw [List.count, List.countP_map, List.countP_eq_length_filter]
    exact (congrArg List.length (hfilter d hd t ht)).trans List.length_replicate
  rw [List.nodup_iff_count_le_one]
  constructor
  · intro hone d hd t ht
    have hle := hone d.name.mark.id
    rw [hcount hd ht] at hle
    exact List.length_eq_zero_iff.mp (by omega)
  · intro hnone n
    by_cases hn : n ∈ D.map (·.name.mark.id)
    · obtain ⟨d, hd, rfl⟩ := List.mem_map.mp hn
      obtain ⟨t, ht⟩ := Program.assigns_iff.mp (hassigns d hd)
      rw [hcount hd ht, hnone d hd t ht]
      exact Nat.le_refl 1
    · rw [List.count_eq_zero.mpr hn]
      exact Nat.zero_le 1

/-- A variable that nothing declares lists the names of its definitions. Its definitions are where
its name is assigned to, and each is there once for every value that its target receives: for the
value that is assigned, and for every default in front of the target. So no identifier is listed
twice if and only if no target has a default in front of it. -/
theorem Program.definitions_repeat (hids : (Tree.ids p).Nodup) (h : Program.analyze o p = .ok a) :
    ∃ y i, a.scopes[0]? = some y ∧ y.implicit = some i ∧ ∀ v ∈ i.bindings.vars,
      ∃ z, a.vars[v]? = some z ∧ z.identifiers.toList = z.defs.toList.map (·.name) ∧
        (∀ d ∈ z.defs, Program.Assigns o p d ∧ ∀ t, Program.AssignsTo o p d t →
          z.defs.toList.filter (fun e => e.name.mark.id = d.name.mark.id) =
            List.replicate (t.defaults.length + 1) d) ∧
        ((z.identifiers.toList.map (·.mark.id)).Nodup ↔
          ∀ d ∈ z.defs, ∀ t, Program.AssignsTo o p d t → t.defaults = []) := by
  have hkempt := Program.kempt hids h
  obtain ⟨b, b', rfl, hlast⟩ := Program.exists_last hids h
  obtain ⟨y, i, hy, -, hi, -, hcreated⟩ := hlast.created
  refine ⟨y, i, hy, hi, fun v hv => ?_⟩
  obtain ⟨name, htitle⟩ := hkempt.shelved.titled hcreated.table v hv
  have hfind := (hkempt.shelved.find?_iff hcreated.table name v).mpr ⟨hv, htitle⟩
  obtain ⟨z, hz, rfl, hdefs⟩ := hcreated.found hfind
  have hlisted := hlast.identifiers_eq hy hi hfind hz
  have hmem {d : Definition} (hd : d ∈ z.defs) :
      d ∈ (b.pendingOf 0).filterMap (b'.creation? 0) ∧ d.name.name = z.name := by
    rwa [← Array.mem_toList_iff, hdefs, List.mem_filter, decide_eq_true_iff] at hd
  have hassigns (d : Definition) (hd : d ∈ z.defs) : Program.Assigns o p d := by
    obtain ⟨r, x, creator, hx, himplicit, -, -, rfl⟩ := hlast.mem_creations_iff.mp (hmem hd).1
    exact (Program.implicit_spec hids h hx).2 creator himplicit
  have hfilter (d : Definition) (hd : d ∈ z.defs) (t : Target) (ht : Program.AssignsTo o p d t) :
      z.defs.toList.filter (fun e => e.name.mark.id = d.name.mark.id) =
        List.replicate (t.defaults.length + 1) d := by
    have hall := hlast.filter_creations hids h ht (hmem hd).1
    rw [hdefs, List.filter_comm, hall, List.filter_eq_self]
    intro e he
    rw [List.eq_of_mem_replicate he]
    exact decide_eq_true (hmem hd).2
  refine ⟨z, hz, hlisted, fun d hd => ⟨hassigns d hd, hfilter d hd⟩, ?_⟩
  rw [hlisted, List.map_map]
  simp only [← Array.mem_toList_iff] at hassigns hfilter ⊢
  exact Program.nodup_names_iff hassigns hfilter

/-- An assignment to a pattern with a default: `[x = 1] = y;`. -/
def Program.assignDefault : Program :=
  let mark (n : Nat) : Mark := ⟨n, ⟨n, n⟩⟩
  .program (mark 0) (.cons (.expressionStatement (mark 1) (.assignmentExpression (mark 2) .assign
    (.arrayPattern (mark 3) (.cons (.present (.assignmentPattern (mark 4)
      (.identifierPattern ⟨mark 5, "x"⟩)
      (.literal ⟨mark 6, .number (.integer 1), none, none, none⟩))) .nil))
    (.identifier ⟨mark 7, "y"⟩)) none) .nil)

/-- The default and the value that is assigned both define `x`, at the same place. -/
theorem Program.definitions_repeat_default : (Tree.ids Program.assignDefault).Nodup ∧
    ∃ a y i z d t, Program.analyze .es6 .assignDefault = .ok a ∧ a.scopes[0]? = some y ∧
      y.implicit = some i ∧ 0 ∈ i.bindings.vars ∧ a.vars[0]? = some z ∧ d ∈ z.defs ∧
      Program.AssignsTo .es6 .assignDefault d t ∧ t.defaults.length = 1 ∧
      z.defs.toList.filter (fun e => e.name.mark.id = d.name.mark.id) = List.replicate 2 d := by
  have hids : (Tree.ids Program.assignDefault).Nodup := by decide
  let d : Definition := ⟨.implicitGlobal, ⟨⟨5, ⟨5, 5⟩⟩, "x"⟩, ⟨.assignment, ⟨2, ⟨2, 2⟩⟩⟩⟩
  have hvalue : (Program.analyze .es6 .assignDefault).toOption.bind (fun a =>
      ((a.scopes[0]?).bind (·.implicit)).map fun i =>
        (i.bindings.vars.toList, (a.vars[0]?).map (·.defs.toList))) =
      some ([0], some [d, d]) := by decide +kernel
  have hassigns : ∃ t, Program.AssignsTo .es6 .assignDefault d t ∧ t.defaults.length = 1 :=
    ⟨_, ⟨_, List.mem_of_getElem? (i := 3) rfl, nofun, _, rfl, List.mem_of_getElem? (i := 0) rfl,
      rfl⟩, rfl⟩
  obtain ⟨t, ht, hlength⟩ := hassigns
  cases h : Program.analyze .es6 .assignDefault with
  | error e =>
    rw [h] at hvalue
    cases hvalue
  | ok a =>
    obtain ⟨y, i, hy, hi, hall⟩ := Program.definitions_repeat hids h
    rw [h] at hvalue
    simp only [Except.toOption, Option.bind_some, hy, hi, Option.map_some, Option.some.injEq,
      Prod.mk.injEq] at hvalue
    have hvar : 0 ∈ i.bindings.vars := Array.mem_toList_iff.mp (by simp [hvalue.1])
    obtain ⟨z, hz, -, hdefs, -⟩ := hall 0 hvar
    have hd : d ∈ z.defs := by
      rw [hz, Option.map_some, Option.some.injEq] at hvalue
      exact Array.mem_toList_iff.mp (by simp [hvalue.2])
    have hrepeat := (hdefs d hd).2 t ht
    rw [hlength] at hrepeat
    exact ⟨hids, a, y, i, z, d, t, rfl, hy, hi, hvar, hz, hd, ht, hlength, hrepeat⟩

/-- So `x` lists the same identifier twice. -/
theorem Program.identifiers_assignDefault : (Tree.ids Program.assignDefault).Nodup ∧
    ∃ a y i z, Program.analyze .es6 .assignDefault = .ok a ∧ a.scopes[0]? = some y ∧
      y.implicit = some i ∧ 0 ∈ i.bindings.vars ∧ a.vars[0]? = some z ∧
      z.identifiers.toList.map (·.mark.id) = [5, 5] := by
  have hids : (Tree.ids Program.assignDefault).Nodup := by decide
  have hvars : (Program.analyze .es6 .assignDefault).toOption.bind (fun a =>
      ((a.scopes[0]?).bind (·.implicit)).map (·.bindings.vars.toList)) = some [0] := by
    decide +kernel
  have hlisted : (Program.analyze .es6 .assignDefault).toOption.bind (fun a =>
      (a.vars[0]?).map fun z => z.identifiers.toList.map (·.mark.id)) = some [5, 5] := by
    decide +kernel
  cases h : Program.analyze .es6 .assignDefault with
  | error e =>
    rw [h] at hvars
    cases hvars
  | ok a =>
    rw [h] at hvars hlisted
    obtain ⟨i, hi, hvars⟩ := Option.map_eq_some_iff.mp hvars
    obtain ⟨y, hy, hi⟩ := Option.bind_eq_some_iff.mp hi
    obtain ⟨z, hz, hlisted⟩ := Option.map_eq_some_iff.mp hlisted
    exact ⟨hids, a, y, i, z, rfl, hy, hi, Array.mem_toList_iff.mp (by simp [hvars]), hz, hlisted⟩

end EcmaScope
