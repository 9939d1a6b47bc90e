import EcmaScope.Proofs.Agreement
import EcmaScope.Proofs.Lasting
import EcmaScope.Proofs.Renaming
import Mathlib.Logic.Equiv.Basic

/-!
# Analyses of renamed programs

The analysis of a program depends on its names and on the numbers of its nodes only through which
of them are equal. Two builders that carry out the same actions, one of them on renamed data, stay
renamings of each other: the builder compares names to look up variables, and it compares numbers
of nodes to close scopes and to keep its records of nodes.

## Main definitions

* `Bindings.Renamed`, `Scope.Renamed`, `Reference.Renamed`: entries of the tables, renamed.
* `Analysis.Renamed`, `Builder.Renamed`: all tables, renamed.

## Main results

* `Builder.Renamed.step`, `Builder.Renamed.run`: renamed builders stay renamed.
* `Program.analyze_renamed`: the analysis of a renamed program.
* `Program.analyze_rename`, `Program.analyze_relabel`: other names, and other numbers.
-/

namespace EcmaScope

/-- The variable with its names and its numbers changed. -/
def Renaming.variable (τ : Renaming) (x : Variable) : Variable :=
  { x with
    name := τ.name x.name
    identifiers := x.identifiers.map τ.identifier
    defs := x.defs.map τ.definition }

/-- The reference with its name and its numbers changed. -/
def Renaming.reference (τ : Renaming) (x : Reference) : Reference :=
  { x with
    identifier := τ.identifier x.identifier
    use := τ.use x.use
    implicit := x.implicit.map τ.anchor }

/-- The bindings have the same variables under changed names. -/
structure Bindings.Renamed (τ : Renaming) (B B' : Bindings) : Prop where
  vars : B'.vars = B.vars
  find? : ∀ name v, B'.find? name = some v ↔ ∃ old, τ.name old = name ∧ B.find? old = some v
  eq : τ.name = id → B' = B

/-- The sets have the same names, changed. -/
structure NamesRenamed (τ : Renaming) (T T' : Std.TreeSet String) : Prop where
  mem : ∀ name, name ∈ T' ↔ ∃ old, τ.name old = name ∧ old ∈ T
  eq : τ.name = id → T' = T

/-- The implicit global variables are the same under changed names. -/
inductive ImplicitGlobals.Renamed (τ : Renaming) (i : ImplicitGlobals) : ImplicitGlobals → Prop
  | mk {B : Bindings} (hB : i.bindings.Renamed τ B) : Renamed τ i { i with bindings := B }

/-- A scope with its names and the number of its node changed, and all else kept. -/
inductive Scope.Renamed (τ : Renaming) (N : List Nat) (y : Scope) : Scope → Prop
  | mk {B : Bindings} {T : Std.TreeSet String} {I : Option ImplicitGlobals}
      (hB : y.bindings.Renamed τ B) (hT : NamesRenamed τ y.taints T)
      (hI : Option.Rel (ImplicitGlobals.Renamed τ) y.implicit I) (hblock : y.block.id ∈ N) :
    Renamed τ N y { y with block := τ.anchor y.block, bindings := B, taints := T, implicit := I }

/-- A reference with its name and its numbers changed; its nodes are numbered in `N`. -/
structure Reference.Renamed (τ : Renaming) (N : List Nat) (x x' : Reference) : Prop where
  eq : x' = τ.reference x
  identifier : x.identifier.mark.id ∈ N
  implicit : ∀ a ∈ x.implicit, a.id ∈ N

/-- The tables of an analysis with names and numbers changed. A node is asked for by the number that
it becomes, if no other node becomes it. -/
structure Analysis.Renamed (τ : Renaming) (N : List Nat) (a a' : Analysis) : Prop where
  scopes : Rows (Scope.Renamed τ N) a.scopes a'.scopes
  vars : Rows (fun x x' => x' = τ.variable x) a.vars a'.vars
  references : Rows (Reference.Renamed τ N) a.references a'.references
  owned : ∀ n, τ.Separates N n → a'.owned.getD (τ.number n) #[] = a.owned.getD n #[]
  declared : ∀ n, τ.Separates N n → a'.declared.getD (τ.number n) #[] = a.declared.getD n #[]

/-- Builders whose tables are the same up to names and numbers. -/
structure Builder.Renamed (τ : Renaming) (N : List Nat) (b b' : Builder) : Prop
    extends Analysis.Renamed τ N b.toAnalysis b'.toAnalysis where
  stack : b'.stack = b.stack
  sites : b'.sites = b.sites

variable {τ : Renaming} {N : List Nat} (hτ : τ.Faithful N)

/-! ## Names -/

private theorem Bindings.Renamed.empty : Bindings.Renamed τ {} {} :=
  ⟨rfl, fun name v => by simp [Bindings.find?], fun _ => rfl⟩

include hτ in
private theorem Bindings.Renamed.find?_name {B B' : Bindings} (h : B.Renamed τ B') (name : String) :
    B'.find? (τ.name name) = B.find? name := by
  apply Option.ext
  intro v
  rw [h.find?]
  constructor
  · rintro ⟨old, hold, hv⟩
    exact hτ.name hold ▸ hv
  · exact fun hv => ⟨name, rfl, hv⟩

include hτ in
private theorem Bindings.Renamed.add {B B' : Bindings} (h : B.Renamed τ B') (name : String)
    (v : Nat) : (B.add name v).Renamed τ (B'.add (τ.name name) v) := by
  refine ⟨congrArg (·.push v) h.vars, fun m w => ?_, fun hid => ?_⟩
  · rw [Bindings.find?_add]
    by_cases hm : m = τ.name name
    · rw [if_pos hm]
      constructor
      · exact fun hw => ⟨name, hm.symm, by rw [Bindings.find?_add, if_pos rfl, hw]⟩
      · rintro ⟨old, hold, hw⟩
        rwa [Bindings.find?_add, if_pos (hτ.name (hold.trans hm))] at hw
    · rw [if_neg hm, h.find?]
      apply exists_congr
      rintro old
      apply and_congr_right
      rintro rfl
      rw [Bindings.find?_add, if_neg fun hold => hm (congrArg τ.name hold)]
  · rw [h.eq hid, hid]
    rfl

private theorem NamesRenamed.insert {T T' : Std.TreeSet String} (h : NamesRenamed τ T T')
    (name : String) : NamesRenamed τ (T.insert name) (T'.insert (τ.name name)) := by
  refine ⟨fun m => ?_, fun hid => by rw [h.eq hid, hid]; rfl⟩
  simp only [Std.TreeSet.mem_insert, Std.LawfulEqCmp.compare_eq_iff_eq, h.mem]
  constructor
  · rintro (rfl | ⟨old, rfl, hold⟩)
    · exact ⟨name, rfl, .inl rfl⟩
    · exact ⟨old, rfl, .inr hold⟩
  · rintro ⟨old, rfl, rfl | hold⟩
    · exact .inl rfl
    · exact .inr ⟨old, rfl, hold⟩

/-- Records of nodes stay the same up to numbers when one of them is written. -/
theorem getD_insert_renamed {m m' : Std.TreeMap Nat (Array Nat)} {node : Nat} (hnode : node ∈ N)
    {vs vs' : Array Nat} (hvs : vs' = vs)
    (h : ∀ n, τ.Separates N n → m'.getD (τ.number n) #[] = m.getD n #[]) (n : Nat)
    (hn : τ.Separates N n) :
    (m'.insert (τ.number node) vs').getD (τ.number n) #[] = (m.insert node vs).getD n #[] := by
  rw [Std.TreeMap.getD_insert, Std.TreeMap.getD_insert, h n hn, hvs]
  simp only [Std.LawfulEqCmp.compare_eq_iff_eq]
  by_cases heq : node = n
  · rw [if_pos heq, if_pos (congrArg τ.number heq)]
  · rw [if_neg heq, if_neg fun hnumber => heq (hn node hnode hnumber)]

private theorem parent?_definitionKind (τ : Renaming) (kind : DefinitionKind) :
    (τ.definitionKind kind).parent? = kind.parent?.map τ.anchor := by
  cases kind <;> rfl

namespace Builder.Renamed

variable {b b' : Builder}

/-! ## Looking things up -/

private theorem empty : Builder.Renamed τ N {} {} := by
  refine ⟨⟨.empty, .empty, .empty, fun n _ => ?_, fun n _ => ?_⟩, rfl, rfl⟩
  · simp
  · simp

private theorem current (h : b.Renamed τ N b') : b'.current = b.current := by
  rw [Builder.current, Builder.current, current?, current?, h.stack]

/-- Both builders are in the same scope. -/
private theorem bind_current (h : b.Renamed τ N b') {f f' : Nat → Except AnalysisError Builder}
    (hf : ∀ s, Agree (Builder.Renamed τ N) (f s) (f' s)) :
    Agree (Builder.Renamed τ N) (b.current >>= f) (b'.current >>= f') := by
  rw [h.current]
  refine (Agree.refl _).bind ?_
  rintro s _ rfl
  exact hf s

private theorem variableScope (h : b.Renamed τ N b') (s : Nat) :
    b'.variableScope s = b.variableScope s := by
  rw [Builder.variableScope, Builder.variableScope]
  rcases h.scopes.cases s with ⟨hs, hs'⟩ | ⟨y, -, hs, hs', ⟨⟩⟩ <;> rw [hs, hs']

private theorem isStrict (h : b.Renamed τ N b') (s : Nat) : b'.isStrict s = b.isStrict s := by
  rw [Builder.isStrict, Builder.isStrict]
  rcases h.scopes.cases s with ⟨hs, hs'⟩ | ⟨y, -, hs, hs', ⟨⟩⟩ <;> rw [hs, hs']
  rfl

private theorem pending (h : b.Renamed τ N b') (s : Nat) :
    b'.scopes[s]?.bind (·.pending) = b.scopes[s]?.bind (·.pending) := by
  rcases h.scopes.cases s with ⟨hs, hs'⟩ | ⟨y, -, hs, hs', ⟨⟩⟩ <;> rw [hs, hs']
  rfl

include hτ in
private theorem variableIn? (h : b.Renamed τ N b') (name : String) (s : Nat) :
    b'.variableIn? (τ.name name) s = b.variableIn? name s := by
  unfold Analysis.variableIn?
  rcases h.scopes.cases s with ⟨hs, hs'⟩ | ⟨y, -, hs, hs', ⟨hB⟩⟩
  · rw [hs, hs']
    rfl
  · rw [hs, hs']
    exact hB.find?_name hτ name

private theorem openFor (h : b.Renamed τ N b') (hτ : τ.Faithful N) {n : Nat} (hn : n ∈ N) :
    b'.openFor (τ.number n) = b.openFor n := by
  unfold Builder.openFor
  rw [h.stack]
  congr 1
  funext s
  rcases h.scopes.cases s with ⟨hs, hs'⟩ | ⟨y, -, hs, hs', ⟨_, _, _, hblock⟩⟩
  · rw [hs, hs']
    rfl
  · rw [hs, hs']
    exact decide_eq_decide.2 (hτ.number_eq_iff hblock hn)

/-! ## Changing the tables -/

private theorem modifyScope (h : b.Renamed τ N b') (s : Nat) {f f' : Scope → Scope}
    (hf : ∀ y y', Scope.Renamed τ N y y' → Scope.Renamed τ N (f y) (f' y')) :
    (b.modifyScope s f).Renamed τ N (b'.modifyScope s f') :=
  { h with scopes := h.scopes.modify s hf }

/-- A change of a scope that has to do with neither names nor numbers. -/
private theorem modifyRest (h : b.Renamed τ N b') (s : Nat) (f : Scope → Scope)
    (hf : ∀ y block B T I,
      f { y with block := block, bindings := B, taints := T, implicit := I } =
        { f y with block := block, bindings := B, taints := T, implicit := I }) :
    (b.modifyScope s f).Renamed τ N (b'.modifyScope s f) := by
  refine h.modifyScope s ?_
  rintro y _ ⟨hB, hT, hI, hblock⟩
  have hself : f y = { f y with
      block := y.block, bindings := y.bindings, taints := y.taints, implicit := y.implicit } :=
    hf y y.block y.bindings y.taints y.implicit
  rw [hf y (τ.anchor y.block)]
  generalize f y = z at hself ⊢
  rw [hself]
  exact ⟨hB, hT, hI, hblock⟩

private theorem modifyVariable (h : b.Renamed τ N b') (v : Nat) {f f' : Variable → Variable}
    (hf : ∀ x, f' (τ.variable x) = τ.variable (f x)) :
    Builder.Renamed τ N { b with vars := b.vars.modify v f }
      { b' with vars := b'.vars.modify v f' } :=
  { h with vars := h.vars.modify v fun x _ hx => hx ▸ hf x }

private theorem modifyReference (h : b.Renamed τ N b') (r : Nat) {f : Reference → Reference}
    (hf : ∀ x x', Reference.Renamed τ N x x' → Reference.Renamed τ N (f x) (f x')) :
    Builder.Renamed τ N { b with references := b.references.modify r f }
      { b' with references := b'.references.modify r f } :=
  { h with references := h.references.modify r hf }

private theorem noteDeclared (h : b.Renamed τ N b') (hτ : τ.Faithful N) {node : Nat}
    (hnode : node ∈ N) (v : Nat) :
    (b.noteDeclared node v).Renamed τ N (b'.noteDeclared (τ.number node) v) := by
  have hold := h.declared node (hτ.number node hnode)
  unfold Builder.noteDeclared
  rw [hold]
  dsimp only
  split
  · exact h
  · exact { h with declared := getD_insert_renamed hnode rfl h.declared }

private theorem define (h : b.Renamed τ N b') (hτ : τ.Faithful N) (v : Nat) {d : Definition}
    (hnode : d.node.id ∈ N) (hparent : ∀ a ∈ d.kind.parent?, a.id ∈ N) :
    (b.define v d).Renamed τ N (b'.define v (τ.definition d)) := by
  have hkind : (τ.definition d).kind.parent? = d.kind.parent?.map τ.anchor :=
    parent?_definitionKind τ d.kind
  have hnoted : (b.noteDeclared d.node.id v).Renamed τ N
      (b'.noteDeclared (τ.definition d).node.id v) := h.noteDeclared hτ hnode v
  unfold Builder.define
  rw [hkind]
  have hdef : ∀ x : Variable,
      { τ.variable x with
        defs := (τ.variable x).defs.push (τ.definition d)
        identifiers := (τ.variable x).identifiers.push (τ.definition d).name } =
      τ.variable { x with defs := x.defs.push d, identifiers := x.identifiers.push d.name } := by
    intro x
    simp [Renaming.variable, Renaming.definition]
  cases hp : d.kind.parent? with
  | none => exact hnoted.modifyVariable v hdef
  | some parent => exact (hnoted.noteDeclared hτ (hparent parent hp) v).modifyVariable v hdef

private theorem ensure (h : b.Renamed τ N b') (hτ : τ.Faithful N) {B B' : Bindings}
    (hB : B.Renamed τ B') (s : Nat) (name : String) :
    (b.ensure B s name).1.Renamed τ N (b'.ensure B' s (τ.name name)).1 ∧
      (b.ensure B s name).2.1.Renamed τ (b'.ensure B' s (τ.name name)).2.1 ∧
      (b'.ensure B' s (τ.name name)).2.2 = (b.ensure B s name).2.2 := by
  unfold Builder.ensure
  rw [hB.find?_name hτ]
  cases B.find? name with
  | some v => exact ⟨h, hB, rfl⟩
  | none =>
    dsimp only
    rw [h.vars.size_eq]
    exact ⟨{ h with vars := h.vars.push (by simp [Renaming.variable]) }, hB.add hτ name _, rfl⟩

private theorem declareIn (h : b.Renamed τ N b') (hτ : τ.Faithful N) (s : Nat) {d : Definition}
    (hnode : d.node.id ∈ N) (hparent : ∀ a ∈ d.kind.parent?, a.id ∈ N) :
    (b.declareIn s d).Renamed τ N (b'.declareIn s (τ.definition d)) := by
  unfold Builder.declareIn
  rcases h.scopes.cases s with ⟨hs, hs'⟩ | ⟨y, y', hs, hs', hy⟩
  · rw [hs, hs']
    exact h
  · rw [hs, hs']
    obtain ⟨hB, -, -, -⟩ := hy
    obtain ⟨hb, hB, hv⟩ := h.ensure hτ hB s d.name.name
    have hname : (τ.definition d).name.name = τ.name d.name.name := rfl
    dsimp only
    rw [hname, hv]
    refine (hb.modifyScope s ?_).define hτ _ hnode hparent
    rintro _ _ ⟨-, hT, hI, hblock⟩
    exact ⟨hB, hT, hI, hblock⟩

private theorem declareImplicit (h : b.Renamed τ N b') (hτ : τ.Faithful N) (s : Nat)
    {d : Definition} (hnode : d.node.id ∈ N) (hparent : ∀ a ∈ d.kind.parent?, a.id ∈ N) :
    (b.declareImplicit s d).Renamed τ N (b'.declareImplicit s (τ.definition d)) := by
  unfold Builder.declareImplicit
  rcases h.scopes.cases s with ⟨hs, hs'⟩ | ⟨y, y', hs, hs', hy⟩
  · rw [hs, hs']
    exact h
  · rw [hs, hs']
    obtain ⟨-, -, hI, -⟩ := hy
    dsimp only
    revert hI
    generalize y.implicit = i
    rintro (⟨⟨hB⟩⟩ | _)
    · obtain ⟨hb, hB, hv⟩ := h.ensure hτ hB s d.name.name
      have hname : (τ.definition d).name.name = τ.name d.name.name := rfl
      dsimp only
      rw [hname, hv]
      refine (hb.modifyScope s ?_).define hτ _ hnode hparent
      rintro _ _ ⟨hB', hT, -, hblock⟩
      exact ⟨hB', hT, .some ⟨hB⟩, hblock⟩
    · exact h

private theorem declareArguments (h : b.Renamed τ N b') (hτ : τ.Faithful N) (s : Nat) :
    (b.declareArguments s).Renamed τ N (b'.declareArguments s) := by
  unfold Builder.declareArguments
  rcases h.scopes.cases s with ⟨hs, hs'⟩ | ⟨y, y', hs, hs', hy⟩
  · rw [hs, hs']
    exact h
  · rw [hs, hs']
    obtain ⟨hB, -, -, -⟩ := hy
    obtain ⟨hb, hB, -⟩ := h.ensure hτ hB s "arguments"
    rw [hτ.arguments] at hb hB
    refine hb.modifyScope s ?_
    rintro _ _ ⟨-, hT, hI, hblock⟩
    have hT' := hT.insert "arguments"
    rw [hτ.arguments] at hT'
    exact ⟨hB, hT', hI, hblock⟩

/-! ## Open scopes -/

private theorem insertScope (h : b.Renamed τ N b') (hτ : τ.Faithful N) {y y' : Scope}
    (hy : Scope.Renamed τ N y y') (s : Nat) :
    Builder.Renamed τ N
      { b with
        scopes := b.scopes.push y
        owned := b.owned.insert y.block.id ((b.owned.getD y.block.id #[]).push s)
        stack := s :: b.stack }
      { b' with
        scopes := b'.scopes.push y'
        owned := b'.owned.insert y'.block.id ((b'.owned.getD y'.block.id #[]).push s)
        stack := s :: b'.stack } := by
  refine { h with
    scopes := h.scopes.push hy
    owned := ?_
    stack := congrArg (s :: ·) h.stack }
  obtain ⟨-, -, -, hblock⟩ := hy
  have hold := h.owned y.block.id (hτ.number _ hblock)
  exact getD_insert_renamed hblock (congrArg (·.push s) hold) h.owned

private theorem pushScope (h : b.Renamed τ N b') (hτ : τ.Faithful N) {y y' : Scope}
    (hy : Scope.Renamed τ N y y') : (b.pushScope y).Renamed τ N (b'.pushScope y') := by
  unfold Builder.pushScope current?
  rw [h.stack, h.scopes.size_eq]
  cases b.stack.head? with
  | none => exact h.insertScope hτ hy b.scopes.size
  | some upper =>
    exact (h.modifyRest upper _ fun _ _ _ _ _ => rfl).insertScope hτ hy b.scopes.size

private theorem newScope (h : b.Renamed τ N b') (o : Options) (kind : ScopeKind) {block : Anchor}
    (hblock : block.id ∈ N) (strict : Bool) (v : Nat) :
    Scope.Renamed τ N (b.newScope o kind block strict v)
      (b'.newScope o kind (τ.anchor block) strict v) := by
  have hcurrent : b'.current? = b.current? := congrArg List.head? h.stack
  have hstrict : b'.isStrict = b.isStrict := funext h.isStrict
  unfold Builder.newScope
  rw [hcurrent, hstrict, h.stack]
  refine ⟨.empty, ⟨fun name => by simp, fun _ => rfl⟩, ?_, hblock⟩
  split
  · exact .some ⟨.empty⟩
  · exact .none

private theorem openScope (h : b.Renamed τ N b') (hτ : τ.Faithful N) (o : Options)
    (kind : ScopeKind) {block : Anchor} (hblock : block.id ∈ N) (strict : Bool) :
    Agree (Builder.Renamed τ N) (b.openScope o kind block strict)
      (b'.openScope o kind (τ.anchor block) strict) := by
  have hvariableScope : b'.variableScope = b.variableScope := funext h.variableScope
  rw [openScope_eq_bind, openScope_eq_bind, h.current, hvariableScope, h.scopes.size_eq]
  refine (Agree.refl _).bind ?_
  rintro v _ rfl
  have hpush := h.pushScope hτ (h.newScope o kind hblock strict v)
  have harrow : (τ.anchor block).isArrow = block.isArrow := rfl
  rw [harrow]
  split
  · exact .ok (hpush.declareArguments hτ b.scopes.size)
  · exact .ok hpush

private theorem refer (h : b.Renamed τ N b') {i : Identifier} (hi : i.mark.id ∈ N) (use : Use)
    {creator : Option Anchor} (hcreator : ∀ a ∈ creator, a.id ∈ N) :
    Agree (Builder.Renamed τ N) (b.refer i use creator)
      (b'.refer (τ.identifier i) (τ.use use) (creator.map τ.anchor)) := by
  refine h.bind_current fun s => ?_
  rw [h.pending s]
  cases b.scopes[s]?.bind (·.pending) with
  | none => exact .error _
  | some pending =>
    dsimp only
    rw [h.references.size_eq, h.isStrict]
    have hscope := h.modifyRest s (fun x => { x with
      references := x.references.push b.references.size
      pending := some (pending.push b.references.size) }) fun _ _ _ _ _ => rfl
    refine .ok { hscope with references := h.references.push ⟨?_, hi, ?_⟩ }
    · cases b.isStrict s <;> rfl
    · cases b.isStrict s
      · exact hcreator
      · exact fun _ ha => absurd ha (Option.not_mem_none _)

private theorem useThis (h : b.Renamed τ N b') :
    Agree (Builder.Renamed τ N) b.useThis b'.useThis := by
  refine h.bind_current fun s => ?_
  rw [h.variableScope]
  exact .ok (h.modifyRest _ _ fun _ _ _ _ _ => rfl)

private theorem callEval (h : b.Renamed τ N b') :
    Agree (Builder.Renamed τ N) b.callEval b'.callEval := by
  refine h.bind_current fun s => ?_
  rw [h.variableScope, h.stack]
  have hcaller := h.modifyRest (b.variableScope s) (fun x => { x with directEval := true })
    fun _ _ _ _ _ => rfl
  exact .ok (foldl_rel (fun _ _ h t => h.modifyRest t _ fun _ _ _ _ _ => rfl) _ hcaller)

/-! ## Closing scopes -/

private theorem letThrough (h : b.Renamed τ N b') (s r : Nat) :
    (b.letThrough s r).Renamed τ N (b'.letThrough s r) :=
  h.modifyRest s _ fun _ _ _ _ _ => rfl

private theorem resolve (h : b.Renamed τ N b') (s r v : Nat) (x : Reference) :
    (b.resolve s r v x).Renamed τ N (b'.resolve s r v (τ.reference x)) := by
  have htaints : Builder.Renamed τ N
      (if x.tainted then
        b.modifyScope s fun y => { y with taints := y.taints.insert x.name }
      else b)
      (if x.tainted then
        b'.modifyScope s fun y => { y with taints := y.taints.insert (τ.name x.name) }
      else b') := by
    split
    · refine h.modifyScope s ?_
      rintro _ _ ⟨hB, hT, hI, hblock⟩
      exact ⟨hB, hT.insert x.name, hI, hblock⟩
    · exact h
  unfold Builder.resolve
  rw [h.variableScope, h.variableScope]
  refine { htaints with
    vars := htaints.vars.modify v ?_
    references := htaints.references.modify r fun x x' hx => ⟨?_, hx.identifier, hx.implicit⟩ }
  · rintro x _ rfl
    rfl
  · rw [hx.eq]
    rfl

private theorem passOn (h : b.Renamed τ N b') (s r : Nat) :
    Agree (Builder.Renamed τ N) (b.passOn s r) (b'.passOn s r) := by
  have hupper : b'.scopes[s]?.bind (·.upper?) = b.scopes[s]?.bind (·.upper?) := by
    rcases h.scopes.cases s with ⟨hs, hs'⟩ | ⟨y, -, hs, hs', ⟨⟩⟩ <;> rw [hs, hs']
    rfl
  unfold Builder.passOn
  rw [hupper]
  cases b.scopes[s]?.bind (·.upper?) with
  | none => exact .ok (h.letThrough s r)
  | some upper =>
    dsimp only
    rw [h.pending upper]
    cases b.scopes[upper]?.bind (·.pending) with
    | none => exact .error _
    | some pending =>
      exact .ok ((h.modifyRest upper _ fun _ _ _ _ _ => rfl).letThrough s r)

private theorem settle (h : b.Renamed τ N b') (hτ : τ.Faithful N) (s r : Nat) :
    Agree (Builder.Renamed τ N) (b.settle s r) (b'.settle s r) := by
  unfold Builder.settle
  rcases h.references.cases r with ⟨hr, hr'⟩ | ⟨x, x', hr, hr', hx⟩
  · rw [hr, hr']
    exact .ok h
  · rw [hr, hr', hx.eq]
    have hname : (τ.reference x).name = τ.name x.name := rfl
    dsimp only
    rw [hname, h.variableIn? hτ]
    cases b.variableIn? x.name s with
    | some v => exact .ok (h.resolve s r v x)
    | none => exact h.passOn s r

private theorem taint (h : b.Renamed τ N b') (s r : Nat) :
    Agree (Builder.Renamed τ N) (b.taint s r) (b'.taint s r) := by
  refine passOn (h.modifyReference r ?_) s r
  exact fun _ _ hx => ⟨by rw [hx.eq]; rfl, hx.identifier, hx.implicit⟩

private theorem abandon (h : b.Renamed τ N b') (chain : List Nat) (r : Nat) :
    (b.abandon chain r).Renamed τ N (b'.abandon chain r) :=
  foldl_rel (fun _ _ h s => h.letThrough s r) chain h

private theorem createImplicit (h : b.Renamed τ N b') (hτ : τ.Faithful N) (s r : Nat) :
    (b.createImplicit s r).Renamed τ N (b'.createImplicit s r) := by
  unfold Builder.createImplicit
  rcases h.references.cases r with ⟨hr, hr'⟩ | ⟨x, x', hr, hr', hx⟩
  · rw [hr, hr']
    exact h
  · rw [hr, hr', hx.eq]
    have hname : (τ.reference x).name = τ.name x.name := rfl
    have himplicit : (τ.reference x).implicit = x.implicit.map τ.anchor := rfl
    dsimp only
    rw [hname, himplicit, h.variableIn? hτ]
    cases hcreator : x.implicit with
    | none => exact h
    | some creator =>
      cases b.variableIn? x.name s with
      | some v => exact h
      | none =>
        exact h.declareImplicit hτ s (hx.implicit creator hcreator)
          fun _ ha => absurd ha (Option.not_mem_none _)

private theorem createImplicits (h : b.Renamed τ N b') (hτ : τ.Faithful N) (s : Nat)
    (left : Array Nat) : (b.createImplicits s left).Renamed τ N (b'.createImplicits s left) := by
  refine (foldl_rel (fun _ _ h r => h.createImplicit hτ s r) left.toList h).modifyScope s ?_
  rintro y _ ⟨hB, hT, hI, hblock⟩
  refine ⟨hB, hT, ?_, hblock⟩
  revert hI
  generalize y.implicit = i
  rintro (⟨⟨hB⟩⟩ | _)
  · exact .some ⟨hB⟩
  · exact .none

private theorem settleAll (h : b.Renamed τ N b') (hτ : τ.Faithful N) (o : Options) (s : Nat)
    {y y' : Scope} (hy : Scope.Renamed τ N y y') (left : List Nat) :
    Agree (Builder.Renamed τ N) (b.settleAll o s y left) (b'.settleAll o s y' left) := by
  have hstatic : y'.isStatic = y.isStatic := by obtain ⟨-, -, -, -⟩ := hy; rfl
  have hkind : y'.kind = y.kind := by obtain ⟨-, -, -, -⟩ := hy; rfl
  have henclosing : y'.enclosing = y.enclosing := by obtain ⟨-, -, -, -⟩ := hy; rfl
  unfold Builder.settleAll
  rw [hstatic, hkind, henclosing]
  split
  · exact Agree.foldlM_same (fun _ _ h r => h.settle hτ s r) left h
  · split
    · exact Agree.foldlM_same (fun _ _ h r => h.taint s r) left h
    · exact .ok (foldl_rel (fun _ _ h r => h.abandon (s :: y.enclosing) r) left h)

private theorem closeScope (h : b.Renamed τ N b') (hτ : τ.Faithful N) (o : Options) (s : Nat) :
    Agree (Builder.Renamed τ N) (b.closeScope o s) (b'.closeScope o s) := by
  unfold Builder.closeScope
  rcases h.scopes.cases s with ⟨hs, hs'⟩ | ⟨y, y', hs, hs', hy⟩
  · rw [hs, hs']
    exact .error _
  · rw [hs, hs']
    have hpending : y'.pending = y.pending := by obtain ⟨-, -, -, -⟩ := hy; rfl
    have hkind : y'.kind = y.kind := by obtain ⟨-, -, -, -⟩ := hy; rfl
    dsimp only
    rw [hpending, hkind]
    cases y.pending with
    | none => exact .error _
    | some left =>
      have hstop : (b.modifyScope s fun x => { x with pending := none }).Renamed τ N
          (b'.modifyScope s fun x => { x with pending := none }) :=
        h.modifyRest s _ fun _ _ _ _ _ => rfl
      refine (hstop.settleAll hτ o s hy left.toList).bind fun c c' hc => .ok ?_
      split
      · exact { hc.createImplicits hτ s left with
          stack := congrArg List.tail (hc.createImplicits hτ s left).stack }
      · exact { hc with stack := congrArg List.tail hc.stack }

theorem step (h : b.Renamed τ N b') (hτ : τ.Faithful N) (o : Options) {a a' : Action}
    (ha : a.Renamed τ N a') : Agree (Builder.Renamed τ N) (b.step o a) (b'.step o a') := by
  cases ha with
  | openScope kind strict hblock => exact h.openScope hτ o kind hblock strict
  | closeScopes hnode =>
    change Agree _ (b.closeScopes o _) (b'.closeScopes o _)
    rw [Builder.closeScopes, Builder.closeScopes, h.openFor hτ hnode]
    exact Agree.foldlM_same (fun _ _ h s => h.closeScope hτ o s) _ h
  | beginSite reach =>
    cases reach with
    | innermost =>
      exact h.bind_current fun s => .ok { h with sites := congrArg (s :: ·) h.sites }
    | variableScope =>
      refine h.bind_current fun s => ?_
      rw [h.variableScope]
      exact .ok { h with sites := congrArg (b.variableScope s :: ·) h.sites }
  | endSite => exact .ok { h with sites := congrArg List.tail h.sites }
  | declare hnode hparent =>
    unfold Builder.step
    rw [h.sites]
    cases b.sites with
    | nil => exact .error _
    | cons s _ => exact .ok (h.declareIn hτ s hnode hparent)
  | refer use hi hcreator => exact h.refer hi use hcreator
  | needScope => exact h.bind_current fun _ => .ok h
  | useThis => exact h.useThis
  | callEval => exact h.callEval
  | refuseImport loc => exact .error _

theorem run (h : b.Renamed τ N b') (hτ : τ.Faithful N) (o : Options) {A A' : List Action}
    (hA : Action.AllRenamed τ N A A') : Agree (Builder.Renamed τ N) (b.run o A) (b'.run o A') :=
  Agree.foldlM hA (fun _ _ h _ _ ha => h.step hτ o ha) h

end Builder.Renamed

/-- The analysis of a renamed program is the renamed analysis of the program. -/
theorem Program.analyze_renamed (o : Options) {p : Program} (hτ : τ.Faithful (Tree.ids p)) :
    Agree (Analysis.Renamed τ (Tree.ids p)) (Program.analyze o p)
      (Program.analyze o (τ.tree p)) := by
  have hwithin : Within (Tree.ids p) (Tree.marks p) := fun m hm => List.mem_map_of_mem hm
  have hactions : Action.AllRenamed τ (Tree.ids p) (Program.actions o p)
      (Program.actions o (τ.tree p)) := (Tree.actions_renamed hτ p).1 (.code false) hwithin
  unfold Program.analyze
  refine (Builder.Renamed.empty.run hτ o hactions).bind fun b b' h => ?_
  rw [h.stack]
  cases b.stack with
  | nil => exact .ok h.toRenamed
  | cons s _ => exact .error _

/-! ## Other names -/

/-- Only names change. -/
def Renaming.ofNames (f : String → String) : Renaming :=
  ⟨id, f⟩

/-- Changing the names of a program in such a way that different names stay different, and that
`eval` and `arguments` stay the same, changes nothing but names in the analysis: the program fails
for the same reason, or all tables are the same up to names. -/
theorem Program.analyze_rename (o : Options) (p : Program) {f : String → String}
    (hf : Function.Injective f) (heval : f "eval" = "eval")
    (harguments : f "arguments" = "arguments") :
    Agree (fun a a' => a.Renamed (.ofNames f) (Tree.ids p) a' ∧
        ∀ n, a'.scopesOf n = a.scopesOf n ∧ a'.declaredBy n = a.declaredBy n)
      (Program.analyze o p) (Program.analyze o (Tree.rename f p)) := by
  have hτ : (Renaming.ofNames f).Faithful (Tree.ids p) :=
    ⟨fun _ _ _ _ h => h, hf, heval, harguments⟩
  refine (Program.analyze_renamed o hτ).mono fun a a' h => ⟨h, fun n => ⟨?_, ?_⟩⟩
  · exact congrArg Array.toList (h.owned n fun _ _ h => h)
  · exact congrArg Array.toList (h.declared n fun _ _ h => h)

/-- The loop's name and the function's name in a loop over the value of a function expression can be
exchanged. -/
theorem Program.analyze_rename_loop :
    ∃ a a', Program.analyze .es6 (.loopOverFunction id) = .ok a ∧
      Program.analyze .es6 (Tree.rename (Equiv.swap "x" "f") (Program.loopOverFunction id)) =
        .ok a' ∧
      a.Renamed (.ofNames (Equiv.swap "x" "f")) (Tree.ids (Program.loopOverFunction id)) a' := by
  have hok : (Program.analyze .es6 (.loopOverFunction id)).isOk = true := by decide +kernel
  obtain ⟨a, a', ha, ha', h, -⟩ := (Program.analyze_rename .es6 (.loopOverFunction id)
    (Equiv.swap "x" "f").injective (by decide) (by decide)).exists_ok hok
  exact ⟨a, a', ha, ha', h⟩

/-! ## Other numbers -/

/-- Only numbers change. -/
def Renaming.ofNumbers (g : Nat → Nat) : Renaming :=
  ⟨g, id⟩

/-- The analyses differ only in the numbers of the nodes `N`, and in whether a node is asked for by
its old or by its new number. -/
structure Analysis.Relabelled (g : Nat → Nat) (N : List Nat) (a a' : Analysis) : Prop where
  scopes : a'.scopes = a.scopes.map fun y =>
    { y with block := (Renaming.ofNumbers g).anchor y.block }
  vars : a'.vars = a.vars.map (Renaming.ofNumbers g).variable
  references : a'.references = a.references.map (Renaming.ofNumbers g).reference
  scopesOf : ∀ n, (∀ m ∈ N, g m = g n → m = n) → a'.scopesOf (g n) = a.scopesOf n
  scopeOf? : ∀ n, (∀ m ∈ N, g m = g n → m = n) → ∀ inner,
    a'.scopeOf? (g n) inner = a.scopeOf? n inner
  scopeAround? : ∀ n, (∀ m ∈ N, g m = g n → m = n) → ∀ inner,
    a'.scopeAround? (g n) inner = a.scopeAround? n inner
  declaredBy : ∀ n, (∀ m ∈ N, g m = g n → m = n) → a'.declaredBy (g n) = a.declaredBy n
  referenceAt? : ∀ n, (∀ m ∈ N, g m = g n → m = n) → ∀ s,
    a'.referenceAt? s (g n) = a.referenceAt? s n

namespace Analysis.Renamed

variable {g : Nat → Nat} {a a' : Analysis} (h : a.Renamed (.ofNumbers g) N a')

include h

private theorem scopes_eq : a'.scopes = a.scopes.map fun y =>
    { y with block := (Renaming.ofNumbers g).anchor y.block } := by
  apply h.scopes.eq_map
  rintro y _ ⟨hB, hT, hI, -⟩
  have himplicit : ∀ {i i' : Option ImplicitGlobals},
      Option.Rel (ImplicitGlobals.Renamed (.ofNumbers g)) i i' → i' = i := by
    rintro _ _ (⟨⟨hB⟩⟩ | _)
    · rw [hB.eq rfl]
    · rfl
  rw [hB.eq rfl, hT.eq rfl, himplicit hI]

private theorem isMain_eq : a'.isMain = a.isMain := by
  funext s
  rw [Analysis.isMain, Analysis.isMain, h.scopes_eq, Array.getElem?_map, Option.any_map]
  rfl

private theorem scopesOf_eq {n : Nat} (hn : ∀ m ∈ N, g m = g n → m = n) :
    a'.scopesOf (g n) = a.scopesOf n :=
  congrArg Array.toList (h.owned n hn)

private theorem scopeOf?_eq {n : Nat} (hn : ∀ m ∈ N, g m = g n → m = n) (inner : Bool) :
    a'.scopeOf? (g n) inner = a.scopeOf? n inner := by
  rw [Analysis.scopeOf?, Analysis.scopeOf?, h.scopesOf_eq hn, h.isMain_eq]

private theorem scopeAround?_eq (hg : ∀ n ∈ N, ∀ m ∈ N, g m = g n → m = n) {n : Nat}
    (hn : ∀ m ∈ N, g m = g n → m = n) (inner : Bool) :
    a'.scopeAround? (g n) inner = a.scopeAround? n inner := by
  have houter : ∀ around : Nat,
      (a'.scopes[around]?.bind fun outer => a'.scopeOf? outer.block.id inner) =
        a.scopes[around]?.bind fun outer => a.scopeOf? outer.block.id inner := by
    intro around
    rcases h.scopes.cases around with ⟨hs, hs'⟩ | ⟨y, -, hs, hs', ⟨-, -, -, hblock⟩⟩
    · rw [hs, hs']
      rfl
    · rw [hs, hs']
      exact h.scopeOf?_eq (hg _ hblock) inner
  unfold Analysis.scopeAround?
  rw [h.scopesOf_eq hn]
  cases (a.scopesOf n).head? with
  | none => rfl
  | some first =>
    change a'.scopes[first]?.bind (fun y => y.upper?.bind _) =
      a.scopes[first]?.bind fun y => y.upper?.bind _
    rcases h.scopes.cases first with ⟨hs, hs'⟩ | ⟨y, -, hs, hs', ⟨-, -, -, -⟩⟩
    · rw [hs, hs']
      rfl
    · rw [hs, hs']
      exact congrArg y.upper?.bind (funext houter)

private theorem referenceAt?_eq {n : Nat} (hn : ∀ m ∈ N, g m = g n → m = n) (s : Nat) :
    a'.referenceAt? s (g n) = a.referenceAt? s n := by
  have hid : ∀ r : Nat, a'.references[r]?.any (·.identifier.mark.id = g n) =
      a.references[r]?.any (·.identifier.mark.id = n) := by
    intro r
    rcases h.references.cases r with ⟨hr, hr'⟩ | ⟨x, x', hr, hr', hx⟩
    · rw [hr, hr']
      rfl
    · rw [hr, hr', hx.eq]
      exact decide_eq_decide.2 ⟨hn _ hx.identifier, congrArg g⟩
  unfold Analysis.referenceAt?
  simp only [hid]
  rw [h.scopes_eq, Array.getElem?_map]
  cases a.scopes[s]? <;> rfl

private theorem relabelled (hg : ∀ n ∈ N, ∀ m ∈ N, g m = g n → m = n) : a.Relabelled g N a' where
  scopes := h.scopes_eq
  vars := h.vars.eq_map fun _ _ hx => hx
  references := h.references.eq_map fun _ _ hx => hx.eq
  scopesOf _ hn := h.scopesOf_eq hn
  scopeOf? _ hn inner := h.scopeOf?_eq hn inner
  scopeAround? _ hn inner := h.scopeAround?_eq hg hn inner
  declaredBy n hn := congrArg Array.toList (h.declared n hn)
  referenceAt? _ hn s := h.referenceAt?_eq hn s

end Analysis.Renamed

/-- Changing the numbers of the nodes of a program in such a way that different numbers stay
different changes nothing but numbers in the analysis: the program fails for the same reason, or
all tables are the same up to numbers, and what is known of a node is found under its new number. -/
theorem Program.analyze_relabel (o : Options) (p : Program) {g : Nat → Nat}
    (hg : ∀ n ∈ Tree.ids p, ∀ m ∈ Tree.ids p, g m = g n → m = n) :
    Agree (Analysis.Relabelled g (Tree.ids p)) (Program.analyze o p)
      (Program.analyze o (Tree.relabel g p)) := by
  have hτ : (Renaming.ofNumbers g).Faithful (Tree.ids p) :=
    ⟨hg, Function.injective_id, rfl, rfl⟩
  exact (Program.analyze_renamed o hτ).mono fun a a' h => h.relabelled hg

/-- The nodes of a loop over the value of a function expression can be counted from five on, and
from zero again after ten. -/
theorem Program.analyze_relabel_loop :
    ∃ a a', Program.analyze .es6 (.loopOverFunction id) = .ok a ∧
      Program.analyze .es6 (Tree.relabel (fun n => (n + 5) % 11) (Program.loopOverFunction id)) =
        .ok a' ∧
      a.Relabelled (fun n => (n + 5) % 11) (Tree.ids (Program.loopOverFunction id)) a' := by
  have hok : (Program.analyze .es6 (.loopOverFunction id)).isOk = true := by decide +kernel
  exact (Program.analyze_relabel .es6 (.loopOverFunction id) (by decide +kernel)).exists_ok hok

end EcmaScope
