import EcmaScope.Proofs.Capture
import EcmaScope.Proofs.Regions
import EcmaScope.Proofs.Spans

/-!
# Names of classes and of function expressions

The members of a class and the code of a function expression see the name of the class or function
in a scope of its own, right inside the scope where the construct stands. So there the name cannot
be mistaken for a variable of the same name outside, and nothing outside sees that scope; in
particular, the expression that a class extends does not.

## Main definitions

* `Analysis.Confines`: a scope keeps a name to the references to given identifiers.

## Main results

* `Program.confines_of_region`: the scope of a name keeps the name to what is walked inside.
* `Program.names_confined`: this holds for all classes and all function expressions.
-/

namespace EcmaScope

/-- The scope `s` binds a name by the definition `d`, and the references to the identifiers with the
numbers `ids` are those inside it. A reference by the name that is inside stands for a variable of
the scope or of a scope inside it, unless a call of `eval` has made a scope on the way dynamic;
references that are not inside stand for no variable of the scope. -/
structure Analysis.Confines (a : Analysis) (optimistic : Bool) (s : Nat) (d : Definition)
    (ids : List Nat) : Prop where
  bindsBy : a.BindsBy s d
  inside_iff : ∀ (r : Nat) (x : Reference), a.references[r]? = some x →
    (a.Inside x.scope s ↔ x.identifier.mark.id ∈ ids)
  captured : ∀ (r : Nat) (x : Reference), a.references[r]? = some x →
    x.identifier.mark.id ∈ ids → x.name = d.name.name →
      (∃ v z, x.resolved = some v ∧ a.vars[v]? = some z ∧ a.variableIn? x.name z.scope = some v ∧
        a.Inside z.scope s) ∨
      x.resolved = none ∧ optimistic = false ∧ ∃ u z, a.Inside x.scope u ∧ a.Inside u s ∧
        a.scopes[u]? = some z ∧ z.isStatic = false ∧
        ∃ e w, a.Inside e u ∧ a.scopes[e]? = some w ∧ w.directEval = true
  hidden : ∀ (r : Nat) (x : Reference), a.references[r]? = some x →
    x.identifier.mark.id ∉ ids → ∀ v z, x.resolved = some v → a.vars[v]? = some z → z.scope ≠ s

section

variable {o : Options} {p : Program} {a : Analysis}

/-- A scope that is opened for a name keeps the name to what is walked before it is closed. -/
theorem Program.confines_of_region (hids : (Tree.ids p).Nodup) (h : Program.analyze o p = .ok a)
    {s : Nat} {kind : ScopeKind} {block : Anchor} (hopens : a.Opens s kind block)
    (hkind : kind ∉ [.global, .withStatement]) {d : Definition} (hbinds : a.BindsBy s d)
    {ids : List Nat} (hinside : ∀ (r : Nat) (x : Reference), a.references[r]? = some x →
      (a.Inside x.scope s ↔ x.identifier.mark.id ∈ ids)) : a.Confines o.optimistic s d ids where
  bindsBy := hbinds
  inside_iff := hinside
  captured r x hx hmem hname := by
    obtain ⟨y, hy, rfl, -⟩ := hopens
    obtain ⟨v, -, hv, -⟩ := hbinds
    rw [← hname, Analysis.variableIn?, hy] at hv
    exact Program.captured hids h hy hkind hx hv ((hinside r x hx).mpr hmem)
  hidden r x hx hmem v z hv hz hs := by
    have hscope := Program.inside_of_resolved hids h hx hv hz
    rw [hs] at hscope
    exact hmem ((hinside r x hx).mp hscope)

/-- A construct that opens a scope for a name and closes it at its end. -/
theorem Program.exists_confines (hids : (Tree.ids p).Nodup) (h : Program.analyze o p = .ok a)
    {c : Category} {t : Tree c} (ht : t.pieces o .code <:+: Program.pieces o p) {method : Bool}
    (hactions : t.actions o (.code method) <:+: Program.actions o p) {B V : List Action}
    {d : Definition} {kind : ScopeKind} {block : Anchor} {strict : Bool}
    (hsplit : t.actions o (.code method) =
      B ++ Action.scope kind block strict [.declare d] ++ V ++ [Action.closeScopes block.id])
    (hkind : kind ∉ [.global, .withStatement]) (hclose : .closeScopes block.id ∉ V)
    {Q : List Piece} (hQ : Q <:+: t.pieces o .code)
    (huses : ↑(V.flatMap Action.uses) = (ledger o Q).1) :
    ∃ s, a.Opens s kind block ∧
      a.Confines o.optimistic s d ((Q.flatMap Piece.marks).map (·.id)) := by
  have henclosed := t.actions_nested o (.code method)
  rw [hsplit] at hactions henclosed
  obtain ⟨s, hopens, hbinds, hinside⟩ :=
    Program.exists_region hids h hactions henclosed hclose (hQ.trans ht) huses
  exact ⟨s, hopens, Program.confines_of_region hids h hopens hkind hbinds hinside⟩

private theorem Analysis.Confines.perm {optimistic : Bool} {s : Nat} {d : Definition}
    {I J : List Nat} (h : a.Confines optimistic s d I) (hIJ : I.Perm J) :
    a.Confines optimistic s d J where
  bindsBy := h.bindsBy
  inside_iff r x hx := (h.inside_iff r x hx).trans hIJ.mem_iff
  captured r x hx hmem := h.captured r x hx (hIJ.mem_iff.mpr hmem)
  hidden r x hx hmem := h.hidden r x hx fun hI => hmem (hIJ.mem_iff.mp hI)

/-! ## Classes -/

/-- The actions of a class with a name. -/
theorem Tree.actions_class (hes6 : o.isEs6 = true) (form : ClassForm) (m : Mark) (i : Identifier)
    (superclass : Tree (.optional .expression)) (body : Tree .classBody) (method : Bool) :
    (Tree.classNode form m (some i) superclass body).actions o (.code method) =
      ((if form = .declaration then className ⟨.classNode form, m⟩ (some i) else []) ++
        superclass.actions o (.code method)) ++
      Action.scope .classBody ⟨.classNode form, m⟩ true
        [.declare ⟨.className, i, ⟨.classNode form, m⟩⟩] ++
      body.actions o (.code method) ++ [Action.closeScopes m.id] := by
  change _ ++ _ ++ (if o.isEs6 then _ else _) ++ _ ++ _ = _
  rw [if_pos hes6]
  rfl

/-- The name of a class is kept to the members of the class. -/
theorem Program.exists_class_scope (hids : (Tree.ids p).Nodup) (h : Program.analyze o p = .ok a)
    (hes6 : o.isEs6 = true) {form : ClassForm} {role : Role} {m : Mark} {i : Identifier}
    {superclass : Tree (.optional .expression)} {body : Tree .classBody}
    (hu : ⟨_, role, .classNode form m (some i) superclass body⟩ ∈ Program.pieces o p)
    (hrole : role ≠ .skipped) :
    ∃ s, a.Opens s .classBody ⟨.classNode form, m⟩ ∧
      a.Confines o.optimistic s ⟨.className, i, ⟨.classNode form, m⟩⟩ body.ids := by
  obtain ⟨rfl, method, hactions, -⟩ := Program.spans o p _ hu hrole rfl
  have ht := p.gathered o .code _ hu
  have hclose : .closeScopes m.id ∉ body.actions o (.code method) := fun hmem => by
    have hbody := (body.actions_nested o (.code method)).mem_of_closeScopes hmem
    refine (List.nodup_cons.mp (Program.nodup_ids_of_infix hids ht)).1 ?_
    exact List.mem_cons_of_mem _ (by simp [hbody])
  have hpart : body.pieces o .code <:+:
      (Tree.classNode form m (some i) superclass body).pieces o .code :=
    (List.suffix_append (_ :: superclass.pieces o .code) _).isInfix
  obtain ⟨I, -, hphrase⟩ := (body.walked o).speaks method
  obtain ⟨s, hopens, hconfines⟩ := Program.exists_confines hids h ht hactions
    (Tree.actions_class hes6 form m i superclass body method) (by simp) hclose hpart hphrase.uses
  exact ⟨s, hopens, hconfines.perm (body.perm_ids o .code)⟩

/-! ## Function expressions -/

/-- The actions of a function expression with a name. -/
theorem Tree.actions_functionExpression (o : Options) (m : Mark) (i : Identifier)
    (params : Tree (.list .pattern)) (body : Tree .functionBody)
    (generator async expression method : Bool) : ∃ strict,
    (Tree.function .expression m (some i) params body generator async expression).actions o
        (.code method) =
      [] ++ Action.scope .functionName ⟨.function .expression, m⟩ false
        [.declare ⟨.functionName, i, ⟨.function .expression, m⟩⟩] ++
      ([Action.openScope .function ⟨.function .expression, m⟩ strict, .beginSite .innermost] ++
        params.actions o (.parameters ⟨.function .expression, m⟩ 0) ++ [Action.endSite] ++
        body.actions o (.code false)) ++ [Action.closeScopes m.id] := by
  refine ⟨FunctionForm.expression = .arrow || (Place.code method).isMethod ||
    FunctionBody.hasUseStrict o.directive body, ?_⟩
  change functionName .expression _ (some i) ++ _ ++ _ ++ _ ++ _ ++ _ = _
  rw [Builder.functionName_expression]
  simp only [List.append_assoc, List.nil_append]

/-- The name of a function expression is kept to its parameters and its body. -/
theorem Program.exists_functionName_scope (hids : (Tree.ids p).Nodup)
    (h : Program.analyze o p = .ok a) {role : Role} {m : Mark} {i : Identifier}
    {params : Tree (.list .pattern)} {body : Tree .functionBody}
    {generator async expression : Bool}
    (hu : ⟨_, role, .function .expression m (some i) params body generator async expression⟩ ∈
      Program.pieces o p) (hrole : role ≠ .skipped) :
    ∃ s, a.Opens s .functionName ⟨.function .expression, m⟩ ∧
      a.Confines o.optimistic s ⟨.functionName, i, ⟨.function .expression, m⟩⟩
        (params.ids ++ body.ids) := by
  obtain ⟨rfl, method, hactions, -⟩ := Program.spans o p _ hu hrole rfl
  have ht := p.gathered o .code _ hu
  obtain ⟨strict, hsplit⟩ :=
    Tree.actions_functionExpression o m i params body generator async expression method
  let block : Anchor := ⟨.function .expression, m⟩
  have hclose : .closeScopes m.id ∉
      [Action.openScope .function block strict, .beginSite .innermost] ++
        params.actions o (.parameters block 0) ++ [Action.endSite] ++
        body.actions o (.code false) := by
    intro hmem
    have hparts : .closeScopes m.id ∈ params.actions o (.parameters block 0) ∨
        .closeScopes m.id ∈ body.actions o (.code false) := by simpa using hmem
    refine (List.nodup_cons.mp (Program.nodup_ids_of_infix hids ht)).1 (List.mem_cons_of_mem _ ?_)
    change m.id ∈ (params.marks ++ body.marks).map (·.id)
    rw [List.map_append]
    refine List.mem_append.mpr (hparts.imp ?_ ?_)
    · exact (params.actions_nested o (.parameters block 0)).mem_of_closeScopes
    · exact (body.actions_nested o (.code false)).mem_of_closeScopes
  have hpart : params.pieces o (.target 0) ++ body.pieces o .code <:+:
      (Tree.function .expression m (some i) params body generator async expression).pieces o
        .code :=
    (List.suffix_cons _ _).isInfix
  obtain ⟨I, -, hparams⟩ := Speaks.parameters block params 0 (params.walked o).evaluated
  obtain ⟨J, -, hbody⟩ := (body.walked o).speaks false
  obtain ⟨s, hopens, hconfines⟩ :=
    Program.exists_confines hids h ht hactions hsplit (by simp) hclose hpart (by
      rw [ledger_append, Prod.fst_add, ← hparams.uses, ← hbody.uses, Multiset.coe_add]
      simp [Action.uses, block])
  refine ⟨s, hopens, hconfines.perm ?_⟩
  rw [List.flatMap_append, List.map_append]
  exact (params.perm_ids o (.target 0)).append (body.perm_ids o .code)

/-- The members of a class and the code of a function expression see the name of the construct in a
scope of its own, and nothing else sees that scope: neither what is outside nor, for a class, the
expression that it extends. -/
theorem Program.names_confined (hids : (Tree.ids p).Nodup) (h : Program.analyze o p = .ok a) :
    (∀ form role m i superclass body,
      ⟨_, role, .classNode form m (some i) superclass body⟩ ∈ Program.pieces o p →
      role ≠ .skipped → o.isEs6 = true →
        superclass.ids.Disjoint body.ids ∧ ∃ s, a.Opens s .classBody ⟨.classNode form, m⟩ ∧
          a.Confines o.optimistic s ⟨.className, i, ⟨.classNode form, m⟩⟩ body.ids) ∧
      ∀ role m i params body generator async expression,
        ⟨_, role, .function .expression m (some i) params body generator async expression⟩ ∈
          Program.pieces o p → role ≠ .skipped →
        ∃ s, a.Opens s .functionName ⟨.function .expression, m⟩ ∧
          a.Confines o.optimistic s ⟨.functionName, i, ⟨.function .expression, m⟩⟩
            (params.ids ++ body.ids) := by
  constructor
  · intro form role m i superclass body hu hrole hes6
    have ht := p.gathered o .code _ hu
    refine ⟨?_, Program.exists_class_scope hids h hes6 hu hrole⟩
    have hnodup : (m.id :: i.mark.id :: (superclass.marks ++ body.marks).map (·.id)).Nodup :=
      Program.nodup_ids_of_infix hids ht
    rw [List.map_append] at hnodup
    exact List.disjoint_of_nodup_append (List.nodup_cons.mp (List.nodup_cons.mp hnodup).2).2
  · exact fun role m i params body generator async expression hu hrole =>
      Program.exists_functionName_scope hids h hu hrole

end

/-- The program `class C extends C { m() { C; (function C() { C }); } }`. -/
def Program.classExtendingItself : Program :=
  let mark (n : Nat) : Mark := ⟨n, ⟨n, n⟩⟩
  let use (n : Nat) : Stmt := .expressionStatement (mark n) (.identifier ⟨mark (n + 1), "C"⟩) none
  .program (mark 0) (.cons (.classDeclaration (.classNode .declaration (mark 1)
    (some ⟨mark 2, "C"⟩) (.present (.identifier ⟨mark 3, "C"⟩)) (.classBody (mark 4) (.cons
      (.method (mark 5) (.identifier ⟨mark 6, "m"⟩) (.function .expression (mark 7) none .nil
        (.blockBody (.block (mark 8) (.cons (use 9) (.cons (.expressionStatement (mark 11)
          (.functionExpression (.function .expression (mark 12) (some ⟨mark 13, "C"⟩) .nil
            (.blockBody (.block (mark 14) (.cons (use 15) .nil))) false false false)) none) .nil))))
        false false false) .method false false) .nil)))) .nil)

/-- The class that is extended is looked up outside, what the method refers to is the class, and
what the function refers to is the function. -/
theorem Program.names_confined_class : (Tree.ids Program.classExtendingItself).Nodup ∧
    ∃ a s t, Program.analyze .es6 .classExtendingItself = .ok a ∧
      (a.references.toList.map fun x => (x.identifier.mark.id, x.resolved)) =
        [(3, none), (10, some 1), (16, some 3)] ∧
      a.Opens s .classBody ⟨.classNode .declaration, ⟨1, ⟨1, 1⟩⟩⟩ ∧
      a.Confines false s ⟨.className, ⟨⟨2, ⟨2, 2⟩⟩, "C"⟩, ⟨.classNode .declaration, ⟨1, ⟨1, 1⟩⟩⟩⟩
        [4, 5, 6, 7, 8, 9, 10, 11, 12, 13, 14, 15, 16] ∧
      a.Opens t .functionName ⟨.function .expression, ⟨12, ⟨12, 12⟩⟩⟩ ∧
      a.Confines false t
        ⟨.functionName, ⟨⟨13, ⟨13, 13⟩⟩, "C"⟩, ⟨.function .expression, ⟨12, ⟨12, 12⟩⟩⟩⟩
        [14, 15, 16] := by
  have hids : (Tree.ids Program.classExtendingItself).Nodup := by decide
  have hresolved : ((Program.analyze .es6 .classExtendingItself).toOption.map fun a =>
      a.references.toList.map fun x => (x.identifier.mark.id, x.resolved)) =
    some [(3, none), (10, some 1), (16, some 3)] := by decide +kernel
  cases h : Program.analyze .es6 .classExtendingItself with
  | error e =>
    rw [h] at hresolved
    cases hresolved
  | ok a =>
    rw [h] at hresolved
    obtain ⟨hclasses, hfunctions⟩ := Program.names_confined hids h
    have hclass : (Program.pieces .es6 .classExtendingItself)[3]? = some _ := rfl
    have hfunction : (Program.pieces .es6 .classExtendingItself)[20]? = some _ := rfl
    obtain ⟨-, s, hs, hinside⟩ :=
      hclasses _ _ _ _ _ _ (List.mem_of_getElem? hclass) (by decide) rfl
    obtain ⟨t, ht, hinside'⟩ :=
      hfunctions _ _ _ _ _ _ _ _ (List.mem_of_getElem? hfunction) (by decide)
    exact ⟨hids, a, s, t, rfl, Option.some.inj hresolved, hs, hinside, ht, hinside'⟩

end EcmaScope
