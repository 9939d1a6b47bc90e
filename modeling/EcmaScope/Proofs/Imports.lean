import EcmaScope.Proofs.Deeds
import EcmaScope.Proofs.Lasting
import EcmaScope.Proofs.Spans

/-!
# Imports outside of modules

An import is allowed in a module only. Elsewhere the walk ends at the first import that it comes to,
however deep that one stands, and the error says where it stands. If the nodes are distinct, nothing
else can end the walk before.

## Main definitions

* `Action.refused?`: where the import stands that an action refuses.
* `Program.imports`: where all imports stand that are looked at.

## Main results

* `Builder.run_eq_of_orderly`: a run that finds what it needs ends with the first import that is
  refused, or it does not fail.
* `Tree.Deed.import?_of_refused`: only imports are refused.
* `Program.refuses_imports_iff`: when an analysis fails because of an import, and because of which.
-/

namespace EcmaScope

open EcmaScope.Action

/-- Where the import stands that an action refuses. -/
def Action.refused? : Action → Option Loc
  | .refuseImport loc => some loc
  | _ => none

/-- Where the import stands that a piece is, if the piece is looked at. -/
def Piece.import? (u : Piece) : Option Loc :=
  match u.role with
  | .skipped => none
  | _ => u.tree.import?

/-- Where the imports of a program stand, in the order of the source text, without those in parts
that are not looked at. -/
def Program.imports (o : Options) (p : Program) : List Loc :=
  (Program.pieces o p).filterMap Piece.import?

private theorem Piece.import?_eq_some_iff {u : Piece} {loc : Loc} :
    u.import? = some loc ↔ u.role ≠ .skipped ∧ u.tree.import? = some loc := by
  obtain ⟨c, role, t⟩ := u
  cases role <;> simp [Piece.import?]

/-! ## Runs that end with an import -/

namespace Builder

variable {o : Options} {b : Builder}

private theorem current_bind_ne_refused {f : Nat → Except AnalysisError Builder} {loc : Loc}
    (hf : ∀ s rest, b.stack = s :: rest → f s ≠ .error (.importOutsideModule loc)) :
    b.current >>= f ≠ .error (.importOutsideModule loc) := by
  cases hstack : b.stack with
  | nil =>
    rw [current_bind_of_nil hstack]
    intro h
    cases h
  | cons s rest =>
    rw [current_bind_of_cons hstack]
    exact hf s rest hstack

/-- An action does not end with an import that it does not refuse. -/
theorem step_ne_refused (hb : WellFormed b) {a : Action} (ha : a.refused? = none) (loc : Loc) :
    step o b a ≠ .error (.importOutsideModule loc) := by
  cases a with
  | openScope kind block strict =>
    have hsome : ∀ u ∈ b.stack, (b.frame? u).isSome := fun u hu =>
      (hb.layout.lt_size_iff u).mp (hb.layout.stack_lt hu)
    rcases openScope_spec o hsome kind block strict with ⟨-, -, herror⟩ | ⟨-, -, b', -, -, hok, -⟩
    · rw [step, herror]
      intro h
      cases h
    · rw [step, hok]
      intro h
      cases h
  | closeScopes n =>
    obtain ⟨b', hb', -⟩ := closeAll_spec o True hb (openFor_append hb n).symm
    rw [step, closeScopes, hb']
    intro h
    cases h
  | beginSite reach => cases reach <;> exact current_bind_ne_refused fun _ _ _ h => by cases h
  | endSite =>
    intro h
    cases h
  | declare d =>
    rw [step]
    cases b.sites <;> intro h <;> cases h
  | refer i use creator =>
    refine current_bind_ne_refused fun s rest hstack => ?_
    obtain ⟨scope, pending, hs, hpending⟩ := exists_pending hb.layout hstack
    rw [hs, Option.bind_some, hpending]
    intro h
    cases h
  | needScope | useThis | callEval => exact current_bind_ne_refused fun _ _ _ h => by cases h
  | refuseImport => cases ha

/-- A run that finds what it needs ends with the first import that is refused; if there is none, it
does not fail. -/
theorem run_eq_of_orderly (hb : WellFormed b) {A : List Action} (hA : b.outline.Orderly A) :
    match A.findSome? refused? with
    | some loc => run o b A = .error (.importOutsideModule loc)
    | none => ∃ b', run o b A = .ok b' := by
  induction A generalizing b with
  | nil => exact ⟨b, rfl⟩
  | cons a A ih =>
    rw [List.findSome?_cons, run_cons]
    cases ha : a.refused? with
    | some loc =>
      cases a with
      | refuseImport =>
        cases ha
        rfl
      | _ => cases ha
    | none =>
      have hspec := step_spec o hb a
      cases hstep : step o b a with
      | ok b₁ =>
        rw [hstep] at hspec
        cases hspec with
        | done h => exact ih (h.moves.wellFormed hb) (hA.2 _ h.outline)
      | error e =>
        rw [hstep] at hspec
        cases hspec with
        | refused loc => exact absurd hstep (step_ne_refused hb ha loc)
        | lacking h => exact absurd hA.1 h

end Builder

/-- If the nodes are distinct, the first import that is refused is what an analysis fails with. -/
theorem Program.analyze_eq_refused (o : Options) {p : Program} (hids : (Tree.ids p).Nodup) :
    match (Program.actions o p).findSome? refused? with
    | some loc => Program.analyze o p = .error (.importOutsideModule loc)
    | none => ∃ a, Program.analyze o p = .ok a := by
  have hrun := Builder.run_eq_of_orderly (o := o) .empty (Program.orderly_actions o hids)
  split at hrun
  · next loc _ =>
    unfold Program.analyze
    rw [hrun]
    rfl
  · obtain ⟨b, hb⟩ := hrun
    rcases Program.analyze_spec o p with ⟨b', hb', -⟩ | ⟨loc, herror⟩ | ⟨-, hdistinct⟩
    · exact ⟨_, hb'⟩
    · unfold Program.analyze at herror
      rw [hb] at herror
      dsimp only [bind, Except.bind] at herror
      cases hstack : b.stack <;> rw [hstack] at herror <;> cases herror
    · exact absurd hids hdistinct

/-! ## Imports and actions -/

private theorem Action.findSome?_refused_append {A : List Action}
    (hA : All (fun a => a.refused? = none) A) (B : List Action) :
    (A ++ B).findSome? refused? = B.findSome? refused? := by
  rw [List.findSome?_append, List.findSome?_eq_none_iff.mpr hA, Option.none_or]

namespace Tree

/-- Only imports are refused, and only outside of modules. -/
theorem Deed.import?_of_refused {c : Category} {o : Options} {place : Place} {t : Tree c}
    {a : Action} (h : t.Deed o place a) {loc : Loc} (hrefused : a.refused? = some loc) :
    (o.isEs6 && o.isModule) = false ∧ t.import? = some loc := by
  cases h with
  | routine ha =>
    cases a with
    | refuseImport => exact ha.elim
    | _ => cases hrefused
  | opens | assigns => cases hrefused
  | refuses hmodule himport => exact ⟨hmodule, himport.trans hrefused⟩

/-- The actions of statements one after the other. -/
theorem actions_toList (o : Options) : (l : Tree (.list .statement)) →
    l.actions o (.code false) = l.toList.flatMap (Tree.actions o (.code false))
  | .nil => rfl
  | .cons head tail => by
    change head.actions o (.code false) ++ tail.actions o (.code false) =
      (head :: tail.toList).flatMap _
    rw [List.flatMap_cons, actions_toList o tail]

/-- Where no import is looked at, none is refused. -/
theorem accept {c : Category} {o : Options} (t : Tree c) (place : Place)
    (h : (t.pieces o .code).filterMap Piece.import? = []) :
    All (fun a => a.refused? = none) (t.actions o place) := by
  intro a ha
  cases hrefused : a.refused? with
  | none => rfl
  | some loc =>
    obtain ⟨u, hu, hrole, place', hdeed⟩ := t.done o .code rfl place a ha
    have himport := ((u.tree.all_deeds a hdeed).import?_of_refused hrefused).2
    rw [← Piece.import?_eq_some_iff.mpr ⟨hrole, himport⟩]
    exact List.filterMap_eq_nil_iff.mp h u hu

end Tree

namespace Program

variable {o : Options} {p : Program}

/-- An import that an action of a program refuses is looked at, and it stands outside of a
module. -/
theorem mem_imports_of_refused {loc : Loc}
    (h : (Program.actions o p).findSome? refused? = some loc) :
    (o.isEs6 && o.isModule) = false ∧ loc ∈ Program.imports o p := by
  obtain ⟨a, ha, hrefused⟩ := List.exists_of_findSome?_eq_some h
  obtain ⟨u, hu, hrole, place, hdeed⟩ := Program.done o p a ha
  obtain ⟨hmodule, himport⟩ := (u.tree.all_deeds a hdeed).import?_of_refused hrefused
  exact ⟨hmodule, List.mem_filterMap.mpr ⟨u, hu, Piece.import?_eq_some_iff.mpr ⟨hrole, himport⟩⟩⟩

/-- Outside of modules an import is refused if it is looked at. -/
theorem exists_refused {loc : Loc} (hmodule : (o.isEs6 && o.isModule) = false)
    (h : loc ∈ Program.imports o p) :
    ∃ loc', (Program.actions o p).findSome? refused? = some loc' := by
  obtain ⟨⟨c, role, t⟩, hu, himport⟩ := List.mem_filterMap.mp h
  obtain ⟨hrole, himport⟩ := Piece.import?_eq_some_iff.mp himport
  cases t with
  | importDeclaration m specifiers source =>
    obtain ⟨-, method, hactions, -⟩ := Program.spans o p _ hu hrole rfl
    have hrefuse : Action.refuseImport m.loc ∈ Program.actions o p := by
      refine hactions.subset ?_
      change _ ∈ if _ then _ else _
      rw [hmodule]
      exact List.mem_singleton_self _
    rw [← Option.isSome_iff_exists, List.findSome?_isSome_iff]
    exact ⟨_, hrefuse, rfl⟩
  | _ => cases himport

/-- An import among the statements of a program is the first that is refused, if none is looked at
in the statements before it. -/
theorem refused_of_statement (hmodule : (o.isEs6 && o.isModule) = false) {m im : Mark}
    {body : Tree (.list .statement)} {before after : List Stmt}
    {specifiers : Tree (.list .importSpecifier)} {source : Literal}
    (hbody : body.toList = before ++ .importDeclaration im specifiers source :: after)
    (hbefore : ∀ s ∈ before, (Tree.pieces o .code s).filterMap Piece.import? = []) :
    (Program.actions o (.program m body)).findSome? refused? = some im.loc := by
  have hfirst : All (fun a => a.refused? = none)
      (before.flatMap (Tree.actions o (.code false))) :=
    .flatMap fun s hs => Tree.accept s (.code false) (hbefore s hs)
  have himport : Tree.actions o (.code false) (.importDeclaration im specifiers source) =
      [.refuseImport im.loc] := by
    change (if _ then _ else _) = _
    rw [hmodule]
    rfl
  change (_ ++ _ ++ _ ++ body.actions o (.code false) ++ _).findSome? refused? = _
  rw [body.actions_toList, hbody, List.flatMap_append, List.flatMap_cons, himport]
  rw [List.append_assoc, List.append_assoc, List.append_assoc, List.append_assoc,
    findSome?_refused_append (.single rfl),
    findSome?_refused_append (.ite (fun _ => .single rfl) fun _ => .nil),
    findSome?_refused_append (.ite (fun _ => .single rfl) fun _ => .nil),
    findSome?_refused_append hfirst]
  rfl

end Program

/-- If the nodes are distinct, the analysis of a program fails because of an import if and only if
the program is not a module and an import is looked at, at whatever depth. The error says where one
of these imports stands. If it is a statement of the program itself and no import is looked at in
the statements before it, as when the program begins with its imports, that is the one. -/
theorem Program.refuses_imports_iff (o : Options) {p : Program} (hids : (Tree.ids p).Nodup) :
    ((∃ loc, Program.analyze o p = .error (.importOutsideModule loc)) ↔
        (o.isEs6 && o.isModule) = false ∧ Program.imports o p ≠ []) ∧
      (∀ loc, Program.analyze o p = .error (.importOutsideModule loc) →
        loc ∈ Program.imports o p) ∧
      ∀ (m im : Mark) (body : Tree (.list .statement)) (before after : List Stmt)
        (specifiers : Tree (.list .importSpecifier)) (source : Literal),
        p = .program m body →
        body.toList = before ++ .importDeclaration im specifiers source :: after →
        (∀ s ∈ before, (Tree.pieces o .code s).filterMap Piece.import? = []) →
        (o.isEs6 && o.isModule) = false →
        Program.analyze o p = .error (.importOutsideModule im.loc) := by
  have hanalyze := Program.analyze_eq_refused o hids
  have hrefused {loc : Loc} (h : Program.analyze o p = .error (.importOutsideModule loc)) :
      (Program.actions o p).findSome? refused? = some loc := by
    split at hanalyze
    · next loc' hloc =>
      rw [h] at hanalyze
      cases hanalyze
      exact hloc
    · obtain ⟨a, ha⟩ := hanalyze
      rw [h] at ha
      cases ha
  have hfails {loc : Loc} (h : (Program.actions o p).findSome? refused? = some loc) :
      Program.analyze o p = .error (.importOutsideModule loc) := by
    rwa [h] at hanalyze
  refine ⟨⟨?_, ?_⟩, fun loc h => (Program.mem_imports_of_refused (hrefused h)).2, ?_⟩
  · rintro ⟨loc, h⟩
    obtain ⟨hmodule, hmem⟩ := Program.mem_imports_of_refused (hrefused h)
    exact ⟨hmodule, List.ne_nil_of_mem hmem⟩
  · rintro ⟨hmodule, himports⟩
    obtain ⟨loc, hloc⟩ := List.exists_mem_of_ne_nil _ himports
    exact (Program.exists_refused hmodule hloc).imp fun _ => hfails
  · rintro m im body before after specifiers source rfl hbody hbefore hmodule
    exact hfails (Program.refused_of_statement hmodule hbody hbefore)

/-- The program `x; import "m"; function f() { import "m"; }`, every node of which stands where its
number says. -/
def Program.importsInScript : Program :=
  let mark (n : Nat) : Mark := ⟨n, ⟨n, n⟩⟩
  let source (n : Nat) : Literal := ⟨mark n, .string "m", none, none, none⟩
  .program (mark 0) (.cons (.expressionStatement (mark 1) (.identifier ⟨mark 2, "x"⟩) none)
    (.cons (.importDeclaration (mark 3) .nil (source 4))
      (.cons (.functionDeclaration (.function .declaration (mark 5) (some ⟨mark 6, "f"⟩) .nil
        (.blockBody (.block (mark 7) (.cons (.importDeclaration (mark 8) .nil (source 9)) .nil)))
        false false false)) .nil)))

/-- Both imports are looked at, and the error is about the first. -/
theorem Program.refuses_imports_iff_script :
    Program.imports .es6 .importsInScript = [⟨3, 3⟩, ⟨8, 8⟩] ∧
      Program.analyze .es6 .importsInScript = .error (.importOutsideModule ⟨3, 3⟩) := by
  have hids : (Tree.ids Program.importsInScript).Nodup := by decide
  refine ⟨by decide, ?_⟩
  exact (Program.refuses_imports_iff .es6 hids).2.2 ⟨0, ⟨0, 0⟩⟩ ⟨3, ⟨3, 3⟩⟩ _ [_] [_] .nil _ rfl rfl
    (by simp only [List.forall_mem_singleton]; decide) rfl

end EcmaScope
