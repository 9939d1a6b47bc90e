import EcmaScope.Builder
import EcmaScope.Proofs.Renaming
import EcmaScope.Proofs.Roles

/-!
# Directives told by their marks and by their text

Directives are told by the marks of the tree, or by the string literals that the code begins with.
If the marks are what a parser makes of the source text, the two ways find the same directives, and
it does not matter for the analysis which one is chosen.

## Main definitions

* `Annotated`: the directives that a body begins with are marked, each with its text between the
  quotes, and nothing else is marked.
* `Program.IsAnnotated`: so are the body of the program and the bodies of all functions in it.

## Main results

* `hasUseStrict_marked`: both ways find the same directive for strict mode.
* `Tree.acts_alike`: both ways lead to the same actions.
* `Program.analyze_directive`: both ways lead to the same analysis.
-/

namespace EcmaScope

/-! ## Annotated bodies -/

/-- The statement consists of a string literal. -/
def Stmt.isString : Stmt → Bool
  | .expressionStatement _ (.literal l) _ => l.value.string?.isSome
  | _ => false

/-- The statement is marked as a directive, and the mark is the text of its literal between the
quotes. -/
def Stmt.isQuotedDirective : Stmt → Bool
  | .expressionStatement _ (.literal l) (some d) =>
    l.raw = some ("'" ++ d ++ "'") || l.raw = some ("\"" ++ d ++ "\"")
  | _ => false

/-- The statement is marked as a directive, or is a directive by its type. -/
def Stmt.isMarked : Stmt → Bool
  | .directiveStatement .. => true
  | .expressionStatement _ _ d => d.isSome
  | _ => false

/-- The strings that the body begins with are marked as directives, and no other statement is. -/
def Annotated (body : List Stmt) : Prop :=
  (∀ s ∈ body.takeWhile Stmt.isString, Stmt.isQuotedDirective s = true) ∧
    ∀ s ∈ body.dropWhile Stmt.isString, Stmt.isMarked s = false

instance (body : List Stmt) : Decidable (Annotated body) :=
  inferInstanceAs (Decidable (_ ∧ _))

/-- Between quotes, it is the directive for strict mode that asks for strict mode. -/
private theorem isUseStrictText_quoted {q : String} (hq : q = "'" ∨ q = "\"") (d : String) :
    isUseStrictText (q ++ d ++ q) = decide (d = "use strict") := by
  rw [isUseStrictText, Bool.eq_iff_iff]
  simp only [Bool.or_eq_true, decide_eq_true_eq, String.ext_iff, String.toList_append]
  obtain rfl | rfl := hq
  · have hcancel : d.toList ++ ['\''] = "use strict".toList ++ ['\''] ↔ _ :=
      List.append_left_inj ['\'']
    simpa using hcancel
  · have hcancel : d.toList ++ ['"'] = "use strict".toList ++ ['"'] ↔ _ :=
      List.append_left_inj ['"']
    simpa using hcancel

/-- A directive with its mark asks for strict mode by the mark if it does so by its text. -/
theorem Stmt.directive?_quoted {s : Stmt} (hstring : Stmt.isString s = true)
    (h : Stmt.isQuotedDirective s = true) :
    ∃ strict, Stmt.directive? true s = some strict ∧ Stmt.directive? false s = some strict := by
  cases s with
  | expressionStatement m e directive =>
    cases e with
    | literal l =>
      cases directive with
      | none => cases h
      | some d =>
        obtain ⟨text, htext⟩ := Option.isSome_iff_exists.mp hstring
        refine ⟨decide (d = "use strict"), rfl, ?_⟩
        have hraw : l.raw = some ("'" ++ d ++ "'") ∨ l.raw = some ("\"" ++ d ++ "\"") := by
          simpa [Stmt.isQuotedDirective] using h
        change l.value.string?.map (isUseStrict l.raw) = _
        rw [htext, Option.map_some]
        rcases hraw with hraw | hraw <;> rw [hraw]
        · exact congrArg some (isUseStrictText_quoted (.inl rfl) d)
        · exact congrArg some (isUseStrictText_quoted (.inr rfl) d)
    | _ => cases h
  | _ => cases h

/-- What is neither a string nor marked is no directive either way. -/
theorem Stmt.directive?_unmarked {s : Stmt} (hstring : Stmt.isString s = false)
    (h : Stmt.isMarked s = false) (marked : Bool) : Stmt.directive? marked s = none := by
  cases s with
  | expressionStatement m e directive =>
    cases directive with
    | some d => cases h
    | none =>
      cases marked with
      | true => rfl
      | false =>
        cases e with
        | literal l =>
          have hnone : l.value.string? = none :=
            Option.isNone_iff_eq_none.mp (Option.isSome_eq_false_iff.mp hstring)
          change l.value.string?.map (isUseStrict l.raw) = none
          rw [hnone, Option.map_none]
        | _ => rfl
  | directiveStatement => cases h
  | _ => cases marked <;> rfl

/-- In an annotated body, the marks and the literals ask for strict mode alike. -/
theorem hasUseStrict_marked {body : List Stmt} (h : Annotated body) :
    hasUseStrict true body = hasUseStrict false body := by
  induction body with
  | nil => rfl
  | cons s rest ih =>
    obtain ⟨hfirst, hothers⟩ := h
    by_cases hs : Stmt.isString s = true
    · rw [List.takeWhile_cons_of_pos hs, List.forall_mem_cons] at hfirst
      rw [List.dropWhile_cons_of_pos hs] at hothers
      obtain ⟨strict, hmarked, hliteral⟩ := Stmt.directive?_quoted hs hfirst.1
      simp only [hasUseStrict, hmarked, hliteral, ih ⟨hfirst.2, hothers⟩]
    · rw [List.dropWhile_cons_of_neg hs] at hothers
      have hnone := Stmt.directive?_unmarked (Bool.eq_false_iff.mpr hs)
        (hothers s List.mem_cons_self)
      simp only [hasUseStrict, hnone]

/-! ## Annotated programs -/

/-- The statements of a program, or those of a function whose body is a block. -/
def Tree.codeBody? {c : Category} : Tree c → Option (List Stmt)
  | .program _ body => some body.toList
  | .function _ _ _ _ (.blockBody (.block _ body)) _ _ _ => some body.toList
  | _ => none

/-- All bodies among the pieces of a tree are annotated. -/
def Tree.IsAnnotated (role : Role) {c : Category} (t : Tree c) : Prop :=
  ∀ u ∈ t.pieces {} role, ∀ body ∈ u.tree.codeBody?, Annotated body

/-- The body of a program and the bodies of the functions in it, wherever they stand, are
annotated. -/
def Program.IsAnnotated (p : Program) : Prop :=
  Tree.IsAnnotated .code p

instance (p : Program) : Decidable p.IsAnnotated :=
  inferInstanceAs (Decidable (∀ u ∈ _, _))

namespace Tree

/-- It does not matter for the actions of the tree how directives are told. -/
def ActsAlike (o : Options) {c : Category} (t : Tree c) : Prop :=
  ∀ place, t.actions { o with directive := true } place =
    t.actions { o with directive := false } place

/-- The two ways of telling directives lead to the same actions. -/
theorem acts_alike (o : Options) (role : Role) {c : Category} (t : Tree c)
    (h : t.IsAnnotated role) : t.ActsAlike o ∧ t.InnerAll (ActsAlike o) := by
  induction t generalizing role
  all_goals replace h := List.forall_mem_cons.mp h
  case cons head tail ihhead ihtail =>
    obtain ⟨hhead, htail⟩ := List.forall_mem_append.mp h.2
    refine ⟨fun place => ?_, trivial⟩
    have hitem := (ihhead _ hhead).1 place.item
    have hall := congrArg₂ (place.declarations head ++ · ++ ·) hitem
      ((ihtail _ htail).1 place.next)
    cases place
    case head => exact hitem
    all_goals exact hall
  case program m body ih =>
    refine ⟨fun place => ?_, trivial⟩
    have hstrict := hasUseStrict_marked (h.1 _ rfl)
    refine congrArg₂ (· ++ · ++ [Action.closeScopes m.id]) ?_ ((ih _ h.2).1 (.code false))
    dsimp only
    rw [hstrict]
    rfl
  case function form m name params body _ _ _ ihparams ihbody =>
    obtain ⟨hparams, hbody⟩ := List.forall_mem_append.mp h.2
    refine ⟨fun place => ?_, trivial⟩
    refine congrArg₂ (· ++ · ++ [Action.closeScopes m.id])
      (congrArg₂ (functionName form ⟨.function form, m⟩ name ++ · ++ · ++ [Action.endSite]) ?_
        ((ihparams _ hparams).1 _)) ((ihbody _ hbody).1 (.code false))
    have hstrict : FunctionBody.hasUseStrict true body = FunctionBody.hasUseStrict false body := by
      cases body with
      | blockBody b =>
        cases b
        exact hasUseStrict_marked (h.1 _ rfl)
      | expressionBody e => rfl
    rw [hstrict]
  case blockBody b ih =>
    refine ⟨fun place => ?_, trivial⟩
    cases b
    exact (ih _ h.2).2 place
  case exportNamedDeclaration m d specifiers source ihd ihs =>
    obtain ⟨hd, hs⟩ := List.forall_mem_append.mp h.2
    refine ⟨fun place => ?_, trivial⟩
    cases source with
    | some l => rfl
    | none =>
      cases d with
      | present d => exact (ihd _ hd).1 place
      | absent => exact (ihs _ hs).1 place
  case iterationStatement form m left right body await ihleft ihright ihbody =>
    obtain ⟨hh, hbody⟩ := List.forall_mem_append.mp h.2
    obtain ⟨hleft, hright⟩ := List.forall_mem_append.mp hh
    refine ⟨fun place => ?_, trivial⟩
    have hinner := (ihleft _ hleft).2
    have hright := (ihright _ hright).1 place
    have hbody := (ihbody _ hbody).1 place
    cases left with
    | targetPattern p =>
      cases p
      case memberPattern a =>
        exact congrArg₂ (· ++ ·) (congrArg₂ (· ++ ·) (hinner.2.1 place) hright) hbody
      all_goals exact congrArg₂ (· ++ ·) (congrArg₂ (_ ++ · ++ ·) (hinner.1 place) hright) hbody
    | targetDeclaration d =>
      cases d with
      | declaration dm kind declarators =>
        change ite _ _ _ = ite _ _ _
        rw [hright, hbody, hinner .head, hinner (.declarators _ kind 0)]
        rfl
  case method m key value kind computed isStatic ihkey ihvalue =>
    obtain ⟨hkey, hvalue⟩ := List.forall_mem_append.mp h.2
    refine ⟨fun place => ?_, trivial⟩
    exact congrArg₂ (ite _ · _ ++ ·) ((ihkey _ hkey).1 place) ((ihvalue _ hvalue).1 _)
  case assignmentExpression m operator left right ihleft ihright =>
    obtain ⟨hleft, hright⟩ := List.forall_mem_append.mp h.2
    refine ⟨fun place => ?_, trivial⟩
    have hleft := ihleft _ hleft
    have hright := (ihright _ hright).1 place
    cases left
    case memberPattern a => exact congrArg₂ (· ++ ·) (hleft.2.1 place) hright
    all_goals exact congrArg₂ (fun A B => ite _ (_ ++ A) _ ++ B) (hleft.1 place) hright
  case updateExpression m operator leading argument ih =>
    refine ⟨fun place => ?_, trivial⟩
    have hargument := (ih _ h.2).1 place
    cases argument
    case identifier i => rfl
    all_goals exact hargument
  case access m object prop computed isOptional ihobject ihprop =>
    obtain ⟨hobject, hprop⟩ := List.forall_mem_append.mp h.2
    have hobject := (ihobject _ hobject).1
    have hprop := (ihprop _ hprop).1
    exact ⟨fun place => congrArg₂ (· ++ ite _ · _) (hobject place) (hprop place), hobject, hprop⟩
  case property m key value kind isMethod shorthand computed ihkey ihvalue =>
    obtain ⟨hkey, hvalue⟩ := List.forall_mem_append.mp h.2
    refine ⟨fun place => ?_, trivial⟩
    exact congrArg₂ (ite _ · _ ++ ·) ((ihkey _ hkey).1 place) ((ihvalue _ hvalue).1 _)
  case memberPattern a ih =>
    refine ⟨fun place => ?_, ih _ h.2⟩
    have hinner := (ih _ h.2).2
    cases a
    exact congrArg₂ (ite _ · _ ++ ·) (hinner.2 place) (hinner.1 place)
  case patternProperty m key value computed shorthand ihkey ihvalue =>
    obtain ⟨hkey, hvalue⟩ := List.forall_mem_append.mp h.2
    refine ⟨fun place => ?_, trivial⟩
    exact congrArg₂ (ite _ · _ ++ ·) ((ihkey _ hkey).1 place) ((ihvalue _ hvalue).1 _)
  case declarator m target init ihtarget ihinit =>
    obtain ⟨htarget, hinit⟩ := List.forall_mem_append.mp h.2
    refine ⟨fun place => ?_, trivial⟩
    have hboth := congrArg₂ (· ++ ·) ((ihtarget _ htarget).1 place) ((ihinit _ hinit).1 place)
    cases place
    case head => exact (ihtarget _ htarget).1 (.code false)
    all_goals exact hboth
  case block m body ih =>
    have hbody := (ih _ h.2).1
    exact ⟨fun place => congrArg (_ ++ · ++ _) (hbody place), hbody⟩
  case declaration m kind declarators ih =>
    have hdeclarators := (ih _ h.2).1
    exact ⟨fun place => congrArg (_ ++ · ++ _) (hdeclarators _), hdeclarators⟩
  case targetDeclaration d ih => exact ⟨fun _ => rfl, (ih _ h.2).2⟩
  case targetPattern p ih => exact ⟨fun _ => rfl, ih _ h.2⟩
  all_goals
    refine ⟨fun place => ?_, trivial⟩
    replace h := h.2
    repeat obtain ⟨h, _⟩ := List.forall_mem_append.mp h
    repeat' first
      | exact And.left (‹∀ role, IsAnnotated role _ → ActsAlike o _ ∧ _› _ ‹_›) _
      | refine congrArg₂ (· ++ ·) ?_ ?_
      | exact rfl

end Tree

/-- The analysis of an annotated program does not depend on whether directives are told by their
marks or by their text. -/
theorem Program.analyze_directive (o : Options) {p : Program} (h : p.IsAnnotated) :
    Program.analyze { o with directive := true } p =
      Program.analyze { o with directive := false } p := by
  have hactions : Program.actions { o with directive := true } p =
      Program.actions { o with directive := false } p :=
    (Tree.acts_alike o .code p h).1 (.code false)
  unfold Program.analyze
  rw [hactions]
  rfl

/-- The program `"a"; function f() { 'use strict'; x }`, with its directives marked. -/
def Program.strictFunction : Program :=
  let mark (n : Nat) : Mark := ⟨n, ⟨n, n⟩⟩
  let directive (n : Nat) (q text : String) : Stmt :=
    .expressionStatement (mark n)
      (.literal ⟨mark (n + 1), .string text, some (q ++ text ++ q), none, none⟩) (some text)
  .program (mark 0) (.cons (directive 1 "\"" "a") (.cons (.functionDeclaration
    (.function .declaration (mark 3) (some ⟨mark 4, "f"⟩) .nil (.blockBody (.block (mark 5)
      (.cons (directive 6 "'" "use strict") (.cons (.expressionStatement (mark 8)
        (.identifier ⟨mark 9, "x"⟩) none) .nil)))) false false false)) .nil))

/-- Either way, the function is strict and the code around it is not. -/
theorem Program.analyze_directive_strictFunction : Program.strictFunction.IsAnnotated ∧
    ∃ a, Program.analyze { directive := true } .strictFunction = .ok a ∧
      Program.analyze {} .strictFunction = .ok a ∧
      a.scopes.toList.map (·.isStrict) = [false, true] := by
  have hannotated : Program.strictFunction.IsAnnotated := by decide +kernel
  have hstrict : (Program.analyze {} .strictFunction).toOption.map
      (fun a => a.scopes.toList.map (·.isStrict)) = some [false, true] := by decide +kernel
  have heq := Program.analyze_directive {} hannotated
  cases ha : Program.analyze {} .strictFunction with
  | error e =>
    rw [ha] at hstrict
    cases hstrict
  | ok a =>
    rw [ha] at hstrict
    exact ⟨hannotated, a, heq.trans ha, rfl, Option.some.inj hstrict⟩

end EcmaScope
