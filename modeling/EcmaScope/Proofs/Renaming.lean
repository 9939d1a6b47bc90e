import EcmaScope.Tree.Map
import EcmaScope.Proofs.Nesting
import Mathlib.Data.List.Forall2
import Mathlib.Logic.Function.Basic
import Mathlib.Tactic.CasesM

/-!
# Programs with other names and other numbers

A renaming gives nodes other numbers and gives identifiers other names. This module follows a
renaming from a tree to the actions of the tree. It matters there which identifiers are `eval`, and
which targets and defaults of a pattern are the same nodes; a faithful renaming keeps both.

## Main definitions

* `Renaming`: other numbers for nodes, and other names.
* `Renaming.Faithful`: different nodes of the program, and different names, stay different.
* `Action.Renamed`: an action on renamed data.

## Main results

* `Tree.actions_renamed`: the actions of a renamed tree are the renamed actions of the tree.
-/

namespace EcmaScope

/-- Other numbers for nodes, and other names. -/
structure Renaming where
  number : Nat → Nat
  name : String → String

namespace Renaming

variable (τ : Renaming)

/-- The mark with its number changed. -/
def mark (m : Mark) : Mark :=
  { m with id := τ.number m.id }

/-- The identifier with its number and its name changed. -/
def identifier (i : Identifier) : Identifier :=
  i.map τ.mark τ.name

/-- The anchor with its number changed. -/
def anchor (a : Anchor) : Anchor :=
  { a with mark := τ.mark a.mark }

/-- The tree with its numbers and its names changed. -/
def tree {c : Category} (t : Tree c) : Tree c :=
  t.map τ.mark τ.name

/-- The kind of a definition, with the number of the declaration around it changed. -/
def definitionKind : DefinitionKind → DefinitionKind
  | .importBinding declaration => .importBinding (τ.anchor declaration)
  | .tdz declaration index kind => .tdz (τ.anchor declaration) index kind
  | .declared declaration index kind => .declared (τ.anchor declaration) index kind
  | kind => kind

/-- The definition with its numbers and its name changed. -/
def definition (d : Definition) : Definition :=
  ⟨τ.definitionKind d.kind, τ.identifier d.name, τ.anchor d.node⟩

/-- The use with the number of the written expression changed. -/
def use : Use → Use
  | .read => .read
  | .write value isPartial isInit => .write (τ.anchor value) isPartial isInit
  | .update value => .update (value.map τ.anchor)

/-- The default with its numbers and its names changed. -/
def default (d : Default) : Default :=
  ⟨τ.mark d.mark, τ.tree d.left, τ.tree d.right⟩

/-- No number of `N` other than `n` becomes what `n` becomes. -/
def Separates (N : List Nat) (n : Nat) : Prop :=
  ∀ m ∈ N, τ.number m = τ.number n → m = n

/-- Different numbers of `N` and different names stay different, and the two names that have a
meaning of their own stay the same. -/
structure Faithful (N : List Nat) : Prop where
  number : ∀ n ∈ N, τ.Separates N n
  name : Function.Injective τ.name
  eval : τ.name "eval" = "eval"
  arguments : τ.name "arguments" = "arguments"

variable {τ} {N : List Nat}

theorem Faithful.number_eq_iff (hτ : τ.Faithful N) {m n : Nat} (hm : m ∈ N) (hn : n ∈ N) :
    τ.number m = τ.number n ↔ m = n :=
  ⟨hτ.number n hn m hm, congrArg τ.number⟩

theorem Faithful.name_eq_eval_iff (hτ : τ.Faithful N) (name : String) :
    τ.name name = "eval" ↔ name = "eval" :=
  ⟨fun h => hτ.name (h.trans hτ.eval.symm), fun h => h ▸ hτ.eval⟩

end Renaming

/-- The numbers of all marks are in `N`. -/
def Within (N : List Nat) (M : List Mark) : Prop :=
  ∀ m ∈ M, m.id ∈ N

private theorem Within.cons {N : List Nat} {m : Mark} {M : List Mark} (h : Within N (m :: M)) :
    m.id ∈ N ∧ Within N M :=
  List.forall_mem_cons.1 h

private theorem Within.append {N : List Nat} {M M' : List Mark} (h : Within N (M ++ M')) :
    Within N M ∧ Within N M' :=
  List.forall_mem_append.1 h

/-- An action, and the same action on renamed data. The nodes that the action is about have numbers
in `N`. -/
inductive Action.Renamed (τ : Renaming) (N : List Nat) : Action → Action → Prop
  | openScope (kind : ScopeKind) {block : Anchor} (strict : Bool) (hblock : block.id ∈ N) :
    Renamed τ N (.openScope kind block strict) (.openScope kind (τ.anchor block) strict)
  | closeScopes {node : Nat} (hnode : node ∈ N) :
    Renamed τ N (.closeScopes node) (.closeScopes (τ.number node))
  | beginSite (reach : Reach) : Renamed τ N (.beginSite reach) (.beginSite reach)
  | endSite : Renamed τ N .endSite .endSite
  | declare {d : Definition} (hnode : d.node.id ∈ N) (hparent : ∀ a ∈ d.kind.parent?, a.id ∈ N) :
    Renamed τ N (.declare d) (.declare (τ.definition d))
  | refer {i : Identifier} (use : Use) {creator : Option Anchor} (hi : i.mark.id ∈ N)
      (hcreator : ∀ a ∈ creator, a.id ∈ N) :
    Renamed τ N (.refer i use creator)
      (.refer (τ.identifier i) (τ.use use) (creator.map τ.anchor))
  | needScope : Renamed τ N .needScope .needScope
  | useThis : Renamed τ N .useThis .useThis
  | callEval : Renamed τ N .callEval .callEval
  | refuseImport (loc : Loc) : Renamed τ N (.refuseImport loc) (.refuseImport loc)

private theorem Action.Renamed.openScope_congr {τ : Renaming} {N : List Nat} {kind : ScopeKind}
    {block block' : Anchor} {strict strict' : Bool} (hblock : block.id ∈ N)
    (heq : block' = τ.anchor block) (hstrict : strict' = strict) :
    Action.Renamed τ N (.openScope kind block strict) (.openScope kind block' strict') :=
  heq ▸ hstrict ▸ .openScope kind strict' hblock

private theorem Action.Renamed.closeScopes_congr {τ : Renaming} {N : List Nat}
    {block block' : Anchor} (hblock : block.id ∈ N) (heq : block' = τ.anchor block) :
    Action.Renamed τ N (.closeScopes block.id) (.closeScopes block'.id) :=
  heq ▸ .closeScopes hblock

/-- Referring to a name that is not created. -/
private theorem Action.Renamed.refer_none {τ : Renaming} {N : List Nat} {i : Identifier} (use : Use)
    (hi : i.mark.id ∈ N) :
    Action.Renamed τ N (.refer i use none) (.refer (τ.identifier i) (τ.use use) none) :=
  .refer use hi fun _ h => nomatch h

private theorem Action.Renamed.refer_congr {τ : Renaming} {N : List Nat} {i : Identifier}
    (use : Use) {use' : Use} (hi : i.mark.id ∈ N) (heq : use' = τ.use use) :
    Action.Renamed τ N (.refer i use none) (.refer (τ.identifier i) use' none) :=
  heq ▸ .refer_none use hi

/-- Declaring a name without a declaration around it. -/
private theorem Action.Renamed.declare_plain {τ : Renaming} {N : List Nat} {d : Definition}
    (hnode : d.node.id ∈ N) (hparent : d.kind.parent? = none) :
    Action.Renamed τ N (.declare d) (.declare (τ.definition d)) :=
  .declare hnode fun _ h => nomatch hparent ▸ h

/-- Actions, and the same actions on renamed data. -/
def Action.AllRenamed (τ : Renaming) (N : List Nat) : List Action → List Action → Prop :=
  List.Forall₂ (Action.Renamed τ N)

namespace Action.AllRenamed

variable {τ : Renaming} {N : List Nat} {a a' : Action} {A A' B B' : List Action}

private theorem nil : AllRenamed τ N [] [] :=
  List.Forall₂.nil

private theorem cons (ha : Action.Renamed τ N a a') (hA : AllRenamed τ N A A') :
    AllRenamed τ N (a :: A) (a' :: A') :=
  List.Forall₂.cons ha hA

private theorem single (ha : Action.Renamed τ N a a') : AllRenamed τ N [a] [a'] :=
  cons ha nil

private theorem append (hA : AllRenamed τ N A A') (hB : AllRenamed τ N B B') :
    AllRenamed τ N (A ++ B) (A' ++ B') :=
  List.rel_append hA hB

private theorem flatMap {α β : Type} {R : α → β → Prop} {X : List α} {Y : List β}
    (h : List.Forall₂ R X Y) {f : α → List Action} {g : β → List Action}
    (hf : ∀ x y, R x y → AllRenamed τ N (f x) (g y)) : AllRenamed τ N (X.flatMap f) (Y.flatMap g) :=
  List.rel_flatMap h fun x y => hf x y

private theorem map {α β : Type} {R : α → β → Prop} {X : List α} {Y : List β}
    (h : List.Forall₂ R X Y) {f : α → Action} {g : β → Action}
    (hf : ∀ x y, R x y → Action.Renamed τ N (f x) (g y)) : AllRenamed τ N (X.map f) (Y.map g) :=
  List.rel_map (fun x y => hf x y) h

private theorem ite {P : Prop} [Decidable P] (hA : P → AllRenamed τ N A A')
    (hB : ¬P → AllRenamed τ N B B') :
    AllRenamed τ N (if P then A else B) (if P then A' else B') := by
  split
  · exact hA ‹_›
  · exact hB ‹_›

end Action.AllRenamed

/-! ## Accessors -/

section Accessors

variable (τ : Renaming)

private theorem Expr.mark_tree (e : Expr) : Expr.mark (τ.tree e) = τ.mark (Expr.mark e) := by
  unfold Renaming.tree
  cases e
  case arrowFunction f => cases f; rfl
  case functionExpression f => cases f; rfl
  case classExpression v => cases v; rfl
  case memberExpression a => cases a; rfl
  case spreadExpression s => cases s; rfl
  case templateExpression t => cases t; rfl
  all_goals rfl

private theorem Expr.anchor_tree (e : Expr) :
    Expr.anchor (τ.tree e) = τ.anchor (Expr.anchor e) := by
  have htype : Expr.typeName (τ.tree e) = Expr.typeName e := by cases e <;> rfl
  rw [Expr.anchor, Expr.mark_tree, htype]
  rfl

private theorem Pat.mark_tree (p : Pat) : Pat.mark (τ.tree p) = τ.mark (Pat.mark p) := by
  unfold Renaming.tree
  cases p
  case memberPattern a => cases a; rfl
  case restPattern r => cases r; rfl
  all_goals rfl

/-- The first node of a pattern is the pattern itself. -/
theorem Pat.marks_eq_cons (p : Pat) : ∃ M, Tree.marks p = Pat.mark p :: M := by
  cases p with
  | memberPattern a => cases a; exact ⟨_, rfl⟩
  | restPattern r => cases r; exact ⟨_, rfl⟩
  | _ => exact ⟨_, rfl⟩

private theorem Tree.toList_tree {c : Category} :
    (t : Tree (.list c)) → (τ.tree t).toList = t.toList.map τ.tree
  | .nil => rfl
  | .cons head tail => congrArg (τ.tree head :: ·) (Tree.toList_tree tail)

private theorem Stmt.directive?_tree (marked : Bool) (s : Stmt) :
    Stmt.directive? marked (τ.tree s) = Stmt.directive? marked s := by
  cases s
  case expressionStatement m e directive => cases e <;> cases directive <;> rfl
  all_goals rfl

private theorem hasUseStrict_map (marked : Bool) (body : List Stmt) :
    hasUseStrict marked (body.map τ.tree) = hasUseStrict marked body := by
  induction body with
  | nil => rfl
  | cons s rest ih => rw [List.map_cons, hasUseStrict, hasUseStrict, Stmt.directive?_tree, ih]

private theorem hasUseStrict_toList_tree (marked : Bool) (body : Tree (.list .statement)) :
    hasUseStrict marked (τ.tree body).toList = hasUseStrict marked body.toList := by
  rw [Tree.toList_tree, hasUseStrict_map]

private theorem FunctionBody.hasUseStrict_tree (marked : Bool) (body : Tree .functionBody) :
    FunctionBody.hasUseStrict marked (τ.tree body) = FunctionBody.hasUseStrict marked body := by
  cases body with
  | blockBody b =>
    cases b
    exact hasUseStrict_toList_tree τ marked _
  | expressionBody e => rfl

end Accessors

/-! ## Patterns -/

/-- A target of a pattern, and the same target on renamed data. -/
structure Target.Renamed (τ : Renaming) (N : List Nat) (t t' : Target) : Prop where
  eq : t' = ⟨τ.identifier t.identifier, t.isWhole, t.isRest, t.defaults.map τ.default⟩
  identifier : t.identifier.mark.id ∈ N
  defaults : ∀ d ∈ t.defaults, Within N d.left.marks

section Patterns

variable {τ : Renaming} {N : List Nat} (hτ : τ.Faithful N)

include hτ

private theorem Pat.isIdentifier_renamed {p : Pat} {i : Identifier} (hp : Within N p.marks)
    (hi : i.mark.id ∈ N) :
    Pat.isIdentifier (τ.tree p) (τ.identifier i) = Pat.isIdentifier p i := by
  cases p with
  | identifierPattern j =>
    have heq : (τ.number j.mark.id = τ.number i.mark.id) = (j.mark.id = i.mark.id) :=
      propext (hτ.number_eq_iff hp.cons.1 hi)
    change decide (τ.number j.mark.id = τ.number i.mark.id) = _
    simp only [heq]
    rfl
  | _ => rfl

private theorem Tree.targets_renamed {c : Category} (p : Tree c) {root : Nat} (hroot : root ∈ N)
    {defaults : List Default} (hdefaults : ∀ d ∈ defaults, Within N d.left.marks)
    {rest? : Option Pat} (hrest : ∀ q ∈ rest?, Within N q.marks) (hp : Within N p.marks) :
    List.Forall₂ (Target.Renamed τ N) (p.targets root defaults rest?)
      ((τ.tree p).targets (τ.number root) (defaults.map τ.default) (rest?.map τ.tree)) := by
  induction p generalizing defaults rest?
  case identifierPattern i =>
    have hi := hp.cons.1
    refine .cons ⟨?_, hi, hdefaults⟩ .nil
    have hwhole : (τ.number i.mark.id = τ.number root) = (i.mark.id = root) :=
      propext (hτ.number_eq_iff hi hroot)
    have hsame : (rest?.map τ.tree).any (Pat.isIdentifier · (τ.identifier i)) =
        rest?.any (Pat.isIdentifier · i) := by
      cases rest? with
      | none => rfl
      | some q => exact Pat.isIdentifier_renamed hτ (hrest q rfl) hi
    change (⟨τ.identifier i, decide (τ.number i.mark.id = τ.number root),
      (rest?.map τ.tree).any (Pat.isIdentifier · (τ.identifier i)), defaults.map τ.default⟩ :
        Target) = _
    simp only [hwhole, hsame]
  case assignmentPattern m left right ihleft _ =>
    have hleft := hp.cons.2.append.1
    have h : ∀ d ∈ defaults ++ [⟨m, left, right⟩], Within N d.left.marks := by
      rintro d hd
      rcases List.mem_append.1 hd with hd | hd
      · exact hdefaults d hd
      · exact (List.mem_singleton.1 hd) ▸ hleft
    have hall := ihleft h hrest hleft
    rw [List.map_append] at hall
    exact hall
  case cons head tail ihhead ihtail =>
    exact List.rel_append (ihhead hdefaults hrest hp.append.1) (ihtail hdefaults hrest hp.append.2)
  case patternProperty m key value _ _ _ ih => exact ih hdefaults hrest hp.cons.2.append.2
  case rest m p ih =>
    have hargument : ∀ q ∈ some p, Within N q.marks := by
      rintro q ⟨⟩
      exact hp.cons.2
    exact ih hdefaults hargument hp.cons.2
  case arrayPattern m p ih => exact ih hdefaults hrest hp.cons.2
  case objectPattern m p ih => exact ih hdefaults hrest hp.cons.2
  case restPattern p ih => exact ih hdefaults hrest hp
  case restMember p ih => exact ih hdefaults hrest hp
  case present p ih => exact ih hdefaults hrest hp
  all_goals exact .nil

private theorem Pat.targets_renamed {p : Pat} (hp : Within N p.marks) :
    List.Forall₂ (Target.Renamed τ N) (Pat.targets p) (Pat.targets (τ.tree p)) := by
  obtain ⟨M, hM⟩ := Pat.marks_eq_cons p
  rw [Pat.targets, Pat.targets, Pat.mark_tree]
  have hnone : ∀ q ∈ (none : Option Pat), Within N q.marks := nofun
  exact Tree.targets_renamed hτ p (hM ▸ hp).cons.1 (List.forall_mem_nil _) hnone hp

private theorem Default.isFor_renamed {t t' : Target} (ht : Target.Renamed τ N t t') {d : Default}
    (hd : Within N d.left.marks) : (τ.default d).isFor t' = d.isFor t := by
  rw [ht.eq]
  exact Pat.isIdentifier_renamed hτ hd ht.identifier

namespace Action

variable {creator : Option Anchor} (hcreator : ∀ a ∈ creator, a.id ∈ N)

include hcreator in
private theorem writeDefaults_renamed {t t' : Target} (ht : Target.Renamed τ N t t')
    (isInit : Bool) :
    AllRenamed τ N (writeDefaults t isInit creator)
      (writeDefaults t' isInit (creator.map τ.anchor)) := by
  have hdefaults : List.Forall₂ (fun d d' => d' = τ.default d ∧ d ∈ t.defaults) t.defaults
      t'.defaults := by
    rw [ht.eq, List.forall₂_map_right_iff, List.forall₂_same]
    exact fun d hd => ⟨rfl, hd⟩
  refine .map hdefaults ?_
  rintro d - ⟨rfl, hd⟩
  have hidentifier : t'.identifier = τ.identifier t.identifier := by rw [ht.eq]
  rw [Default.isFor_renamed hτ ht (ht.defaults d hd), hidentifier]
  have hright : Expr.anchor (τ.default d).right = τ.anchor (Expr.anchor d.right) :=
    Expr.anchor_tree τ d.right
  rw [hright]
  exact .refer _ ht.identifier hcreator

private theorem bindTargets_renamed {kind kind' : Target → DefinitionKind}
    (hkind : ∀ t t', Target.Renamed τ N t t' → kind' t' = τ.definitionKind (kind t))
    (hparent : ∀ t, ∀ a ∈ (kind t).parent?, a.id ∈ N) {node : Anchor} (hnode : node.id ∈ N)
    {p : Pat} (hp : Within N p.marks) :
    AllRenamed τ N (bindTargets kind node p) (bindTargets kind' (τ.anchor node) (τ.tree p)) := by
  refine .flatMap (Pat.targets_renamed hτ hp) fun t t' ht => .cons ?_ ?_
  · rw [hkind t t' ht, ht.eq]
    exact .declare hnode (hparent t)
  · exact writeDefaults_renamed hτ (fun _ h => absurd h (Option.not_mem_none _)) ht true

private theorem assignTargets_renamed {node value value' : Anchor} (hnode : node.id ∈ N)
    (hvalue : value' = τ.anchor value) {isPartial : Target → Bool}
    (hpartial : ∀ t t', Target.Renamed τ N t t' → isPartial t' = isPartial t) {p : Pat}
    (hp : Within N p.marks) :
    AllRenamed τ N (assignTargets node value isPartial p)
      (assignTargets (τ.anchor node) value' isPartial (τ.tree p)) := by
  subst hvalue
  have hcreator : ∀ a ∈ some node, a.id ∈ N := by rintro a ⟨⟩; exact hnode
  refine .cons .needScope (.flatMap (Pat.targets_renamed hτ hp) fun t t' ht => .append ?_ ?_)
  · exact writeDefaults_renamed hτ hcreator ht false
  · rw [hpartial t t' ht, ht.eq]
    exact .single (.refer (.write value _ _) ht.identifier hcreator)

private theorem bindDeclarator_renamed {kind : DefinitionKind}
    (hparent : ∀ a ∈ kind.parent?, a.id ∈ N) (reserved : Bool) {d : Tree .declarator}
    (hd : Within N d.marks) :
    AllRenamed τ N (bindDeclarator kind reserved d)
      (bindDeclarator (τ.definitionKind kind) reserved (τ.tree d)) := by
  cases d with
  | declarator m target init =>
    obtain ⟨hm, hd⟩ := hd.cons
    refine .flatMap (Pat.targets_renamed hτ hd.append.1) fun t t' ht => .cons ?_ (.append ?_ ?_)
    · rw [ht.eq]
      exact .declare hm hparent
    · refine .ite (fun _ => .nil) fun _ => ?_
      exact writeDefaults_renamed hτ (fun _ h => absurd h (Option.not_mem_none _)) ht true
    · cases init with
      | absent => exact .nil
      | present value =>
        rw [ht.eq]
        change AllRenamed τ N _ [.refer (τ.identifier t.identifier)
          (.write (Expr.anchor (τ.tree value)) (!t.isWhole) true) none]
        rw [Expr.anchor_tree]
        exact .single (.refer_none (.write _ _ _) ht.identifier)

private theorem bindItems_renamed {value value' : Anchor} (hvalue : value' = τ.anchor value)
    {declarators : Tree (.list .declarator)} (hd : Within N declarators.marks) :
    AllRenamed τ N (bindItems value declarators) (bindItems value' (τ.tree declarators)) := by
  subst hvalue
  cases declarators with
  | nil => exact .nil
  | cons first rest =>
    cases first with
    | declarator m target init =>
      refine .map (Pat.targets_renamed hτ hd.append.1.cons.2.append.1) fun t t' ht => ?_
      rw [ht.eq]
      exact .refer_none (.write value true true) ht.identifier

private theorem bindFirst_renamed {kind : DefinitionKind} (hparent : ∀ a ∈ kind.parent?, a.id ∈ N)
    (reserved : Bool) {declarators : Tree (.list .declarator)} (hd : Within N declarators.marks) :
    AllRenamed τ N (bindFirst kind reserved declarators)
      (bindFirst (τ.definitionKind kind) reserved (τ.tree declarators)) := by
  cases declarators with
  | nil => exact .nil
  | cons first rest =>
    exact .append (.append (.single (.beginSite _))
      (bindDeclarator_renamed hτ hparent reserved hd.append.1)) (.single .endSite)

end Action

end Patterns

/-! ## Trees -/

/-- A place, and the same place on renamed data. -/
inductive Place.Renamed (τ : Renaming) (N : List Nat) : Place → Place → Prop
  | code (method : Bool) : Renamed τ N (.code method) (.code method)
  | parameters {owner : Anchor} (index : Nat) (howner : owner.id ∈ N) :
    Renamed τ N (.parameters owner index) (.parameters (τ.anchor owner) index)
  | declarators {declaration : Anchor} (kind : VariableKind) (index : Nat)
      (hdeclaration : declaration.id ∈ N) :
    Renamed τ N (.declarators declaration kind index)
      (.declarators (τ.anchor declaration) kind index)
  | head : Renamed τ N .head .head

namespace Place.Renamed

variable {τ : Renaming} {N : List Nat} {place place' : Place}

private theorem item (h : place.Renamed τ N place') : place.item.Renamed τ N place'.item := by
  cases h
  case head => exact .head
  all_goals exact .code _

private theorem next (h : place.Renamed τ N place') : place.next.Renamed τ N place'.next := by
  cases h with
  | code method => exact .code method
  | parameters index howner => exact .parameters (index + 1) howner
  | declarators kind index hdeclaration => exact .declarators kind (index + 1) hdeclaration
  | head => exact .head

private theorem isMethod (h : place.Renamed τ N place') : place'.isMethod = place.isMethod := by
  cases h <;> rfl

private theorem declarations (hτ : τ.Faithful N) (h : place.Renamed τ N place') {c : Category}
    {t : Tree c} (ht : Within N t.marks) :
    Action.AllRenamed τ N (place.declarations t) (place'.declarations (τ.tree t)) := by
  cases h with
  | code method => exact .nil
  | head => exact .nil
  | parameters index howner =>
    cases c
    case pattern =>
      refine Action.bindTargets_renamed hτ ?_ (fun _ _ h => absurd h (Option.not_mem_none _))
        howner ht
      intro t t' ht
      rw [ht.eq]
      rfl
    all_goals exact .nil
  | declarators kind index hdeclaration =>
    cases c
    case declarator =>
      refine Action.bindDeclarator_renamed hτ ?_ false ht
      rintro a ⟨⟩
      exact hdeclaration
    all_goals exact .nil

end Place.Renamed

namespace Tree

variable {τ : Renaming} {N : List Nat}

private theorem isEval_tree (hτ : τ.Faithful N) (callee : Expr) :
    isEval (τ.tree callee) = isEval callee := by
  cases callee with
  | identifier i => exact decide_eq_decide.2 (hτ.name_eq_eval_iff i.name)
  | _ => rfl

private theorem declareHere_renamed {D D' : List Definition}
    (h : List.Forall₂ (fun d d' => Action.Renamed τ N (.declare d) (.declare d')) D D') :
    Action.AllRenamed τ N (Action.declareHere D) (Action.declareHere D') :=
  .append (.append (.single (.beginSite _)) (.map h fun _ _ hd => hd)) (.single .endSite)

private theorem functionName_renamed (form : FunctionForm) {block : Anchor} (hblock : block.id ∈ N)
    (name : Option Identifier) :
    Action.AllRenamed τ N (functionName form block name)
      (functionName form (τ.anchor block) (name.map τ.identifier)) := by
  have hname : ∀ i, Action.AllRenamed τ N (Action.declareHere [⟨.functionName, i, block⟩])
      (Action.declareHere [τ.definition ⟨.functionName, i, block⟩]) := fun i =>
    declareHere_renamed (.cons (.declare_plain hblock rfl) .nil)
  cases name with
  | none => cases form <;> exact .nil
  | some i =>
    cases form with
    | declaration => exact hname i
    | expression => exact .cons (.openScope _ _ hblock) (hname i)
    | _ => exact .nil

private theorem className_renamed {block : Anchor} (hblock : block.id ∈ N)
    (name : Option Identifier) :
    Action.AllRenamed τ N (className block name)
      (className (τ.anchor block) (name.map τ.identifier)) := by
  cases name with
  | none => exact .nil
  | some i => exact declareHere_renamed (.cons (.declare_plain hblock rfl) .nil)

private theorem importDefinitions_renamed {declaration : Anchor}
    (hdeclaration : declaration.id ∈ N) :
    (specifiers : Tree (.list .importSpecifier)) → Within N specifiers.marks →
      List.Forall₂ (fun d d' => Action.Renamed τ N (.declare d) (.declare d'))
        (importDefinitions declaration specifiers)
        (importDefinitions (τ.anchor declaration) (τ.tree specifiers))
  | .nil, _ => .nil
  | .cons head tail, h => by
    refine .cons ?_ (importDefinitions_renamed hdeclaration tail h.append.2)
    have hparent : ∀ a ∈ (DefinitionKind.importBinding declaration).parent?, a.id ∈ N := by
      rintro a ⟨⟩
      exact hdeclaration
    cases head <;> exact .declare h.append.1.cons.1 hparent

/-- The actions of the renamed tree are the renamed actions of the tree. -/
def ActsRenamed (τ : Renaming) (N : List Nat) (o : Options) {c : Category} (t : Tree c) : Prop :=
  ∀ {place place' : Place}, place.Renamed τ N place' → Within N t.marks →
    Action.AllRenamed τ N (t.actions o place) ((τ.tree t).actions o place')

/-- The property holds of the parts of a tree that the construct around the tree walks itself. -/
def InnerAll (P : {c : Category} → Tree c → Prop) {c : Category} : Tree c → Prop
  | .targetDeclaration d => d.InnerAll P
  | .declaration _ _ declarators => P declarators
  | .targetPattern p => P p ∧ p.InnerAll P
  | .memberPattern a => P a ∧ a.InnerAll P
  | .access _ object prop _ _ => P object ∧ P prop
  | .block _ body => P body
  | _ => True

variable (hτ : τ.Faithful N) {o : Options} {place place' : Place}

include hτ

/-- The actions of a loop over the items of a value. The loop walks what its head declares, or the
pattern there, by itself. -/
theorem iteration_renamed (hplace : place.Renamed τ N place') {form : IterationForm} {m : Mark}
    {left : Tree .forTarget} {right : Expr} {body : Stmt} {await : Bool}
    (hleft : left.InnerAll (ActsRenamed τ N o)) (hright : right.ActsRenamed τ N o)
    (hbody : body.ActsRenamed τ N o)
    (h : Within N (iterationStatement form m left right body await).marks) :
    Action.AllRenamed τ N ((iterationStatement form m left right body await).actions o place)
      ((τ.tree (iterationStatement form m left right body await)).actions o place') := by
  obtain ⟨hm, h⟩ := h.cons
  obtain ⟨h, hb⟩ := h.append
  obtain ⟨hl, hr⟩ := h.append
  replace hright := hright hplace hr
  replace hbody := hbody hplace hb
  have hblock : (⟨.iteration form, m⟩ : Anchor).id ∈ N := hm
  have hvalue := Expr.anchor_tree τ right
  cases left with
  | targetPattern p =>
    cases p
    case memberPattern a => exact ((hleft.2.1 hplace hl).append hright).append hbody
    all_goals
      refine .append (.append (.append ?_ (hleft.1 hplace hl)) hright) hbody
      exact Action.assignTargets_renamed hτ hblock hvalue (fun _ _ _ => rfl) hl
  | targetDeclaration d =>
    cases d with
    | declaration dm kind declarators =>
      obtain ⟨hdm, hl⟩ := hl.cons
      have hparent : ∀ a ∈ some (⟨.declaration, dm⟩ : Anchor), a.id ∈ N := by
        rintro a ⟨⟩
        exact hdm
      obtain ⟨M, hM⟩ := Expr.marks_eq_cons right
      have hr := (hM ▸ hr).cons.1
      refine .ite (fun _ => ?_) fun _ => ?_
      · refine .append (.append (.append (.append (.append (.append (.append (.append ?_ ?_) hright)
          ?_) ?_) ?_) ?_) hbody) ?_
        · exact .single (.openScope_congr hr hvalue rfl)
        · refine Action.bindFirst_renamed hτ ?_ true hl
          exact hparent
        · exact .cons (.closeScopes_congr hr hvalue) (.single (.openScope _ _ hm))
        · refine Action.bindFirst_renamed hτ ?_ false hl
          exact hparent
        · exact hleft .head hl
        · exact Action.bindItems_renamed hτ hvalue hl
        · exact .single (.closeScopes hm)
      · refine .append (.append (.append (.append (.append ?_ ?_) ?_) ?_) hright) hbody
        · exact .single (.beginSite _)
        · exact hleft (.declarators kind 0 hdm) hl
        · exact .single .endSite
        · exact Action.bindItems_renamed hτ hvalue hl

theorem actions_renamed {c : Category} (t : Tree c) :
    t.ActsRenamed τ N o ∧ t.InnerAll (ActsRenamed τ N o) := by
  induction t
  case cons head tail ihhead ihtail =>
    refine ⟨fun hplace h => ?_, trivial⟩
    have hitem := ihhead.1 hplace.item h.append.1
    have hall := ((hplace.declarations hτ h.append.1).append hitem).append
      (ihtail.1 hplace.next h.append.2)
    cases hplace
    case head => exact hitem
    all_goals exact hall
  case program m body ih =>
    refine ⟨fun hplace h => ?_, trivial⟩
    obtain ⟨hm, h⟩ := h.cons
    have hstrict := hasUseStrict_toList_tree τ o.directive body
    refine .append (.append (.append (.append (.single ?_) (.ite ?_ ?_)) (.ite ?_ ?_)) ?_) ?_
    · exact .openScope_congr hm rfl (congrArg (fun s => !o.nodejsScope && (s || _)) hstrict)
    · exact fun _ => .single (.openScope_congr hm rfl (congrArg (· || _) hstrict))
    · exact fun _ => .nil
    · exact fun _ => .single (.openScope _ _ hm)
    · exact fun _ => .nil
    · exact ih.1 (.code false) h
    · exact .single (.closeScopes hm)
  case exportNamedDeclaration m d specifiers source ihd ihs =>
    refine ⟨fun hplace h => ?_, trivial⟩
    obtain ⟨hd, hs⟩ := h.cons.2.append.1.append
    cases source with
    | some l => exact .nil
    | none =>
      cases d with
      | present d => exact ihd.1 hplace hd
      | absent => exact ihs.1 hplace hs
  case iterationStatement ihleft ihright ihbody =>
    exact ⟨fun hplace h => iteration_renamed hτ hplace ihleft.2 ihright.1 ihbody.1 h, trivial⟩
  case forStatement m init test update body ihinit ihtest ihupdate ihbody =>
    refine ⟨fun hplace h => ?_, trivial⟩
    obtain ⟨hm, h⟩ := h.cons
    obtain ⟨h, hbody⟩ := h.append
    obtain ⟨h, hupdate⟩ := h.append
    obtain ⟨hinit, htest⟩ := h.append
    refine .append (.append (.append (.append (.append ?_ (ihinit.1 hplace hinit))
      (ihtest.1 hplace htest)) (ihupdate.1 hplace hupdate)) (ihbody.1 hplace hbody))
      (.single (.closeScopes hm))
    cases init with
    | absent => exact .nil
    | present i =>
      cases i with
      | initExpression e => exact .nil
      | initDeclaration d =>
        cases d
        exact .ite (fun _ => .single (.openScope _ _ hm)) fun _ => .nil
  case importDeclaration m specifiers source _ =>
    refine ⟨fun _ h => ?_, trivial⟩
    obtain ⟨hm, h⟩ := h.cons
    exact .ite (fun _ => declareHere_renamed (importDefinitions_renamed hm _ h.append.1))
      fun _ => .single (.refuseImport _)
  case switchStatement m discriminant cases ihd ihc =>
    refine ⟨fun hplace h => ?_, trivial⟩
    obtain ⟨hm, h⟩ := h.cons
    exact .append (.append (.append (ihd.1 hplace h.append.1)
      (.ite (fun _ => .single (.openScope _ _ hm)) fun _ => .nil)) (ihc.1 hplace h.append.2))
      (.single (.closeScopes hm))
  case withStatement m object body iho ihb =>
    refine ⟨fun hplace h => ?_, trivial⟩
    obtain ⟨hm, h⟩ := h.cons
    exact .append (.append (.append (iho.1 hplace h.append.1) (.single (.openScope _ _ hm)))
      (ihb.1 hplace h.append.2)) (.single (.closeScopes hm))
  case block m body ih =>
    refine ⟨fun hplace h => ?_, ih.1⟩
    obtain ⟨hm, h⟩ := h.cons
    exact .append (.append (.ite (fun _ => .single (.openScope _ _ hm)) fun _ => .nil)
      (ih.1 hplace h)) (.single (.closeScopes hm))
  case declaration m kind declarators ih =>
    refine ⟨fun _ h => ?_, ih.1⟩
    obtain ⟨hm, h⟩ := h.cons
    exact .append (.append (.single (.beginSite _)) (ih.1 (.declarators kind 0 hm) h))
      (.single .endSite)
  case declarator m target init iht ihi =>
    refine ⟨fun hplace h => ?_, trivial⟩
    obtain ⟨htarget, hinit⟩ := h.cons.2.append
    have hall := (iht.1 hplace htarget).append (ihi.1 hplace hinit)
    cases hplace
    case head => exact iht.1 (.code false) htarget
    all_goals exact hall
  case catchClause m param body ihparam ihbody =>
    refine ⟨fun hplace h => ?_, trivial⟩
    obtain ⟨hm, h⟩ := h.cons
    obtain ⟨hparam, hbody⟩ := h.append
    refine .append (.append (.append (.append (.single (.openScope _ _ hm)) ?_)
      (ihparam.1 hplace hparam)) (ihbody.1 hplace hbody)) (.single (.closeScopes hm))
    cases param with
    | absent => exact .nil
    | present p =>
      refine .append (.append (.single (.beginSite _)) ?_) (.single .endSite)
      refine Action.bindTargets_renamed hτ (fun _ _ _ => rfl) ?_ ?_ hparam
      · exact fun _ _ h => absurd h (Option.not_mem_none _)
      · exact hm
  case function form m name params body _ _ _ ihparams ihbody =>
    refine ⟨fun hplace h => ?_, trivial⟩
    obtain ⟨hm, h⟩ := h.cons
    obtain ⟨h, hbody⟩ := h.append
    obtain ⟨-, hparams⟩ := h.append
    have hblock : (⟨.function form, m⟩ : Anchor).id ∈ N := hm
    refine .append (.append (.append (.append (.append (functionName_renamed form hblock name) ?_)
      (ihparams.1 (.parameters 0 hblock) hparams)) (.single .endSite))
      (ihbody.1 (.code false) hbody)) (.single (.closeScopes hm))
    refine .cons (.openScope_congr hm rfl ?_) (.single (.beginSite _))
    rw [hplace.isMethod]
    exact congrArg (_ || ·) (FunctionBody.hasUseStrict_tree τ o.directive body)
  case blockBody b ih =>
    refine ⟨fun hplace h => ?_, trivial⟩
    cases b
    exact ih.2 hplace h.cons.2
  case classNode form m name superclass body ihs ihb =>
    refine ⟨fun hplace h => ?_, trivial⟩
    obtain ⟨hm, h⟩ := h.cons
    obtain ⟨h, hbody⟩ := h.append
    obtain ⟨-, hsuper⟩ := h.append
    have hblock : (⟨.classNode form, m⟩ : Anchor).id ∈ N := hm
    exact .append (.append (.append (.append
      (.ite (fun _ => className_renamed hblock name) fun _ => .nil) (ihs.1 hplace hsuper))
      (.ite (fun _ => .cons (.openScope _ _ hm) (className_renamed hblock name)) fun _ => .nil))
      (ihb.1 hplace hbody)) (.single (.closeScopes hm))
  case method m key value kind computed isStatic ihkey ihvalue =>
    refine ⟨fun hplace h => ?_, trivial⟩
    obtain ⟨hkey, hvalue⟩ := h.cons.2.append
    exact .append (.ite (fun _ => ihkey.1 hplace hkey) fun _ => .nil)
      (ihvalue.1 (.code true) hvalue)
  case assignmentExpression m operator left right ihleft ihright =>
    refine ⟨fun hplace h => ?_, trivial⟩
    obtain ⟨hm, h⟩ := h.cons
    obtain ⟨hleft, hright⟩ := h.append
    have hvalue := Expr.anchor_tree τ right
    have hright := ihright.1 hplace hright
    have hblock : (⟨.assignment, m⟩ : Anchor).id ∈ N := hm
    have hassign := (Action.assignTargets_renamed hτ hblock hvalue
      (fun t t' ht => by rw [ht.eq] : ∀ t t', Target.Renamed τ N t t' → (!t'.isWhole) = !t.isWhole)
      hleft).append (ihleft.1 hplace hleft)
    cases left
    case memberPattern a => exact .append (ihleft.2.1 hplace hleft) hright
    case identifierPattern i =>
      refine .append (.ite (fun _ => hassign) fun _ => .single ?_) hright
      exact .refer_congr (.update (some (Expr.anchor right))) hleft.cons.1
        (congrArg (fun a => Use.update (some a)) hvalue)
    all_goals exact .append (.ite (fun _ => hassign) fun _ => .nil) hright
  case callExpression m callee arguments isOptional ihcallee ihargs =>
    refine ⟨fun hplace h => ?_, trivial⟩
    obtain ⟨hcallee, hargs⟩ := h.cons.2.append
    refine .append (.append ?_ (ihcallee.1 hplace hcallee)) (ihargs.1 hplace hargs)
    change Action.AllRenamed τ N _
      (if !o.ignoreEval && !isOptional && isEval (τ.tree callee) then [.callEval] else [])
    rw [isEval_tree hτ]
    exact .ite (fun _ => .single .callEval) fun _ => .nil
  case identifier i => exact ⟨fun _ h => .single (.refer_none .read h.cons.1), trivial⟩
  case updateExpression m operator leading argument ih =>
    refine ⟨fun hplace h => ?_, trivial⟩
    have harg := ih.1 hplace h.cons.2
    cases argument
    case identifier i => exact .single (.refer_none (.update none) h.cons.2.cons.1)
    all_goals exact harg
  case access m object prop computed isOptional ihobject ihprop =>
    refine ⟨fun hplace h => ?_, ihobject.1, ihprop.1⟩
    obtain ⟨hobject, hprop⟩ := h.cons.2.append
    exact .append (ihobject.1 hplace hobject)
      (.ite (fun _ => ihprop.1 hplace hprop) fun _ => .nil)
  case property m key value kind isMethod shorthand computed ihkey ihvalue =>
    refine ⟨fun hplace h => ?_, trivial⟩
    obtain ⟨hkey, hvalue⟩ := h.cons.2.append
    refine .append (.ite (fun _ => ihkey.1 hplace hkey) fun _ => .nil) ?_
    cases isMethod
    · exact ihvalue.1 hplace hvalue
    · exact ihvalue.1 (.code true) hvalue
  case memberPattern a ih =>
    refine ⟨fun hplace h => ?_, ih⟩
    cases a with
    | access m object prop computed isOptional =>
      obtain ⟨hobject, hprop⟩ := h.cons.2.append
      exact .append (.ite (fun _ => ih.2.2 hplace hprop) fun _ => .nil) (ih.2.1 hplace hobject)
  case patternProperty m key value computed shorthand ihkey ihvalue =>
    refine ⟨fun hplace h => ?_, trivial⟩
    obtain ⟨hkey, hvalue⟩ := h.cons.2.append
    exact .append (.ite (fun _ => ihkey.1 hplace hkey) fun _ => .nil) (ihvalue.1 hplace hvalue)
  case targetDeclaration d ih => exact ⟨fun _ _ => .nil, ih.2⟩
  case targetPattern p ih => exact ⟨fun _ _ => .nil, ih⟩
  case thisExpression => exact ⟨fun _ _ => .single .useThis, trivial⟩
  all_goals
    try casesm* _ ∧ _
    refine ⟨fun hplace h => ?_, trivial⟩
    try obtain ⟨_, h⟩ := h.cons
    repeat obtain ⟨h, _⟩ := h.append
    repeat' first
      | assumption
      | apply Action.AllRenamed.append
      | exact .nil
      | apply_assumption

end Tree

end EcmaScope
