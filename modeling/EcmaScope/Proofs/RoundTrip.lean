import EcmaScope.Proofs.Preorder
import EcmaScope.Proofs.Tagged
import EcmaScope.Writing

/-!
# Reading what has been written

The form in which a tree is written leaves nothing to defaults, and reading it gives the tree back,
but for the numbers of its nodes, which are not written. A node is written as an object with its
type, its place and its fields, so it is read by the rule for its type, and each of its fields is
read from the form of one of its parts. Only positions must be small enough to be read.

## Main definitions

* `Mark.Fits`: the place of a node can be read.
* `Json.nodeMembers`: the members of the form of a node.
* `Tree.IsWrittenAs`: a tree is written as a node of a type.
* `Tree.ReadsBack`: a tree is read back from its form.

## Main results

* `readAt_ofNode`: a node is read by the rule for the type it is written with.
* `Tree.readsBack`: every tree is read back from its form.
* `Program.toJson_roundTrip`: a program is read back from its form, with its nodes numbered, and
  what is read as a member of a family has the type and the place that its value names.
-/

namespace EcmaScope

open Json (ofNode ofOption partsOf lookup)

/-! ## Places that can be written -/

/-- Both ends of the place of a node are positions. -/
def Mark.Fits (m : Mark) : Prop :=
  m.loc.start < positionBound ∧ m.loc.stop < positionBound

private theorem readNat_ofNat {bound n : Nat} (h : n < bound) :
    (Json.ofNat n).readNat bound = .ok n := by
  change (if n < bound then Except.ok n else .error ReadError.invalid) = _
  rw [if_pos h]

private theorem readAside_ofNat {get : String → Option Json} {field : String} {n : Nat}
    (hget : get field = some (.ofNat n)) (hn : n < positionBound) :
    readAside get field (Json.readNat positionBound) = .ok (some n) := by
  rw [readAside, hget]
  exact congrArg (some <$> ·) (readNat_ofNat hn)

namespace Json

/-- The members of a node. -/
def nodeMembers (type : String) (m : Mark) (fields : List (String × Json)) :
    List (String × Json) :=
  [("type", .string type), ("start", ofNat m.loc.start), ("end", ofNat m.loc.stop)] ++ fields

/-- No member of the list says anything about the place of a node. -/
def Placeless (fields : List (String × Json)) : Prop :=
  lookup "start" fields = none ∧ lookup "end" fields = none ∧ lookup "range" fields = none

variable {type : String} {m : Mark} {fields : List (String × Json)} {α : Type}

private theorem readLoc_nodeMembers (hm : m.Fits) (h : Placeless fields) :
    readLoc (fun field => lookup field (nodeMembers type m fields)) = .ok m.loc := by
  let get := fun field => lookup field (nodeMembers type m fields)
  obtain ⟨hstart, hstop, hrange⟩ := h
  have hstop : get "end" = some (.ofNat m.loc.stop) := by simp [get, nodeMembers, lookup, hstop]
  have hstart : get "start" = some (.ofNat m.loc.start) := by
    simp [get, nodeMembers, lookup, hstart]
  have hrange : readAside get "range" readRange = .ok none := by
    simp [readAside, get, nodeMembers, lookup, hrange]
  rw [readLoc, readAside_ofNat hstop hm.2, hrange, readAside_ofNat hstart hm.1]
  rfl

private theorem readNode_nodeMembers (hm : m.Fits) (h : Placeless fields) {f : Mark → Fields α}
    {a : α} (hf : f (Tree.eraseId m) = .ok a) :
    readNode (fun field => lookup field (nodeMembers type m fields)) f = .ok a := by
  rw [readNode, readLoc_nodeMembers hm h]
  change (f (Tree.eraseId m)).result = _
  rw [hf]
  rfl

private theorem node_nodeMembers (hm : m.Fits) (h : Placeless fields) {f : Mark → Fields α} {a : α}
    (hf : f (Tree.eraseId m) = .ok a) : (partsOf (nodeMembers type m fields)).node f = .ok a := by
  rw [Parts.node, values_partsOf]
  exact readNode_nodeMembers hm h hf

/-! ## Fields that have been written -/

section Fields

variable {members : List (String × Json)} {field : String} {v : Json}

private theorem required_ok {β : Type} {get : String → Option β} {read : β → Except ReadError α}
    {b : β} {a : α} (hb : get field = some b) (ha : read b = .ok a) :
    Fields.required get field read = .ok a := by
  simp [Fields.required, Fields.found, hb, ha]

private theorem defaulted_ok {β : Type} {get : String → Option β} {read : β → Except ReadError α}
    {b : β} {a default : α} (hb : get field = some b) (ha : read b = .ok a) :
    Fields.defaulted get field default read = .ok a := by
  simp [Fields.defaulted, Fields.found, hb, ha]

private theorem text_ok {s : String} (hv : lookup field members = some (.string s)) :
    (partsOf members).text field = .ok s :=
  required_ok (values_eq_some hv) rfl

private theorem flag_ok {b : Bool} (hv : lookup field members = some (.bool b)) :
    (partsOf members).flag field = .ok b :=
  defaulted_ok (values_eq_some hv) rfl

private theorem word_ok {words : List (String × α)} {w : String} {a : α}
    (hv : lookup field members = some (.string w)) (hw : words.lookup w = some a) :
    (partsOf members).word field words = .ok a := by
  refine required_ok (values_eq_some hv) ?_
  simp [readWord, readChoice, hw]

end Fields

/-- An optional value is read if what is written is never null and can be read. -/
theorem readOption_ofOption {write : α → Json} {read : Json → Except ReadError α} {f : α → α}
    {x : Option α} (hnull : ∀ a, write a ≠ .null) (h : ∀ a ∈ x, read (write a) = .ok (f a)) :
    (ofOption write x).readOption read = .ok (x.map f) := by
  cases x with
  | none => rfl
  | some a =>
    rw [ofOption, readOption_of_ne_null (hnull a), h a rfl]
    rfl

end Json

open Json

/-! ## Leaves -/

private theorem readText?_ok {get : String → Option Json} {field : String} {s : Option String}
    (hv : get field = some (ofOption .string s)) : readText? get field = .ok s := by
  refine defaulted_ok hv ?_
  cases s <;> rfl

private theorem Identifier.ofJson_toJson {i : Identifier} (h : i.mark.Fits) :
    ofJson i.toJson = .ok (i.map Tree.eraseId id) := by
  let members := nodeMembers "Identifier" i.mark [("name", .string i.name)]
  have hname : readText (fun field => lookup field members) "name" = .ok i.name :=
    required_ok rfl rfl
  rw [show i.toJson = .object members from rfl, ofJson]
  refine readNode_nodeMembers h ?_ ?_
  · exact ⟨rfl, rfl, rfl⟩
  · exact Fields.map_ok hname

/-- The fields of a literal. -/
def Literal.members (l : Literal) : List (String × Json) :=
  [("value", l.value), ("raw", ofOption .string l.raw), ("regex", ofOption Regex.toJson l.regex),
    ("bigint", ofOption .string l.bigint)]

private theorem Literal.fields_ok (l : Literal) :
    Literal.fields (fun field => lookup field (nodeMembers "Literal" l.mark l.members))
      ⟨0, l.mark.loc⟩ = .ok (l.mapMark Tree.eraseId) := by
  have hregex : (ofOption Regex.toJson l.regex).readOption Regex.ofJson = .ok l.regex := by
    cases l.regex <;> rfl
  exact Fields.seq_ok (Fields.seq_ok (Fields.seq_ok (Fields.map_ok (defaulted_ok rfl rfl))
    (readText?_ok rfl)) (defaulted_ok rfl hregex)) (readText?_ok rfl)

private theorem Literal.ofJson_toJson {l : Literal} (h : l.mark.Fits) :
    ofJson l.toJson = .ok (l.mapMark Tree.eraseId) :=
  readNode_nodeMembers h ⟨rfl, rfl, rfl⟩ l.fields_ok

private theorem readTemplateValue_ok (raw : String) (cooked : Option String) :
    readTemplateValue (.object [("raw", .string raw), ("cooked", ofOption .string cooked)]) =
      .ok (raw, cooked) := by
  cases cooked <;> rfl

private theorem TemplateElement.ofJson_toJson {q : TemplateElement} (h : q.mark.Fits) :
    ofJson q.toJson = .ok (q.mapMark Tree.eraseId) := by
  let members := nodeMembers "TemplateElement" q.mark
    [("value", .object [("raw", .string q.raw), ("cooked", ofOption .string q.cooked)]),
      ("tail", .bool q.tail)]
  have htexts : Fields.required (fun field => lookup field members) "value" readTemplateValue =
      .ok (q.raw, q.cooked) := required_ok rfl (readTemplateValue_ok q.raw q.cooked)
  have htail : readFlag (fun field => lookup field members) "tail" = .ok q.tail :=
    defaulted_ok rfl rfl
  rw [show q.toJson = .object members from rfl, ofJson]
  refine readNode_nodeMembers h ?_ ?_
  · exact ⟨rfl, rfl, rfl⟩
  · exact Fields.seq_ok (Fields.map_ok htexts) htail

private theorem readTemplateElements_ok {quasis : List TemplateElement}
    (h : ∀ m ∈ quasis.map (·.mark), m.Fits) :
    readTemplateElements (.array (quasis.map TemplateElement.toJson)) =
      .ok (quasis.map (·.mapMark Tree.eraseId)) := by
  change (quasis.map TemplateElement.toJson).mapM TemplateElement.ofJson = _
  induction quasis with
  | nil => rfl
  | cons q qs ih =>
    rw [List.map_cons, List.forall_mem_cons] at h
    rw [List.map_cons, List.mapM_cons, TemplateElement.ofJson_toJson h.1, ih h.2]
    rfl

section Leaves

variable {members : List (String × Json)} {field : String}

private theorem text?_ok {s : Option String}
    (hv : lookup field members = some (ofOption .string s)) :
    (partsOf members).text? field = .ok s :=
  readText?_ok (values_eq_some hv)

private theorem name_ok {i : Identifier} (hv : lookup field members = some i.toJson)
    (h : ∀ m ∈ [i.mark], m.Fits) : (partsOf members).name field = .ok (i.map Tree.eraseId id) :=
  required_ok (values_eq_some hv) (Identifier.ofJson_toJson (h _ (.head _)))

private theorem name?_ok {i : Option Identifier}
    (hv : lookup field members = some (ofOption Identifier.toJson i))
    (h : ∀ m ∈ (i.map (·.mark)).toList, m.Fits) :
    (partsOf members).name? field = .ok (i.map (·.map Tree.eraseId id)) := by
  refine defaulted_ok (values_eq_some hv) (readOption_ofOption (fun _ => Json.noConfusion) ?_)
  intro a ha
  exact Identifier.ofJson_toJson (h _ (by simp [Option.mem_def.mp ha]))

private theorem source_ok {l : Literal} (hv : lookup field members = some l.toJson)
    (h : ∀ m ∈ [l.mark], m.Fits) :
    (partsOf members).source field = .ok (l.mapMark Tree.eraseId) :=
  required_ok (values_eq_some hv) (Literal.ofJson_toJson (h _ (.head _)))

private theorem source?_ok {l : Option Literal}
    (hv : lookup field members = some (ofOption Literal.toJson l))
    (h : ∀ m ∈ (l.map (·.mark)).toList, m.Fits) :
    (partsOf members).source? field = .ok (l.map (·.mapMark Tree.eraseId)) := by
  refine defaulted_ok (values_eq_some hv) (readOption_ofOption (fun _ => Json.noConfusion) ?_)
  intro a ha
  exact Literal.ofJson_toJson (h _ (by simp [Option.mem_def.mp ha]))

end Leaves

private theorem VariableKind.lookup_spelling (k : VariableKind) :
    spellings.lookup k.spelling = some k := by
  cases k <;> rfl

private theorem PropertyKind.lookup_spelling (k : PropertyKind) :
    spellings.lookup k.spelling = some k := by
  cases k <;> rfl

private theorem MethodKind.lookup_spelling (k : MethodKind) :
    spellings.lookup k.spelling = some k := by
  cases k <;> rfl

private theorem UpdateOperator.lookup_spelling (k : UpdateOperator) :
    spellings.lookup k.spelling = some k := by
  cases k <;> rfl

private theorem AssignmentOperator.lookup_spelling (k : AssignmentOperator) :
    spellings.lookup k.spelling = some k := by
  cases k <;> rfl

/-! ## Nodes -/

section Nodes

variable {type : String} {m : Mark} {fields : List (String × Json)} {isPart : Bool}

private theorem values_type_nodeMembers (h : lookup "type" fields = none) :
    (partsOf (nodeMembers type m fields)).values "type" = some (.string type) := by
  rw [values_partsOf]
  simp [nodeMembers, lookup, h]

theorem readAt_ofNode {c : Category} (h : lookup "type" fields = none)
    (hc : c.isOptional = false) :
    (ofNode type m fields).readAt isPart c =
      (partsOf (nodeMembers type m fields)).ofType type c := by
  change (partsOf (nodeMembers type m fields)).read isPart c = _
  have htag : ∀ types, (partsOf (nodeMembers type m fields)).tag isPart types = .ok type := by
    intro types
    rw [Parts.tag, values_type_nodeMembers h]
  have hname : (partsOf (nodeMembers type m fields)).typeName = .ok type := by
    rw [Parts.typeName, values_type_nodeMembers h]
  rw [Parts.read_eq _ _ hc, Parts.type]
  cases c with
  | optional d => cases hc
  | _ => first | rfl | (simp only [Category.tagging, htag, hname]; rfl)

end Nodes

/-- The type of the nodes of a category, where there is only one and a family takes it in. -/
def Category.onlyType? : Category → Option String
  | .block => some "BlockStatement"
  | .declaration => some "VariableDeclaration"
  | .function form => some form.typeName
  | .classOf form => some form.typeName
  | .access => some "MemberExpression"
  | .spread => some "SpreadElement"
  | .rest => some "RestElement"
  | .template => some "TemplateLiteral"
  | _ => none

/-- The tree is written as a node of the type `type`. -/
def Tree.IsWrittenAs {c : Category} (t : Tree c) (type : String) : Prop :=
  ∃ m fields, t.toJson = ofNode type m fields ∧ lookup "type" fields = none

namespace Tree

private theorem isWrittenAs_onlyType {c : Category} {type : String} (t : Tree c)
    (hc : c.onlyType? = some type) : t.IsWrittenAs type := by
  cases t
  all_goals first
    | obtain rfl := Option.some.inj hc
      exact ⟨_, _, rfl, rfl⟩
    | exact nomatch hc

private theorem expression_isWrittenAs (e : Expr) : e.IsWrittenAs (Expr.typeName e) := by
  cases e
  case arrowFunction t | functionExpression t | classExpression t | memberExpression t
      | spreadExpression t | templateExpression t =>
    exact isWrittenAs_onlyType t rfl
  all_goals exact ⟨_, _, rfl, rfl⟩

private theorem pattern_isWrittenAs (p : Pat) : p.IsWrittenAs (Pat.typeName p) := by
  cases p
  case memberPattern t | restPattern t => exact isWrittenAs_onlyType t rfl
  all_goals exact ⟨_, _, rfl, rfl⟩

private theorem expression_typeName_ne (e : Expr) (type : String)
    (h : type ∉ Category.tags .expression) : Expr.typeName e ≠ type := by
  have hmem : Expr.typeName e ∈ Category.tags .expression := by
    cases e
    case' binaryExpression form _ _ _ _ => cases form
    all_goals exact of_decide_eq_true rfl
  exact fun heq => h (heq ▸ hmem)

private theorem pattern_typeName_ne (p : Pat) (type : String) (h : type ∉ Category.tags .pattern) :
    Pat.typeName p ≠ type := by
  have hmem : Pat.typeName p ∈ Category.tags .pattern := by
    cases p <;> exact of_decide_eq_true rfl
  exact fun heq => h (heq ▸ hmem)

/-- A node that is a tree of two categories is read as the one if it is read as the other. -/
private theorem IsWrittenAs.readAt {c d : Category} {t t' : Tree d} {type : String}
    {f : Tree d → Tree c} (ht : t.IsWrittenAs type)
    (hf : ∀ o : Parts, o.ofType type c = f <$> o.ofType type d) (hc : c.isOptional = false)
    (hd : d.isOptional = false) {isPart : Bool} (h : t.toJson.readAt isPart d = .ok t') :
    t.toJson.readAt isPart c = .ok (f t') := by
  obtain ⟨m, fields, htype, hfields⟩ := ht
  rw [htype, readAt_ofNode hfields hd] at h
  rw [htype, readAt_ofNode hfields hc, hf, h]
  rfl

end Tree

/-- No part of the category is an optional part of an optional part. -/
def Category.isSimple : Category → Bool
  | .optional (.optional _) => false
  | .optional c => c.isSimple
  | .list c => c.isSimple
  | _ => true

private theorem Tree.exists_toJson_eq_array {c : Category} : (t : Tree (.list c)) →
    ∃ items, t.toJson = .array items
  | .nil => ⟨[], rfl⟩
  | .cons head tail => by
    obtain ⟨items, h⟩ := exists_toJson_eq_array tail
    refine ⟨head.toJson :: items, ?_⟩
    change Json.cons head.toJson tail.toJson = _
    rw [h]
    rfl

/-- Only a missing part is written as null. -/
theorem Tree.toJson_ne_null {c : Category} (t : Tree c) (hc : c.isOptional = false) :
    t.toJson ≠ .null := by
  induction t
  case absent => exact nomatch hc
  case present => exact nomatch hc
  case nil => exact nofun
  case cons head tail _ _ =>
    obtain ⟨items, h⟩ := exists_toJson_eq_array (cons head tail)
    rw [h]
    exact nofun
  all_goals first
    | exact ‹_ = false → _ ≠ _› rfl
    | exact fun h => Json.noConfusion h

namespace Tree

/-- The tree is read back from its form, but for the numbers of its nodes. -/
def ReadsBack {c : Category} (t : Tree c) : Prop :=
  c.isSimple → (∀ m ∈ t.marks, m.Fits) →
    ∀ isPart, t.toJson.readAt isPart c = .ok (t.map eraseId id)

section Fields

variable {members : List (String × Json)} {field : String} {c : Category}

private theorem tree_ok {t : Tree c} (hv : lookup field members = some t.toJson) (ht : t.ReadsBack)
    (hc : c.isSimple) (h : ∀ m ∈ t.marks, m.Fits) :
    (partsOf members).tree field c = .ok (t.map eraseId id) :=
  required_ok (partsOf_eq_some hv) (ht hc h true)

private theorem tree?_ok {t : Tree (.optional c)} (hv : lookup field members = some t.toJson)
    (ht : t.ReadsBack) (hc : (Category.optional c).isSimple) (h : ∀ m ∈ t.marks, m.Fits) :
    (partsOf members).tree? field c = .ok (t.map eraseId id) :=
  defaulted_ok (partsOf_eq_some hv) (ht hc h true)

end Fields

private theorem cons_readsBack {c : Category} {head : Tree c} {tail : Tree (.list c)}
    (hhead : head.ReadsBack) (htail : tail.ReadsBack) : (cons head tail).ReadsBack := by
  intro hc h isPart
  obtain ⟨hheadFits, htailFits⟩ := List.forall_mem_append.mp h
  obtain ⟨items, hitems⟩ := exists_toJson_eq_array tail
  have hothers := htail hc htailFits isPart
  rw [hitems] at hothers
  change (Json.cons head.toJson tail.toJson).readAt isPart _ = _
  rw [hitems]
  change (do
    let first ← head.toJson.readAt true c
    let others ← (Json.array items).readAt isPart (.list c)
    return Tree.cons first others) = _
  rw [hhead hc hheadFits true, hothers]
  rfl

private theorem present_readsBack {c : Category} {part : Tree c} (hpart : part.ReadsBack) :
    (present part).ReadsBack := by
  intro hc h isPart
  have hoptional : c.isOptional = false := by cases c <;> first | rfl | exact nomatch hc
  have hsimple : c.isSimple := by cases c <;> first | exact hc | exact nomatch hc
  change part.toJson.readAt isPart _ = _
  rw [readAt_optional (toJson_ne_null part hoptional), hpart hsimple h]
  rfl

/-- Every tree is read back from its form. -/
theorem readsBack {c : Category} (t : Tree c) : t.ReadsBack := by
  induction t
  case cons ihhead ihtail => exact cons_readsBack ihhead ihtail
  case present ih => exact present_readsBack ih
  all_goals intro hc h isPart
  case nil | absent => rfl
  -- A node that is written by one of its parts is read by the rule for that part.
  case blockStatement t ih | classDeclaration t ih | functionDeclaration t ih
      | variableDeclaration t ih | initDeclaration t ih | targetDeclaration t ih
      | defaultFunction t ih | defaultClass t ih | blockBody t ih | arrowFunction t ih
      | functionExpression t ih | classExpression t ih | memberExpression t ih
      | spreadExpression t ih | templateExpression t ih | spreadMember t ih | memberPattern t ih
      | restPattern t ih | restMember t ih =>
    exact (isWrittenAs_onlyType t rfl).readAt (fun _ => rfl) rfl rfl (ih rfl h _)
  case initExpression e ih =>
    have hne := expression_typeName_ne e "VariableDeclaration" (by decide)
    exact (expression_isWrittenAs e).readAt (f := initExpression) (fun _ => if_neg hne) rfl rfl
      (ih rfl h _)
  case targetPattern p ih =>
    have hne := pattern_typeName_ne p "VariableDeclaration" (by decide)
    exact (pattern_isWrittenAs p).readAt (f := targetPattern) (fun _ => if_neg hne) rfl rfl
      (ih rfl h _)
  case defaultExpression e ih =>
    have hfun := expression_typeName_ne e "FunctionDeclaration" (by decide)
    have hclass := expression_typeName_ne e "ClassDeclaration" (by decide)
    exact (expression_isWrittenAs e).readAt (f := defaultExpression)
      (fun _ => (if_neg hfun).trans (if_neg hclass)) rfl rfl (ih rfl h _)
  case expressionBody e ih =>
    have hne := expression_typeName_ne e "BlockStatement" (by decide)
    exact (expression_isWrittenAs e).readAt (f := expressionBody) (fun _ => if_neg hne) rfl rfl
      (ih rfl h _)
  -- Any other node is read by its own rule: first its place, then field by field.
  case' iterationStatement form _ _ _ _ _ _ _ _ => cases form
  case' binaryExpression form _ _ _ _ _ _ => cases form
  all_goals
    refine (readAt_ofNode ?_ rfl).trans ?_
    · rfl
    conv => rhs; arg 1; whnf
    unfold Parts.ofType
    try unfold Parts.read
    try unfold Parts.statement
    try unfold Parts.expression
    try unfold Parts.pattern
    simp only []
    refine node_nodeMembers (h _ (.head _)) ?_ ?_
    · exact ⟨rfl, rfl, rfl⟩
    repeat' first
      | with_reducible refine Fields.seq_ok ?_ ?_
      | with_reducible refine Fields.map_ok ?_
  all_goals first
    | (with_reducible refine tree_ok ?_ ?_ ?_ ?_)
      · rfl
      · assumption
      · rfl
      · exact fun x hx => h x (List.mem_cons_of_mem _ (by simp [hx]))
    | (with_reducible refine tree?_ok ?_ ?_ ?_ ?_)
      · rfl
      · assumption
      · rfl
      · exact fun x hx => h x (List.mem_cons_of_mem _ (by simp [hx]))
    | (with_reducible refine flag_ok ?_)
      rfl
    | (with_reducible refine text_ok ?_)
      rfl
    | (with_reducible refine text?_ok ?_)
      rfl
    | (with_reducible refine name_ok ?_ ?_)
      · rfl
      · exact fun x hx => h x (List.mem_cons_of_mem _ (by simp_all))
    | (with_reducible refine name?_ok ?_ ?_)
      · rfl
      · exact fun x hx => h x (List.mem_cons_of_mem _ (by simp_all))
    | (with_reducible refine source_ok ?_ ?_)
      · rfl
      · exact fun x hx => h x (List.mem_cons_of_mem _ (by simp_all))
    | (with_reducible refine source?_ok ?_ ?_)
      · rfl
      · exact fun x hx => h x (List.mem_cons_of_mem _ (by simp_all))
    | (with_reducible exact Fields.pure_eq_ok.mpr rfl)
    | skip
  case declaration => exact word_ok rfl (VariableKind.lookup_spelling _)
  case method => exact word_ok rfl (MethodKind.lookup_spelling _)
  case property => exact word_ok rfl (PropertyKind.lookup_spelling _)
  case assignmentExpression => exact word_ok rfl (AssignmentOperator.lookup_spelling _)
  case updateExpression => exact word_ok rfl (UpdateOperator.lookup_spelling _)
  case updateExpression => exact required_ok (values_eq_some rfl) rfl
  case directiveStatement => exact defaulted_ok (values_eq_some rfl) rfl
  case exportNamedDeclaration m d specifiers source _ ih =>
    refine defaulted_ok (partsOf_eq_some rfl) (ih rfl ?_ true)
    exact fun x hx => h x (List.mem_cons_of_mem _ (by simp [hx]))
  case template m quasis expressions _ =>
    refine required_ok (values_eq_some rfl) (readTemplateElements_ok ?_)
    exact fun x hx => h x (List.mem_cons_of_mem _ (List.mem_append_left _ hx))
  case identifier => exact Fields.map_ok (text_ok rfl)
  case identifierPattern => exact Fields.map_ok (text_ok rfl)
  case literal l =>
    rw [values_partsOf]
    exact l.fields_ok

end Tree

/-- A program that is written and then read is the same program, with its nodes numbered. A value
that is read as a member of a family names the type of that member and gives its place. -/
theorem Program.toJson_roundTrip (p : Program) (v : Json) (isPart : Bool) :
    ((∀ m ∈ p.marks, m.loc.start < UInt64.size ∧ m.loc.stop < UInt64.size) →
      Program.ofJson p.toJson = .ok p.number) ∧
    (∀ x : Stmt, v.readAt isPart .statement = .ok x →
      v.NamesType isPart .statement (Stmt.typeName x) ∧ v.Places (Stmt.mark x).loc) ∧
    (∀ x : Expr, v.readAt isPart .expression = .ok x →
      v.NamesType isPart .expression (Expr.typeName x) ∧ v.Places (Expr.mark x).loc) ∧
    (∀ x : Pat, v.readAt isPart .pattern = .ok x →
      v.NamesType isPart .pattern (Pat.typeName x) ∧ v.Places (Pat.mark x).loc) ∧
    (∀ x : Tree .objectMember, v.readAt isPart .objectMember = .ok x →
      v.NamesType isPart .objectMember (ObjectMember.typeName x) ∧
        v.Places (ObjectMember.mark x).loc) ∧
    (∀ x : Tree .patternMember, v.readAt isPart .patternMember = .ok x →
      v.NamesType isPart .patternMember (PatternMember.typeName x) ∧
        v.Places (PatternMember.mark x).loc) ∧
    (∀ x : Tree .method, v.readAt isPart .method = .ok x →
      v.NamesType isPart .method (ClassMember.typeName x) ∧ v.Places (ClassMember.mark x).loc) ∧
    ∀ x : Tree .importSpecifier, v.readAt isPart .importSpecifier = .ok x →
      v.NamesType isPart .importSpecifier (ImportSpecifier.typeName x) ∧
        v.Places (ImportSpecifier.mark x).loc := by
  refine ⟨fun hp => ?_, ?_, ?_, ?_, ?_, ?_, ?_, ?_⟩
  · cases p with
    | program m body =>
      have hread := Tree.readsBack (.program m body) rfl hp false
      change Tree.number <$> (Tree.toJson (.program m body)).read .program = _
      rw [Json.read, hread]
      exact congrArg Except.ok (Tree.number_relabel (fun _ => 0) (.program m body))
  · exact fun x => namesType_places rfl fun _ _ => Parts.type_of_statement
  · exact fun x => namesType_places rfl fun _ _ => Parts.type_of_expression
  · exact fun x => namesType_places rfl fun _ _ => Parts.type_of_pattern
  · exact fun x => namesType_places rfl fun _ _ => Parts.type_of_objectMember
  · exact fun x => namesType_places rfl fun _ _ => Parts.type_of_patternMember
  · exact fun x => namesType_places rfl fun _ _ => Parts.type_of_method
  · exact fun x => namesType_places rfl fun _ _ => Parts.type_of_importSpecifier

/-- A program that throws `this`. -/
def Program.throwing : Program :=
  .program ⟨0, ⟨0, 11⟩⟩ (.cons (.throwStatement ⟨0, ⟨0, 11⟩⟩ (.thisExpression ⟨0, ⟨6, 10⟩⟩)) .nil)

/-- A program that throws `this` is read back with its nodes numbered. A value that gives no start
stands at its range. -/
theorem Program.toJson_roundTrip_throwing :
    Program.ofJson Program.throwing.toJson = .ok (.program ⟨0, ⟨0, 11⟩⟩
      (.cons (.throwStatement ⟨1, ⟨0, 11⟩⟩ (.thisExpression ⟨2, ⟨6, 10⟩⟩)) .nil)) ∧
    (Json.object [("type", .ofNat 7), ("end", .ofNat 9),
      ("range", .array [.ofNat 2, .ofNat 3])]).Places ⟨2, 3⟩ :=
  ⟨(Program.toJson_roundTrip Program.throwing .null true).1 (by decide),
    ((Program.toJson_roundTrip Program.throwing _ true).2.1 (.emptyStatement ⟨0, ⟨2, 3⟩⟩) rfl).2⟩

/-- In a part of a program, the type of a statement need not be given by its name. -/
theorem Json.exists_type_not_string :
    Program.ofJson (.object [("type", .string "Program"),
      ("body", .array [.object [("type", .ofNat 7)]])]) =
        .ok (.program ⟨0, ⟨0, 0⟩⟩ (.cons (.emptyStatement ⟨1, ⟨0, 0⟩⟩) .nil)) ∧
    ¬∀ (v : Json) (isPart : Bool) (x : Stmt), v.readAt isPart .statement = .ok x →
      v.get? "type" = some (.string (Stmt.typeName x)) := by
  refine ⟨rfl, fun h => ?_⟩
  have htype := h (.object [("type", .ofNat 7)]) true (.emptyStatement ⟨0, ⟨0, 0⟩⟩) rfl
  exact nomatch htype

end EcmaScope
