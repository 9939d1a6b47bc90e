import EcmaScope.Proofs.Tagged
import Mathlib.Logic.Relation

/-!
# Keys that no reading looks at

What a value is read as depends on where it stands, and so do the keys that are looked at: those of
the node's fields and of its place and, unless only one type of node may stand there, its type.
Members under other keys may be added, removed or changed in any number of objects. The same program
is read, or the same error is found.

## Main definitions

* `Slot`: what a value is read as where it stands.
* `Category.ownFields`, `Category.types`: the fields of the nodes of a category.
* `Slot.fields?`: the members of an object that are looked at.
* `Json.Edit`: a change of members that are not looked at, in one object at any depth.
* `Slot.SameReading`: two values are read alike where they stand.
* `Parts.Alike`: two objects are read alike in some fields.

## Main results

* `Parts.Alike.ofType`: an object of a known type is read from its place and the fields of the type.
* `Category.fieldsOf_typeOf`: the fields of an object are those of the type by which it is read.
* `sameReading_of_alike`: objects are read alike if they are alike in what is looked at.
* `Json.Edit.sameReading`: a change of members that are not looked at leaves the reading as it is.
* `Program.ofJson_eq_of_edits`: any number of such changes leave the program that is read as it is.
-/

namespace EcmaScope

open Json (partsOf lookup)

/-! ## What is looked at -/

/-- What a value is read as where it stands. -/
inductive Slot where
  /-- A value that is taken as it is. -/
  | plain
  /-- A whole program. -/
  | root
  | identifier
  | literal
  | regex
  /-- The two texts of a template element. -/
  | texts
  | templateElement
  | templateElements
  | tree (c : Category)
  deriving DecidableEq, Repr

namespace Slot

/-- The place of a node. -/
def place : List (String × Slot) :=
  [("start", .plain), ("end", .plain), ("range", .plain)]

/-- What the items of an array at a position are read as. -/
def item? : Slot → Option Slot
  | .templateElements => some .templateElement
  | .tree (.list c) => some (.tree c)
  | _ => none

end Slot

namespace Category

open Slot (plain)

/-- The fields of the nodes of a category, where one type of node may stand. -/
def ownFields : Category → List (String × Slot)
  | .program => [("body", .tree (.list .statement))]
  | .block => [("body", .tree (.list .statement))]
  | .declaration => [("kind", plain), ("declarations", .tree (.list .declarator))]
  | .declarator => [("id", .tree .pattern), ("init", .tree (.optional .expression))]
  | .switchCase =>
    [("test", .tree (.optional .expression)), ("consequent", .tree (.list .statement))]
  | .catchClause => [("param", .tree (.optional .pattern)), ("body", .tree .block)]
  | .function _ =>
    [("id", .identifier), ("params", .tree (.list .pattern)), ("body", .tree .functionBody),
      ("generator", plain), ("async", plain), ("expression", plain)]
  | .classOf _ =>
    [("id", .identifier), ("superClass", .tree (.optional .expression)),
      ("body", .tree .classBody)]
  | .classBody => [("body", .tree (.list .method))]
  | .access =>
    [("object", .tree .expression), ("property", .tree .expression), ("computed", plain),
      ("optional", plain)]
  | .spread => [("argument", .tree .expression)]
  | .rest => [("argument", .tree .pattern)]
  | .template => [("quasis", .templateElements), ("expressions", .tree (.list .expression))]
  | .exportSpecifier => [("local", .tree .expression), ("exported", .tree .expression)]
  | _ => []

/-- The types of statements, each with its fields. -/
def statementTypes : List (String × List (String × Slot)) :=
  [("BlockStatement", ownFields .block),
    ("BreakStatement", [("label", .identifier)]),
    ("ClassDeclaration", ownFields (.classOf .declaration)),
    ("ContinueStatement", [("label", .identifier)]),
    ("DebuggerStatement", []),
    ("DirectiveStatement", [("directive", plain), ("raw", plain)]),
    ("DoWhileStatement", [("body", .tree .statement), ("test", .tree .expression)]),
    ("EmptyStatement", []),
    ("ExportAllDeclaration",
      [("source", .literal), ("exported", .tree (.optional .expression))]),
    ("ExportDefaultDeclaration", [("declaration", .tree .exportDefault)]),
    ("ExportNamedDeclaration",
      [("declaration", .tree (.optional .statement)),
        ("specifiers", .tree (.list .exportSpecifier)), ("source", .literal)]),
    ("ExpressionStatement", [("expression", .tree .expression), ("directive", plain)]),
    ("ForInStatement",
      [("left", .tree .forTarget), ("right", .tree .expression), ("body", .tree .statement),
        ("await", plain)]),
    ("ForOfStatement",
      [("left", .tree .forTarget), ("right", .tree .expression), ("body", .tree .statement),
        ("await", plain)]),
    ("ForStatement",
      [("init", .tree (.optional .forInit)), ("test", .tree (.optional .expression)),
        ("update", .tree (.optional .expression)), ("body", .tree .statement)]),
    ("FunctionDeclaration", ownFields (.function .declaration)),
    ("IfStatement",
      [("test", .tree .expression), ("consequent", .tree .statement),
        ("alternate", .tree (.optional .statement))]),
    ("ImportDeclaration", [("specifiers", .tree (.list .importSpecifier)), ("source", .literal)]),
    ("LabeledStatement", [("label", .identifier), ("body", .tree .statement)]),
    ("ReturnStatement", [("argument", .tree (.optional .expression))]),
    ("SwitchStatement",
      [("discriminant", .tree .expression), ("cases", .tree (.list .switchCase))]),
    ("ThrowStatement", [("argument", .tree .expression)]),
    ("TryStatement",
      [("block", .tree .block), ("handler", .tree (.optional .catchClause)),
        ("finalizer", .tree (.optional .block))]),
    ("VariableDeclaration", ownFields .declaration),
    ("WhileStatement", [("test", .tree .expression), ("body", .tree .statement)]),
    ("WithStatement", [("object", .tree .expression), ("body", .tree .statement)])]

/-- The types of expressions, each with its fields. -/
def expressionTypes : List (String × List (String × Slot)) :=
  [("ArrayExpression", [("elements", .tree (.list (.optional .expression)))]),
    ("ArrowFunctionExpression", ownFields (.function .arrow)),
    ("AssignmentExpression",
      [("operator", plain), ("left", .tree .pattern), ("right", .tree .expression)]),
    ("AwaitExpression", [("argument", .tree .expression)]),
    ("BinaryExpression",
      [("operator", plain), ("left", .tree .expression), ("right", .tree .expression)]),
    ("CallExpression",
      [("callee", .tree .expression), ("arguments", .tree (.list .expression)),
        ("optional", plain)]),
    ("ChainExpression", [("expression", .tree .expression)]),
    ("ClassExpression", ownFields (.classOf .expression)),
    ("ConditionalExpression",
      [("test", .tree .expression), ("consequent", .tree .expression),
        ("alternate", .tree .expression)]),
    ("FunctionExpression", ownFields (.function .expression)),
    ("Identifier", [("name", plain)]),
    ("ImportExpression", [("source", .tree .expression)]),
    ("Literal", [("value", plain), ("raw", plain), ("regex", .regex), ("bigint", plain)]),
    ("LogicalExpression",
      [("operator", plain), ("left", .tree .expression), ("right", .tree .expression)]),
    ("MemberExpression", ownFields .access),
    ("MetaProperty", [("meta", .identifier), ("property", .identifier)]),
    ("NewExpression",
      [("callee", .tree .expression), ("arguments", .tree (.list .expression)),
        ("optional", plain)]),
    ("ObjectExpression", [("properties", .tree (.list .objectMember))]),
    ("SequenceExpression", [("expressions", .tree (.list .expression))]),
    ("SpreadElement", ownFields .spread),
    ("Super", []),
    ("TaggedTemplateExpression", [("tag", .tree .expression), ("quasi", .tree .template)]),
    ("TemplateLiteral", ownFields .template),
    ("ThisExpression", []),
    ("UnaryExpression",
      [("operator", plain), ("prefix", plain), ("argument", .tree .expression)]),
    ("UpdateExpression",
      [("operator", plain), ("prefix", plain), ("argument", .tree .expression)]),
    ("YieldExpression", [("argument", .tree (.optional .expression)), ("delegate", plain)])]

/-- The types of patterns, each with its fields. -/
def patternTypes : List (String × List (String × Slot)) :=
  [("ArrayPattern", [("elements", .tree (.list (.optional .pattern)))]),
    ("AssignmentPattern", [("left", .tree .pattern), ("right", .tree .expression)]),
    ("Identifier", [("name", plain)]),
    ("MemberExpression", ownFields .access),
    ("ObjectPattern", [("properties", .tree (.list .patternMember))]),
    ("RestElement", ownFields .rest)]

/-- The types of the nodes that may stand at a position of a category, each with its fields. -/
def types : Category → List (String × List (String × Slot))
  | .statement => statementTypes
  | .expression => expressionTypes
  | .pattern => patternTypes
  | .objectMember =>
    [("Property",
        [("key", .tree .expression), ("value", .tree .expression), ("kind", plain),
          ("method", plain), ("shorthand", plain), ("computed", plain)]),
      ("SpreadElement", ownFields .spread)]
  | .patternMember =>
    [("Property",
        [("key", .tree .expression), ("value", .tree .pattern), ("computed", plain),
          ("shorthand", plain)]),
      ("RestElement", ownFields .rest)]
  | .method =>
    [("MethodDefinition",
      [("key", .tree .expression), ("value", .tree (.function .expression)), ("kind", plain),
        ("computed", plain), ("static", plain)])]
  | .importSpecifier =>
    [("ImportDefaultSpecifier", [("local", .identifier)]),
      ("ImportNamespaceSpecifier", [("local", .identifier)]),
      ("ImportSpecifier", [("imported", .tree .expression), ("local", .identifier)])]
  | .functionBody => ("BlockStatement", ownFields .block) :: expressionTypes
  | .forInit => ("VariableDeclaration", ownFields .declaration) :: expressionTypes
  | .forTarget => ("VariableDeclaration", ownFields .declaration) :: patternTypes
  | .exportDefault =>
    ("FunctionDeclaration", ownFields (.function .declaration)) ::
      ("ClassDeclaration", ownFields (.classOf .declaration)) :: expressionTypes
  | _ => []

/-- The fields of a node of the type `type` at a position of a category. -/
def fieldsOf (c : Category) (type : String) : List (String × Slot) :=
  match c.tagging with
  | .fixed => c.ownFields
  | _ => (c.types.lookup type).getD []

/-- The type that a value names at a position of a category, or an empty name. -/
def typeOf (c : Category) (v : Json) : String :=
  match c.tagging, v.get? "type" with
  | .family, some (.string type) => type
  | .family, some (.number (.integer (.ofNat k))) => c.tags.getD k ""
  | .mixed, some (.string type) => type
  | _, _ => ""

/-- The type of a node, where it is looked at. -/
def typeField (c : Category) : List (String × Slot) :=
  match c.tagging with
  | .fixed => []
  | _ => [("type", plain)]

/-- The members of a value that are looked at when it is read as a node of a category. -/
def fields? (c : Category) (v : Json) : Option (List (String × Slot)) :=
  match c with
  | .list _ | .optional _ => none
  | c => some (c.typeField ++ Slot.place ++ c.fieldsOf (c.typeOf v))

end Category

/-- The members of an object that are looked at where it stands, and what they are read as. -/
def Slot.fields? (slot : Slot) (v : Json) : Option (List (String × Slot)) :=
  match slot with
  | .plain | .templateElements => none
  | .root => some ([("type", .plain)] ++ place ++ Category.ownFields .program)
  | .identifier => some (place ++ [("name", .plain)])
  | .literal =>
    some (place ++ [("value", .plain), ("raw", .plain), ("regex", .regex), ("bigint", .plain)])
  | .regex => some [("pattern", .plain), ("flags", .plain)]
  | .texts => some [("raw", .plain), ("cooked", .plain)]
  | .templateElement => some (place ++ [("value", .texts), ("tail", .plain)])
  | .tree c => c.fields? v

/-- One value comes from another by a change of members that are not looked at, in one object. -/
inductive Json.Edit : Slot → Json → Json → Prop where
  /-- In the object itself, members that are not looked at are added, removed or changed. -/
  | foreign {slot : Slot} {members members' : List (String × Json)} {fields : List (String × Slot)}
      (hfields : slot.fields? (.object members) = some fields)
      (h : ∀ field ∈ fields, lookup field.1 members' = lookup field.1 members) :
      Edit slot (.object members) (.object members')
  /-- The change is in one member, within what the member is read as if it is looked at. -/
  | field {slot : Slot} {members members' : List (String × Json)} {fields : List (String × Slot)}
      {key : String} {v v' : Json} (hfields : slot.fields? (.object members) = some fields)
      (hv : lookup key members = some v) (hv' : lookup key members' = some v')
      (h : ∀ inner, (key, inner) ∈ fields → Edit inner v v')
      (hothers : ∀ other, other ≠ key → lookup other members' = lookup other members) :
      Edit slot (.object members) (.object members')
  /-- The change is somewhere in an item of an array. -/
  | item {slot inner : Slot} {front back : List Json} {v v' : Json}
      (hitem : slot.item? = some inner) (h : Edit inner v v') :
      Edit slot (.array (front ++ v :: back)) (.array (front ++ v' :: back))
  /-- The change is in a part that could be left out. -/
  | present {c : Category} {v v' : Json} (h : Edit (.tree c) v v') :
      Edit (.tree (.optional c)) v v'

/-! ## Fields that are read alike -/

/-- A field is read alike from two objects. -/
def Fields.Same {α β : Type} (get get' : String → Option α) (key : String)
    (read : α → Except ReadError β) : Prop :=
  Fields.required get key read = Fields.required get' key read ∧
    ∀ default, Fields.defaulted get key default read = Fields.defaulted get' key default read

namespace Fields.Same

variable {α β : Type} {get get' : String → Option α} {key : String} {read : α → Except ReadError β}

private theorem of_eq (h : get key = get' key) : Same get get' key read := by
  simp [Same, Fields.required, Fields.defaulted, h]

private theorem of_read {a a' : α} (ha : get key = some a) (ha' : get' key = some a')
    (h : read a = read a') : Same get get' key read := by
  simp [Same, Fields.required, Fields.defaulted, Fields.found, ha, ha', h]

end Fields.Same

open Fields (Same)

/-- Two values are read alike where they stand. -/
def Slot.SameReading (v v' : Json) : Slot → Prop
  | .plain => v = v'
  | .root => Program.ofJson v = Program.ofJson v'
  | .identifier => Identifier.ofJson v = Identifier.ofJson v'
  | .literal => Literal.ofJson v = Literal.ofJson v'
  | .regex => Regex.ofJson v = Regex.ofJson v'
  | .texts => readTemplateValue v = readTemplateValue v'
  | .templateElement => TemplateElement.ofJson v = TemplateElement.ofJson v'
  | .templateElements => readTemplateElements v = readTemplateElements v'
  | .tree c => ∀ isPart, v.readAt isPart c = v'.readAt isPart c

/-- The parts of two objects under a key are read alike by all that reads them there. -/
def Parts.AlikeAt (o o' : Parts) (key : String) : Slot → Prop
  | .plain =>
    o.values key = o'.values key ∧
      ∀ {β : Type} (read : Json → Except ReadError β), Same o.values o'.values key read
  | .root => Same o.values o'.values key Program.ofJson
  | .identifier =>
    Same o.values o'.values key Identifier.ofJson ∧
      Same o.values o'.values key (Json.readOption Identifier.ofJson)
  | .literal =>
    Same o.values o'.values key Literal.ofJson ∧
      Same o.values o'.values key (Json.readOption Literal.ofJson)
  | .regex => Same o.values o'.values key (Json.readOption Regex.ofJson)
  | .texts => Same o.values o'.values key readTemplateValue
  | .templateElement => Same o.values o'.values key TemplateElement.ofJson
  | .templateElements => Same o.values o'.values key readTemplateElements
  | .tree c => Same o o' key (·.read c)

section AlikeAt

variable {members members' : List (String × Json)} {key : String} {slot : Slot}

theorem alikeAt_of_eq (h : lookup key members' = lookup key members) :
    (partsOf members).AlikeAt (partsOf members') key slot := by
  have hparts : partsOf members key = partsOf members' key := by
    rw [Json.partsOf_apply, Json.partsOf_apply, h]
  have hvalues : (partsOf members).values key = (partsOf members').values key := by
    rw [Parts.values, Parts.values, hparts]
  cases slot with
  | plain => exact ⟨hvalues, fun _ => .of_eq hvalues⟩
  | identifier => exact ⟨.of_eq hvalues, .of_eq hvalues⟩
  | literal => exact ⟨.of_eq hvalues, .of_eq hvalues⟩
  | tree c => exact .of_eq hparts
  | _ => exact .of_eq hvalues

private theorem alikeAt_of_sameReading {v v' : Json} (hv : lookup key members = some v)
    (hv' : lookup key members' = some v') (hnull : v ≠ .null) (hnull' : v' ≠ .null)
    (h : slot.SameReading v v') : (partsOf members).AlikeAt (partsOf members') key slot := by
  have hvalue := Json.values_eq_some hv
  have hvalue' := Json.values_eq_some hv'
  have hoption {α : Type} {read : Json → Except ReadError α} (hread : read v = read v') :
      v.readOption read = v'.readOption read := by
    rw [Json.readOption_of_ne_null hnull, Json.readOption_of_ne_null hnull', hread]
  cases slot with
  | plain =>
    have hvalues := (hvalue.trans (congrArg some h)).trans hvalue'.symm
    exact ⟨hvalues, fun _ => .of_eq hvalues⟩
  | identifier => exact ⟨.of_read hvalue hvalue' h, .of_read hvalue hvalue' (hoption h)⟩
  | literal => exact ⟨.of_read hvalue hvalue' h, .of_read hvalue hvalue' (hoption h)⟩
  | regex => exact .of_read hvalue hvalue' (hoption h)
  | tree c => exact .of_read (Json.partsOf_eq_some hv) (Json.partsOf_eq_some hv') (h true)
  | _ => exact .of_read hvalue hvalue' h

end AlikeAt

/-! ## Objects that are read alike -/

namespace Parts

/-- Two objects are read alike in all of the fields of a list. -/
def Alike (o o' : Parts) (fields : List (String × Slot)) : Prop :=
  ∀ field ∈ fields, o.AlikeAt o' field.1 field.2

variable {o o' : Parts}

private theorem alike_append {fields fields' : List (String × Slot)} :
    o.Alike o' (fields ++ fields') ↔ o.Alike o' fields ∧ o.Alike o' fields' :=
  List.forall_mem_append

theorem Alike.readLoc (h : o.Alike o' Slot.place) : readLoc o.values = readLoc o'.values := by
  simp only [Alike, Slot.place, List.forall_mem_cons, AlikeAt] at h
  simp only [EcmaScope.readLoc, readAside, h]

theorem Alike.node {α : Type} {fields fields' : Mark → Fields α} (h : o.Alike o' Slot.place)
    (hfields : ∀ m, fields m = fields' m) : o.node fields = o'.node fields' := by
  rw [Parts.node, Parts.node, readNode, readNode, h.readLoc, funext hfields]

/-- A node where one type of node may stand is read from its own fields. -/
theorem Alike.fixed {c : Category} (h : o.Alike o' c.ownFields) (hplace : o.Alike o' Slot.place)
    (hc : c.tagging = .fixed) (hoptional : c.isOptional = false) (type : String) :
    o.ofType type c = o'.ofType type c := by
  cases c
  case optional => exact nomatch hoptional
  case list => rfl
  all_goals first
    | (cases hc; done)
    | unfold ofType read
      refine hplace.node fun m => ?_
      simp only [Alike, Category.ownFields, List.forall_mem_cons, AlikeAt, Same] at h
      simp only [tree, tree?, name?, word, flag, readFlag, h]

/-- A type that is not one of a family is read as no member of it. -/
theorem ofType_of_not_mem {c : Category} {type : String} (hc : c.tagging = .family)
    (h : type ∉ c.tags) : o.ofType type c = .error (.unknownVariant type) := by
  cases c
  all_goals first
    | (cases hc; done)
    | dsimp only [ofType]
      first
        | unfold statement
        | unfold expression
        | unfold pattern
        | unfold objectMember
        | unfold patternMember
        | unfold method
        | unfold importSpecifier
      split
  all_goals first
    | rfl
    | exact absurd (of_decide_eq_true rfl) h

/-- A member of a family is read from its own fields. -/
theorem Alike.family {c : Category} {type : String} (h : o.Alike o' (c.fieldsOf type))
    (hplace : o.Alike o' Slot.place) (hc : c.tagging = .family) :
    o.ofType type c = o'.ofType type c := by
  by_cases hmem : type ∈ c.tags
  -- The types are taken one by one: the rule for each and its entry in the table have to agree.
  · cases c
    all_goals first
      | (cases hc; done)
      | simp only [Category.tags, List.mem_cons, List.not_mem_nil, or_false] at hmem
        repeat' rcases hmem with rfl | hmem
    all_goals
      dsimp only [ofType]
      first
        | unfold statement
        | unfold expression
        | unfold pattern
        | unfold objectMember
        | unfold patternMember
        | unfold method
        | unfold importSpecifier
      simp only [Category.fieldsOf, Category.tagging, Category.types, Category.statementTypes,
        Category.expressionTypes, Category.patternTypes, List.lookup_cons, String.reduceBEq,
        Option.getD_some] at h ⊢
      first
        | exact congrArg (Functor.map _) (h.fixed hplace rfl rfl "")
        | refine hplace.node fun m => ?_
          simp only [Alike, List.forall_mem_cons, AlikeAt, Same] at h
          simp only [tree, tree?, name, name?, source, source?, text, readText, text?, readText?,
            flag, readFlag, word, Literal.fields, h]
  · rw [ofType_of_not_mem hc hmem, ofType_of_not_mem hc hmem]

/-- Where the first of some types stands for a category of its own, a node is read from the fields
of that category or as the other types have it. -/
theorem Alike.orElse {α : Type} {c : Category} {type name : String}
    {types : List (String × List (String × Slot))} {f : Tree c → α} {x x' : Except ReadError α}
    (h : o.Alike o' ((((name, c.ownFields) :: types).lookup type).getD []))
    (hplace : o.Alike o' Slot.place) (hc : c.tagging = .fixed) (hoptional : c.isOptional = false)
    (hx : o.Alike o' ((types.lookup type).getD []) → x = x') :
    (if type = name then f <$> o.ofType "" c else x) =
      if type = name then f <$> o'.ofType "" c else x' := by
  by_cases htype : type = name
  · rw [if_pos htype, if_pos htype]
    rw [List.lookup_cons, beq_iff_eq.mpr htype] at h
    exact congrArg (Functor.map f) (h.fixed hplace hc hoptional "")
  · rw [if_neg htype, if_neg htype]
    rw [List.lookup_cons, beq_false_of_ne htype] at h
    exact hx h

/-- A node where members of two families may stand is read from the fields of its type. -/
theorem Alike.mixed {c : Category} {type : String} (h : o.Alike o' (c.fieldsOf type))
    (hplace : o.Alike o' Slot.place) (hc : c.tagging = .mixed) :
    o.ofType type c = o'.ofType type c := by
  cases c
  case functionBody =>
    refine Alike.orElse (c := .block) h hplace rfl rfl fun h => ?_
    exact congrArg (Functor.map _) (Alike.family (c := .expression) h hplace rfl)
  case forInit =>
    refine Alike.orElse (c := .declaration) h hplace rfl rfl fun h => ?_
    exact congrArg (Functor.map _) (Alike.family (c := .expression) h hplace rfl)
  case forTarget =>
    refine Alike.orElse (c := .declaration) h hplace rfl rfl fun h => ?_
    exact congrArg (Functor.map _) (Alike.family (c := .pattern) h hplace rfl)
  case exportDefault =>
    refine Alike.orElse (c := .function .declaration) h hplace rfl rfl fun h => ?_
    refine Alike.orElse (c := .classOf .declaration) h hplace rfl rfl fun h => ?_
    exact congrArg (Functor.map _) (Alike.family (c := .expression) h hplace rfl)
  all_goals cases hc

/-- An object of a known type is read from the fields of the type. -/
theorem Alike.ofType {c : Category} {type : String} (hc : c.isOptional = false)
    (h : o.Alike o' (c.fieldsOf type)) (hplace : o.Alike o' Slot.place) :
    o.ofType type c = o'.ofType type c := by
  rcases htagging : c.tagging
  · exact Alike.fixed (by simpa only [Category.fieldsOf, htagging] using h) hplace htagging hc type
  · exact h.family hplace htagging
  · exact h.mixed hplace htagging

/-- What an object says about its type is what it holds in its field `type`. -/
theorem Alike.type {c : Category} (h : o.Alike o' c.typeField) (isPart : Bool) :
    o.type isPart c = o'.type isPart c := by
  unfold Category.typeField at h
  unfold Parts.type
  rcases htagging : c.tagging
  · rfl
  all_goals
    simp only [htagging, Alike, List.forall_mem_singleton, AlikeAt] at h
    simp only [tag, typeName, h.1]

end Parts

namespace Category

variable {members members' : List (String × Json)} {isPart : Bool} {c : Category}

private theorem typeOf_of_namesType {v : Json} {type : String} (hc : c.tagging = .family)
    (h : v.NamesType isPart c type) : c.typeOf v = type := by
  rcases h with htype | ⟨-, k, htype, hk⟩
  · simp only [typeOf, hc, htype]
  · simp only [typeOf, hc, htype, Json.ofNat, List.getD_eq_getElem?_getD, hk, Option.getD_some]

/-- The fields of an object that names its type are those of the type. -/
theorem fieldsOf_typeOf {type : String} (h : (partsOf members).type isPart c = .ok type) :
    c.fieldsOf (c.typeOf (.object members)) = c.fieldsOf type := by
  rcases htagging : c.tagging <;> simp only [Parts.type, htagging] at h
  · simp only [fieldsOf, htagging]
  · rw [typeOf_of_namesType htagging (Json.namesType_of_tag h)]
  · simp only [Parts.typeName, Json.values_partsOf] at h
    split at h
    next tag htag =>
      obtain rfl := Except.ok.inj h
      have htype : (Json.object members).get? "type" = some (.string tag) := htag
      simp only [typeOf, htagging, htype]
    next => cases h

private theorem fields?_eq_some {v : Json} {fields : List (String × Slot)}
    (h : c.fields? v = some fields) :
    c.isOptional = false ∧ fields = c.typeField ++ Slot.place ++ c.fieldsOf (c.typeOf v) := by
  cases c with
  | optional d => exact nomatch h
  | list d => exact nomatch h
  | _ => exact ⟨rfl, (Option.some.inj h).symm⟩

end Category

/-! ## Values that are read alike -/

section SameReading

variable {members members' : List (String × Json)} {fields : List (String × Slot)}

private theorem readAt_congr {c : Category} {isPart : Bool}
    (hfields : c.fields? (.object members) = some fields)
    (h : (partsOf members).Alike (partsOf members') fields) :
    (Json.object members).readAt isPart c = (Json.object members').readAt isPart c := by
  obtain ⟨hc, rfl⟩ := Category.fields?_eq_some hfields
  simp only [Parts.alike_append] at h
  obtain ⟨⟨htype, hplace⟩, h⟩ := h
  rw [Json.readAt_object, Json.readAt_object, Parts.read_eq _ _ hc, Parts.read_eq _ _ hc,
    ← htype.type]
  rcases hok : (partsOf members).type isPart c with cause | type
  · rfl
  · rw [Category.fieldsOf_typeOf hok] at h
    exact h.ofType hc hplace

/-- Objects that are alike in all that is looked at where they stand are read alike. -/
theorem sameReading_of_alike {slot : Slot} (hfields : slot.fields? (.object members) = some fields)
    (h : (partsOf members).Alike (partsOf members') fields) :
    slot.SameReading (.object members) (.object members') := by
  cases slot with
  | plain => exact nomatch hfields
  | templateElements => exact nomatch hfields
  | root =>
    obtain rfl := Option.some.inj hfields
    simp only [Parts.alike_append] at h
    obtain ⟨⟨htype, hplace⟩, h⟩ := h
    have hread : (Json.object members).read .program = (Json.object members').read .program :=
      readAt_congr (c := .program) rfl (Parts.alike_append.mpr ⟨hplace, h⟩)
    simp only [Parts.Alike, List.forall_mem_singleton, Parts.AlikeAt, Json.values_partsOf] at htype
    simp only [Slot.SameReading, Program.ofJson, Json.get?, htype.1, hread]
  | identifier =>
    obtain rfl := Option.some.inj hfields
    obtain ⟨hplace, h⟩ := Parts.alike_append.mp h
    simp only [Slot.SameReading, Identifier.ofJson, ← Json.values_partsOf]
    refine hplace.node fun m => ?_
    simp only [Parts.Alike, List.forall_mem_cons, Parts.AlikeAt, Same] at h
    simp only [readText, h]
  | literal =>
    obtain rfl := Option.some.inj hfields
    obtain ⟨hplace, h⟩ := Parts.alike_append.mp h
    simp only [Slot.SameReading, Literal.ofJson, ← Json.values_partsOf]
    refine hplace.node fun m => ?_
    simp only [Parts.Alike, List.forall_mem_cons, Parts.AlikeAt, Same] at h
    simp only [Literal.fields, readText?, h]
  | regex =>
    obtain rfl := Option.some.inj hfields
    simp only [Slot.SameReading, Regex.ofJson, ← Json.values_partsOf]
    simp only [Parts.Alike, List.forall_mem_cons, Parts.AlikeAt, Same] at h
    simp only [readText, h]
  | texts =>
    obtain rfl := Option.some.inj hfields
    simp only [Slot.SameReading, readTemplateValue, ← Json.values_partsOf]
    simp only [Parts.Alike, List.forall_mem_cons, Parts.AlikeAt, Same] at h
    simp only [readText, readText?, h]
  | templateElement =>
    obtain rfl := Option.some.inj hfields
    obtain ⟨hplace, h⟩ := Parts.alike_append.mp h
    simp only [Slot.SameReading, TemplateElement.ofJson, ← Json.values_partsOf]
    refine hplace.node fun m => ?_
    simp only [Parts.Alike, List.forall_mem_cons, Parts.AlikeAt, Same] at h
    simp only [readFlag, h]
  | tree c => exact fun isPart => readAt_congr hfields h

private theorem readItems_congr {c : Category} {v v' : Json}
    (h : v.readAt true c = v'.readAt true c) (front back : List Json) :
    Part.readItems c (Json.itemParts (front ++ v :: back)) =
      Part.readItems c (Json.itemParts (front ++ v' :: back)) := by
  induction front with
  | nil => simp only [List.nil_append, Json.itemParts, Part.readItems, h]
  | cons w front ih => simp only [List.cons_append, Json.itemParts, Part.readItems, ih]

/-- Arrays are read alike if the items at one position are, and all others are the same. -/
private theorem sameReading_of_item {slot inner : Slot} {v v' : Json}
    (hitem : slot.item? = some inner) (h : inner.SameReading v v') (front back : List Json) :
    slot.SameReading (.array (front ++ v :: back)) (.array (front ++ v' :: back)) := by
  unfold Slot.item? at hitem
  split at hitem
  case h_1 =>
    obtain rfl := Option.some.inj hitem
    have h : TemplateElement.ofJson v = TemplateElement.ofJson v' := h
    simp only [Slot.SameReading, readTemplateElements, List.mapM_append, List.mapM_cons, h]
  case h_2 c =>
    obtain rfl := Option.some.inj hitem
    exact fun isPart => readItems_congr (h true) front back
  case h_3 => exact nomatch hitem

end SameReading

/-! ## Changes that are not seen -/

namespace Json.Edit

variable {slot : Slot} {v v' : Json}

private theorem ne_null (h : Edit slot v v') : v ≠ .null ∧ v' ≠ .null := by
  induction h with
  | foreign => exact ⟨nofun, nofun⟩
  | field => exact ⟨nofun, nofun⟩
  | item => exact ⟨nofun, nofun⟩
  | present _ ih => exact ih

/-- A change of members that are not looked at leaves the reading of a value as it is. -/
theorem sameReading (h : Edit slot v v') : slot.SameReading v v' := by
  induction h with
  | foreign hfields h =>
    exact sameReading_of_alike hfields fun field hfield => alikeAt_of_eq (h field hfield)
  | @field slot members members' fields key v v' hfields hv hv' h hothers ih =>
    refine sameReading_of_alike hfields fun field hfield => ?_
    obtain ⟨name, inner⟩ := field
    by_cases hname : name = key
    · subst hname
      have hnull := (h inner hfield).ne_null
      exact alikeAt_of_sameReading hv hv' hnull.1 hnull.2 (ih inner hfield)
    · exact alikeAt_of_eq (hothers name hname)
  | item hitem _ ih => exact sameReading_of_item hitem ih _ _
  | present h ih =>
    intro isPart
    rw [readAt_optional h.ne_null.1, readAt_optional h.ne_null.2, ih isPart]

end Json.Edit

namespace Program

/-- Changes of members that are not looked at, in any number of objects, leave the program that is
read from a value as it is, and likewise the error. -/
theorem ofJson_eq_of_edits {v v' : Json} (h : Relation.ReflTransGen (Json.Edit .root) v v') :
    ofJson v = ofJson v' := by
  induction h with
  | refl => rfl
  | tail _ hstep ih => exact ih.trans hstep.sameReading

/-- The value of a program that declares one function, with the value `id` for its name. -/
def declaring (id : Json) (others : List (String × Json)) : Json :=
  .object ([("type", .string "Program"),
    ("body", .array [.object [
      ("type", .string "FunctionDeclaration"), ("id", id), ("params", .array []),
      ("body", .object [("type", .string "BlockStatement"), ("body", .array [])])]])] ++ others)

/-- A change in the name of the function is a change in the program. -/
theorem edit_declaring {id id' : Json} (h : Json.Edit .identifier id id') :
    Json.Edit .root (declaring id []) (declaring id' []) := by
  refine @Json.Edit.field _ _ _ _ "body" _ _ rfl rfl rfl ?_ ?_
  · intro inner hinner
    obtain rfl : inner = .tree (.list .statement) := by
      simpa [Slot.place, Category.ownFields] using hinner
    refine @Json.Edit.item _ _ [] _ _ _ rfl ?_
    refine @Json.Edit.field _ _ _ _ "id" _ _ rfl rfl rfl ?_ ?_
    · intro inner hinner
      have hfields : ("id", inner) ∈ [("type", .plain)] ++ Slot.place ++
          Category.ownFields (.function .declaration) := hinner
      obtain rfl : inner = .identifier := by
        simpa [Slot.place, Category.ownFields] using hfields
      exact h
    · intro other hother
      simp [lookup, hother.symm]
  · intro other hother
    simp [lookup, hother.symm]

/-- A program is read the same if the name of its function gets another type and one more member,
and the program one more member. -/
theorem ofJson_eq_of_edits_declaring :
    (∃ p, ofJson (declaring (.object [("type", .string "Identifier"), ("name", .string "f")]) []) =
      .ok p) ∧
      ofJson (declaring (.object [("type", .string "Identifier"), ("name", .string "f")]) []) =
        ofJson (declaring
          (.object [("name", .string "f"), ("type", .string "Name"), ("loc", .null)])
          [("sourceType", .string "module")]) := by
  have hname : Json.Edit .identifier
      (.object [("type", .string "Identifier"), ("name", .string "f")])
      (.object [("name", .string "f"), ("type", .string "Name"), ("loc", .null)]) := by
    refine .foreign rfl ?_
    simp [Slot.place, lookup]
  refine ⟨⟨_, rfl⟩, ofJson_eq_of_edits (.tail (.single (edit_declaring hname)) (.foreign rfl ?_))⟩
  simp [Slot.place, Category.ownFields, lookup]

end Program

end EcmaScope
