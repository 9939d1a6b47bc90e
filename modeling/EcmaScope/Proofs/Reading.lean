import EcmaScope.Reading.Tree

/-!
# What readings give

The reading of an object goes through its parts, and the parts give nothing but the members of the
object with their own readings. A node is read if its place and all of its fields are. What the
object says about its type matters only for the rule by which it is read.

## Main definitions

* `Parts.type`: what an object says about its type at a position.
* `Parts.ofType`: an object as a node of a type.
* `Json.partsOf`: the parts of an object by name.

## Main results

* `bind_eq_ok`, `map_eq_ok`: a reading in steps succeeds if each step does.
* `Fields.seq_eq_ok`, `Fields.map_eq_ok`: fields are read together if each of them is.
* `Parts.node_eq_ok`: a node is read if its place and its fields are.
* `Parts.read_eq`: an object is read as a node of the type that it names.
* `Json.partsOf_apply`, `Json.values_partsOf`: the parts of an object are its members.
-/

namespace EcmaScope

variable {α β : Type}

theorem bind_eq_ok {ε : Type} {x : Except ε α} {f : α → Except ε β} {b : β} :
    x >>= f = .ok b ↔ ∃ a, x = .ok a ∧ f a = .ok b := by
  cases x <;> simp [bind, Except.bind]

theorem map_eq_ok {ε : Type} {x : Except ε α} {f : α → β} {b : β} :
    f <$> x = .ok b ↔ ∃ a, x = .ok a ∧ f a = b := by
  cases x <;> simp [Functor.map, Except.map]

namespace Fields

-- The type is named, as it would be unfolded to that of its values.
@[simp] theorem ok_inj {a b : α} : @Eq (Fields α) (.ok a) (.ok b) ↔ a = b :=
  ⟨Except.ok.inj, congrArg _⟩

@[simp] theorem error_ne_ok {fault : Fault} {a : α} : ¬@Eq (Fields α) (.error fault) (.ok a) :=
  nofun

theorem seq_eq_ok {f : Fields (α → β)} {x : Fields α} {b : β} :
    f <*> x = .ok b ↔ ∃ g a, f = .ok g ∧ x = .ok a ∧ g a = b := by
  change combine f x = .ok b ↔ _
  rcases f with fault | g <;> rcases x with other | a <;> simp [combine]

theorem map_eq_ok {f : α → β} {x : Fields α} {b : β} :
    f <$> x = .ok b ↔ ∃ a, x = .ok a ∧ f a = b := by
  change combine (.ok f) x = .ok b ↔ _
  rcases x with fault | a <;> simp [combine]

theorem pure_eq_ok {a b : α} : (pure a : Fields α) = .ok b ↔ a = b :=
  ok_inj

theorem seq_ok {f : Fields (α → β)} {x : Fields α} {g : α → β} {a : α} (hf : f = .ok g)
    (hx : x = .ok a) : f <*> x = .ok (g a) :=
  seq_eq_ok.mpr ⟨g, a, hf, hx, rfl⟩

theorem map_ok {f : α → β} {x : Fields α} {a : α} (hx : x = .ok a) : f <$> x = .ok (f a) :=
  map_eq_ok.mpr ⟨a, hx, rfl⟩

end Fields

/-- Nothing may stand at a position of the category. -/
def Category.isOptional : Category → Bool
  | .optional _ => true
  | _ => false

theorem Category.isOptional_of_tagging {c : Category} (hc : c.tagging ≠ .fixed) :
    c.isOptional = false := by
  cases c with
  | optional d => exact absurd rfl hc
  | _ => rfl

namespace Parts

theorem node_eq_ok {o : Parts} {fields : Mark → Fields α} {a : α} :
    o.node fields = .ok a ↔ ∃ loc, readLoc o.values = .ok loc ∧ fields ⟨0, loc⟩ = .ok a := by
  unfold node readNode
  rcases readLoc o.values with cause | loc
  · simp [bind, Except.bind]
  · simp only [bind, Except.bind, Except.ok.injEq, exists_eq_left', Fields.result]
    rcases fields ⟨0, loc⟩ with fault | b <;> simp

/-- What an object says about its type, as far as it matters at a position of a category. -/
def type (o : Parts) (isPart : Bool) (c : Category) : Except ReadError String :=
  match c.tagging with
  | .fixed => .ok ""
  | .family => o.tag isPart c.tags
  | .mixed => o.typeName

/-- An object as a tree of a category, if it is known to be of the type `type`. -/
def ofType (o : Parts) (type : String) : (c : Category) → Except ReadError (Tree c)
  | .statement => o.statement type
  | .expression => o.expression type
  | .pattern => o.pattern type
  | .functionBody => o.functionBody type
  | .method => o.method type
  | .objectMember => o.objectMember type
  | .patternMember => o.patternMember type
  | .forInit => o.forInit type
  | .forTarget => o.forTarget type
  | .importSpecifier => o.importSpecifier type
  | .exportDefault => o.exportDefault type
  | c => o.read false c

theorem read_eq (o : Parts) (isPart : Bool) {c : Category} (hc : c.isOptional = false) :
    o.read isPart c = o.type isPart c >>= (o.ofType · c) := by
  cases c with
  | optional d => exact nomatch hc
  | _ => rfl

end Parts

namespace Json

/-- The parts of an object by name. -/
def partsOf (members : List (String × Json)) : Parts :=
  fun field => lookup field (parts members)

theorem partsOf_apply (members : List (String × Json)) (field : String) :
    partsOf members field = (lookup field members).map fun v => ⟨v, v.readAt true⟩ := by
  unfold partsOf
  induction members with
  | nil => simp [parts, lookup]
  | cons member rest ih =>
    obtain ⟨key, v⟩ := member
    rw [parts, lookup, ih, lookup]
    by_cases hkey : key = field <;> cases lookup field rest <;> simp [hkey]

@[simp] theorem values_partsOf (members : List (String × Json)) :
    (partsOf members).values = fun field => lookup field members := by
  funext field
  rw [Parts.values, partsOf_apply, Option.map_map]
  exact Option.map_id' ..

section Members

variable {members : List (String × Json)} {field : String} {v : Json}

theorem partsOf_eq_some (hv : lookup field members = some v) :
    partsOf members field = some ⟨v, v.readAt true⟩ := by
  rw [partsOf_apply, hv]
  rfl

theorem values_eq_some (hv : lookup field members = some v) :
    (partsOf members).values field = some v := by
  rw [values_partsOf]
  exact hv

end Members

theorem readAt_object (isPart : Bool) (members : List (String × Json)) (c : Category) :
    (object members).readAt isPart c = (partsOf members).read isPart c := by
  rw [readAt]
  rfl

/-- What is not null is an optional part if it is a part. -/
theorem readAt_optional {isPart : Bool} {v : Json} {c : Category} (h : v ≠ .null) :
    v.readAt isPart (.optional c) = Tree.present <$> v.readAt isPart c := by
  cases v with
  | null => contradiction
  | bool _ => rfl
  | number _ => rfl
  | string _ => rfl
  | array _ => rfl
  | object _ => rfl

end Json

end EcmaScope
