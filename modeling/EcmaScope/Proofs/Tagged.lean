import EcmaScope.Proofs.Reading

/-!
# Types and places of what is read

A value that is read as a member of a family names the type of that member and gives it its place.
The type is a name or, for a part of a larger value, a position in the list of the family's types.

## Main definitions

* `Json.NamesType`: the type that a value names as a member of a family.
* `Json.Places`: the place that a value gives to a node.
* `Fields.All`: what has been read has a property.

## Main results

* `Json.places_of_readLoc`: the place of a node is the one that its value gives.
* `Json.exists_ofType`: a member of a family is read from an object by the type that it names.
* `Parts.type_of_statement`, `Parts.type_of_expression` and their like: a node has the type it is
  read as and stands at the place that the object gives.
* `Json.namesType_places`: a member of a family has the type and the place that its value names.
-/

namespace EcmaScope

open Json (partsOf lookup)

/-! ## What a value says -/

namespace Json

/-- The value has a member under the key that is not null. -/
def Gives (v : Json) (key : String) : Prop :=
  v.get? key ≠ none ∧ v.get? key ≠ some .null

/-- The value gives a node its place: from `start` to `end` if it gives both, else as a `range`,
else none. -/
inductive Places (v : Json) : Loc → Prop where
  | ends {start stop : Nat} (hstart : v.get? "start" = some (.ofNat start))
      (hstop : v.get? "end" = some (.ofNat stop)) : Places v ⟨start, stop⟩
  | range {start stop : Nat} (hends : ¬(v.Gives "start" ∧ v.Gives "end"))
      (hrange : v.get? "range" = some (.array [.ofNat start, .ofNat stop])) : Places v ⟨start, stop⟩
  | nowhere (hends : ¬(v.Gives "start" ∧ v.Gives "end")) (hrange : ¬v.Gives "range") :
      Places v ⟨0, 0⟩

/-- The value names the type of a member of a family: by its name or, in a part of a larger value,
by its position among the types of the family. -/
def NamesType (v : Json) (isPart : Bool) (c : Category) (type : String) : Prop :=
  v.get? "type" = some (.string type) ∨
    isPart = true ∧ ∃ k, v.get? "type" = some (.ofNat k) ∧ c.tags[k]? = some type

/-! ## Places -/

private theorem eq_ofNat_of_readNat {bound n : Nat} {v : Json} (h : v.readNat bound = .ok n) :
    v = .ofNat n := by
  unfold readNat at h
  split at h
  · split at h
    · obtain rfl := Except.ok.inj h
      rfl
    · exact nomatch h
  · exact nomatch h

private theorem eq_array_of_readRange {v : Json} {loc : Loc} (h : readRange v = .ok loc) :
    v = .array [.ofNat loc.start, .ofNat loc.stop] := by
  unfold readRange at h
  split at h
  case h_1 start stop =>
    obtain ⟨make, hmake, h⟩ := bind_eq_ok.mp h
    obtain ⟨a, ha, rfl⟩ := map_eq_ok.mp hmake
    obtain ⟨b, hb, rfl⟩ := map_eq_ok.mp h
    rw [eq_ofNat_of_readNat ha, eq_ofNat_of_readNat hb]
  case h_2 => exact nomatch h

section Aside

variable {α : Type} {v : Json} {field : String} {read : Json → Except ReadError α}

theorem readOption_of_ne_null {w : Json} (h : w ≠ .null) : w.readOption read = some <$> read w := by
  cases w with
  | null => contradiction
  | _ => rfl

private theorem not_gives_of_readAside (h : readAside v.get? field read = .ok none) :
    ¬v.Gives field := by
  intro hgives
  unfold readAside at h
  cases hw : v.get? field with
  | none => exact hgives.1 hw
  | some w =>
    simp only [hw] at h
    rw [readOption_of_ne_null (fun hnull => hgives.2 (hnull ▸ hw))] at h
    obtain ⟨a, -, ha⟩ := map_eq_ok.mp h
    exact nomatch ha

private theorem exists_of_readAside {a : α} (h : readAside v.get? field read = .ok (some a)) :
    ∃ w, v.get? field = some w ∧ read w = .ok a := by
  unfold readAside at h
  cases hw : v.get? field with
  | none => simp [hw] at h
  | some w =>
    simp only [hw] at h
    have hnull : w ≠ .null := by
      rintro rfl
      exact nomatch h
    rw [readOption_of_ne_null hnull] at h
    obtain ⟨b, hb, hab⟩ := map_eq_ok.mp h
    exact ⟨w, rfl, Option.some.inj hab ▸ hb⟩

end Aside

/-- The place of a node is the one that its value gives. -/
theorem places_of_readLoc {v : Json} {loc : Loc} (h : readLoc v.get? = .ok loc) : v.Places loc := by
  obtain ⟨stop, hstop, h⟩ := bind_eq_ok.mp h
  obtain ⟨range, hrange, h⟩ := bind_eq_ok.mp h
  obtain ⟨start, hstart, h⟩ := bind_eq_ok.mp h
  have hrest (hends : ¬(v.Gives "start" ∧ v.Gives "end"))
      (h : Except.ok (range.getD ⟨0, 0⟩) = (Except.ok loc : Except ReadError Loc)) :
      v.Places loc := by
    obtain rfl := Except.ok.inj h
    cases range with
    | none => exact .nowhere hends (not_gives_of_readAside hrange)
    | some loc =>
      obtain ⟨w, hw, hread⟩ := exists_of_readAside hrange
      exact .range hends (hw.trans (congrArg some (eq_array_of_readRange hread)))
  cases start with
  | none =>
    refine hrest (fun hends => not_gives_of_readAside hstart hends.1) ?_
    cases range <;> exact h
  | some a =>
    cases stop with
    | none =>
      refine hrest (fun hends => not_gives_of_readAside hstop hends.2) ?_
      cases range <;> exact h
    | some b =>
      obtain rfl := Except.ok.inj h
      obtain ⟨wa, hwa, ha⟩ := exists_of_readAside hstart
      obtain ⟨wb, hwb, hb⟩ := exists_of_readAside hstop
      exact .ends (hwa.trans (congrArg some (eq_ofNat_of_readNat ha)))
        (hwb.trans (congrArg some (eq_ofNat_of_readNat hb)))

/-! ## Types -/

theorem namesType_of_tag {members : List (String × Json)} {isPart : Bool} {c : Category}
    {type : String} (h : (partsOf members).tag isPart c.tags = .ok type) :
    (Json.object members).NamesType isPart c type := by
  unfold Parts.tag at h
  rw [values_partsOf] at h
  split at h
  case h_1 tag htag =>
    obtain rfl := Except.ok.inj h
    exact .inl htag
  case h_2 position hposition =>
    split at h
    case h_1 _ _ _ tag htag =>
      obtain rfl := Except.ok.inj h
      exact .inr ⟨rfl, position, hposition, htag⟩
    case h_2 => exact nomatch h
  case h_3 => exact nomatch h
  case h_4 => exact nomatch h

/-- A member of a family is read from an object, by the type that the object names. -/
theorem exists_ofType {v : Json} {isPart : Bool} {c : Category} {x : Tree c}
    (hc : c.tagging = .family) (h : v.readAt isPart c = .ok x) :
    ∃ members type, v = .object members ∧ v.NamesType isPart c type ∧
      (partsOf members).ofType type c = .ok x := by
  have hoptional : c.isOptional = false := Category.isOptional_of_tagging (by simp [hc])
  cases v with
  | object members =>
    rw [readAt_object, Parts.read_eq _ _ hoptional] at h
    obtain ⟨type, htype, h⟩ := bind_eq_ok.mp h
    rw [Parts.type, hc] at htype
    exact ⟨members, type, rfl, namesType_of_tag htype, h⟩
  | _ => cases c <;> first | (cases hc; done) | cases h

end Json

/-! ## Nodes -/

namespace Fields

variable {α β : Type} {P : β → Prop}

/-- What has been read, if it has been read, has the property `P`. -/
def All (P : α → Prop) (x : Fields α) : Prop :=
  ∀ a, x = .ok a → P a

theorem All.seq {f : Fields (α → β)} {x : Fields α} (h : All (fun g => ∀ a, P (g a)) f) :
    All P (f <*> x) := by
  intro b hb
  obtain ⟨g, a, hg, -, rfl⟩ := seq_eq_ok.mp hb
  exact h g hg a

theorem All.map {f : α → β} {x : Fields α} (h : ∀ a, P (f a)) : All P (f <$> x) := by
  intro b hb
  obtain ⟨a, -, rfl⟩ := map_eq_ok.mp hb
  exact h a

theorem All.pure {b : β} (h : P b) : All P (pure b : Fields β) := by
  rintro _ ⟨⟩
  exact h

end Fields

namespace Parts

open Fields (All)

section Node

variable {α : Type} {o : Parts} {fields : Mark → Fields α} {x : α} {mark : α → Mark}

/-- What is read as a node stands at the place that the object gives. -/
theorem loc_of_node (h : o.node fields = .ok x)
    (hfields : ∀ m, All (fun a => mark a = m) (fields m)) :
    readLoc o.values = .ok (mark x).loc := by
  obtain ⟨loc, hloc, hx⟩ := node_eq_ok.mp h
  rw [hfields _ _ hx, hloc]

/-- What is read as a node of a type is of that type, too. -/
theorem type_of_node {typeName : α → String} {type : String} (h : o.node fields = .ok x)
    (hfields : ∀ m, All (fun a => typeName a = type ∧ mark a = m) (fields m)) :
    typeName x = type ∧ readLoc o.values = .ok (mark x).loc := by
  obtain ⟨loc, hloc, hx⟩ := node_eq_ok.mp h
  obtain ⟨htype, hmark⟩ := hfields _ _ hx
  exact ⟨htype, by rw [hmark, hloc]⟩

end Node

section Structs

variable {o : Parts}

private theorem loc_of_block {t : Tree .block} (h : o.block = .ok t) :
    readLoc o.values = .ok (Block.mark t).loc :=
  loc_of_node h fun _ => .map fun _ => rfl

private theorem loc_of_declaration {t : Tree .declaration} (h : o.declaration = .ok t) :
    readLoc o.values = .ok (Declaration.mark t).loc :=
  loc_of_node h fun _ => .seq (.map fun _ _ => rfl)

private theorem loc_of_function {form : FunctionForm} {t : Tree (.function form)}
    (h : o.function form = .ok t) : readLoc o.values = .ok (Function.mark t).loc :=
  loc_of_node h fun _ => .seq (.seq (.seq (.seq (.seq (.map fun _ _ _ _ _ _ => rfl)))))

private theorem loc_of_classNode {form : ClassForm} {t : Tree (.classOf form)}
    (h : o.classNode form = .ok t) : readLoc o.values = .ok (Class.mark t).loc :=
  loc_of_node h fun _ => .seq (.seq (.map fun _ _ _ => rfl))

private theorem loc_of_access {t : Tree .access} (h : o.access = .ok t) :
    readLoc o.values = .ok (Access.mark t).loc :=
  loc_of_node h fun _ => .seq (.seq (.seq (.map fun _ _ _ _ => rfl)))

private theorem loc_of_spread {t : Tree .spread} (h : o.spread = .ok t) :
    readLoc o.values = .ok (Spread.mark t).loc :=
  loc_of_node h fun _ => .map fun _ => rfl

private theorem loc_of_rest {t : Tree .rest} (h : o.rest = .ok t) :
    readLoc o.values = .ok (Rest.mark t).loc :=
  loc_of_node h fun _ => .map fun _ => rfl

private theorem loc_of_template {t : Tree .template} (h : o.template = .ok t) :
    readLoc o.values = .ok (Template.mark t).loc :=
  loc_of_node h fun _ => .seq (.map fun _ _ => rfl)

end Structs

section Families

variable {o : Parts} {type : String}

theorem type_of_statement {x : Stmt} (h : o.statement type = .ok x) :
    Stmt.typeName x = type ∧ readLoc o.values = .ok (Stmt.mark x).loc := by
  unfold statement at h
  split at h
  case h_1 =>
    obtain ⟨t, ht, rfl⟩ := map_eq_ok.mp h
    exact ⟨rfl, loc_of_block ht⟩
  case h_3 =>
    obtain ⟨t, ht, rfl⟩ := map_eq_ok.mp h
    exact ⟨rfl, loc_of_classNode ht⟩
  case h_16 =>
    obtain ⟨t, ht, rfl⟩ := map_eq_ok.mp h
    exact ⟨rfl, loc_of_function ht⟩
  case h_24 =>
    obtain ⟨t, ht, rfl⟩ := map_eq_ok.mp h
    exact ⟨rfl, loc_of_declaration ht⟩
  case h_27 => exact nomatch h
  all_goals
    refine type_of_node h fun m => ?_
    repeat' first
      | refine All.seq ?_
      | refine All.map ?_
      | refine All.pure ?_
    intros
    exact ⟨rfl, rfl⟩

theorem type_of_expression {x : Expr} (h : o.expression type = .ok x) :
    Expr.typeName x = type ∧ readLoc o.values = .ok (Expr.mark x).loc := by
  unfold expression at h
  split at h
  case h_2 | h_10 =>
    obtain ⟨t, ht, rfl⟩ := map_eq_ok.mp h
    exact ⟨rfl, loc_of_function ht⟩
  case h_8 =>
    obtain ⟨t, ht, rfl⟩ := map_eq_ok.mp h
    exact ⟨rfl, loc_of_classNode ht⟩
  case h_13 =>
    refine type_of_node h fun m => ?_
    intro x hx
    obtain ⟨l, hl, rfl⟩ := Fields.map_eq_ok.mp hx
    refine ⟨rfl, ?_⟩
    exact All.seq (P := fun l => l.mark = m)
      (.seq (.seq (.map fun _ _ _ _ => rfl))) l hl
  case h_15 =>
    obtain ⟨t, ht, rfl⟩ := map_eq_ok.mp h
    exact ⟨rfl, loc_of_access ht⟩
  case h_20 =>
    obtain ⟨t, ht, rfl⟩ := map_eq_ok.mp h
    exact ⟨rfl, loc_of_spread ht⟩
  case h_23 =>
    obtain ⟨t, ht, rfl⟩ := map_eq_ok.mp h
    exact ⟨rfl, loc_of_template ht⟩
  case h_28 => exact nomatch h
  all_goals
    refine type_of_node h fun m => ?_
    repeat' first
      | refine All.seq ?_
      | refine All.map ?_
      | refine All.pure ?_
    intros
    exact ⟨rfl, rfl⟩

theorem type_of_pattern {x : Pat} (h : o.pattern type = .ok x) :
    Pat.typeName x = type ∧ readLoc o.values = .ok (Pat.mark x).loc := by
  unfold pattern at h
  split at h
  · exact type_of_node h fun _ => .map fun _ => ⟨rfl, rfl⟩
  · exact type_of_node h fun _ => .seq (.map fun _ _ => ⟨rfl, rfl⟩)
  · exact type_of_node h fun _ => .map fun _ => ⟨rfl, rfl⟩
  · obtain ⟨t, ht, rfl⟩ := map_eq_ok.mp h
    exact ⟨rfl, loc_of_access ht⟩
  · exact type_of_node h fun _ => .map fun _ => ⟨rfl, rfl⟩
  · obtain ⟨t, ht, rfl⟩ := map_eq_ok.mp h
    exact ⟨rfl, loc_of_rest ht⟩
  · exact nomatch h

theorem type_of_objectMember {x : Tree .objectMember} (h : o.objectMember type = .ok x) :
    ObjectMember.typeName x = type ∧ readLoc o.values = .ok (ObjectMember.mark x).loc := by
  unfold objectMember at h
  split at h
  · exact type_of_node h fun _ =>
      .seq (.seq (.seq (.seq (.seq (.map fun _ _ _ _ _ _ => ⟨rfl, rfl⟩)))))
  · obtain ⟨t, ht, rfl⟩ := map_eq_ok.mp h
    exact ⟨rfl, loc_of_spread ht⟩
  · exact nomatch h

theorem type_of_patternMember {x : Tree .patternMember} (h : o.patternMember type = .ok x) :
    PatternMember.typeName x = type ∧ readLoc o.values = .ok (PatternMember.mark x).loc := by
  unfold patternMember at h
  split at h
  · exact type_of_node h fun _ => .seq (.seq (.seq (.map fun _ _ _ _ => ⟨rfl, rfl⟩)))
  · obtain ⟨t, ht, rfl⟩ := map_eq_ok.mp h
    exact ⟨rfl, loc_of_rest ht⟩
  · exact nomatch h

theorem type_of_method {x : Tree .method} (h : o.method type = .ok x) :
    ClassMember.typeName x = type ∧ readLoc o.values = .ok (ClassMember.mark x).loc := by
  unfold method at h
  split at h
  · exact type_of_node h fun _ => .seq (.seq (.seq (.seq (.map fun _ _ _ _ _ => ⟨rfl, rfl⟩))))
  · exact nomatch h

theorem type_of_importSpecifier {x : Tree .importSpecifier} (h : o.importSpecifier type = .ok x) :
    ImportSpecifier.typeName x = type ∧ readLoc o.values = .ok (ImportSpecifier.mark x).loc := by
  unfold importSpecifier at h
  split at h
  · exact type_of_node h fun _ => .map fun _ => ⟨rfl, rfl⟩
  · exact type_of_node h fun _ => .map fun _ => ⟨rfl, rfl⟩
  · exact type_of_node h fun _ => .seq (.map fun _ _ => ⟨rfl, rfl⟩)
  · exact nomatch h

end Families

end Parts

/-- A value that is read as a member of a family names its type and gives its place, if the rules of
the family keep to what they are told. -/
theorem Json.namesType_places {c : Category} {typeName : Tree c → String} {mark : Tree c → Mark}
    {v : Json} {isPart : Bool} {x : Tree c} (hc : c.tagging = .family)
    (hrules : ∀ (o : Parts) (type : String), o.ofType type c = .ok x →
      typeName x = type ∧ readLoc o.values = .ok (mark x).loc)
    (h : v.readAt isPart c = .ok x) :
    v.NamesType isPart c (typeName x) ∧ v.Places (mark x).loc := by
  obtain ⟨members, type, rfl, htype, hx⟩ := exists_ofType hc h
  obtain ⟨rfl, hloc⟩ := hrules _ _ hx
  rw [values_partsOf] at hloc
  exact ⟨htype, places_of_readLoc hloc⟩

end EcmaScope
