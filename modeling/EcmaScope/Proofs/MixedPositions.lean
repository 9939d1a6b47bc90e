import EcmaScope.Proofs.ForeignKeys

/-!
# Positions for two families

Where the body of a function, the head of a loop or a default export stands, a node of either of two
families may stand. The type that an object names decides between them, and no type belongs to both.
So such a position takes what the families take by themselves, in the same way, and nothing else.
Whether the type has been taken off the object before the rest is read makes no difference, as no
node has a field of that name.

Where a family stands in a larger value, a type may be given by its position among those of the
family. This is the one thing that a position for two families does not take.

## Main definitions

* `Member`: a member of one of the families that meet at such positions.
* `Tree.member?`: what stands at such a position, as a member of its own family.
* `Json.ReadsAs`, `Json.ReadsAsPart`: a value is read as a member of a family, by itself or as a
  part of a larger value.
* `Json.withoutType`: the members of an object other than its type.

## Main results

* `Parts.ofType_eq_ok_iff`: what an object of a known type is read as at such a position.
* `Json.readAt_eq_ok_iff_type`: values are read by the type that they name, alone or as parts.
* `Json.readAt_object_withoutType`: an object is read by its type from its other members.
* `Json.readAt_part_iff`: a part of a larger value may also name its type by a number.
* `Json.readAt_mixed_iff_part`: what a value is read as at a position for two families, compared
  with the parts that the families take.
* `Json.readAt_mixed`: what a value is read as at such a position.
-/

namespace EcmaScope

open Json (partsOf)

/-- A member of one of the families of which two meet at some positions. -/
inductive Member where
  | statement (s : Stmt)
  | expression (e : Expr)
  | pattern (p : Pat)

/-- What stands at a position for two families, as a member of its own family. -/
def Tree.member? {c : Category} : Tree c → Option Member
  | .blockBody b => some (.statement (.blockStatement b))
  | .expressionBody e => some (.expression e)
  | .initDeclaration d => some (.statement (.variableDeclaration d))
  | .initExpression e => some (.expression e)
  | .targetDeclaration d => some (.statement (.variableDeclaration d))
  | .targetPattern p => some (.pattern p)
  | .defaultFunction declared => some (.statement (.functionDeclaration declared))
  | .defaultClass declared => some (.statement (.classDeclaration declared))
  | .defaultExpression e => some (.expression e)
  | _ => none

/-- The value is read as the member of a family. -/
def Json.ReadsAs (v : Json) : Member → Prop
  | .statement s => v.read .statement = .ok s
  | .expression e => v.read .expression = .ok e
  | .pattern p => v.read .pattern = .ok p

/-- The value is read as the member of a family where it is a part of a larger value. -/
def Json.ReadsAsPart (v : Json) : Member → Prop
  | .statement s => v.readAt true .statement = .ok s
  | .expression e => v.readAt true .expression = .ok e
  | .pattern p => v.readAt true .pattern = .ok p

/-! ## Objects of a known type -/

/-- An object of the type `type` is read as the member of a family. -/
def Parts.ReadsAs (o : Parts) (type : String) : Member → Prop
  | .statement s => o.statement type = .ok s
  | .expression e => o.expression type = .ok e
  | .pattern p => o.pattern type = .ok p

section Choice

variable {ε α γ : Type} {p : Prop} [Decidable p] {f : α → γ} {x : Except ε α} {y : Except ε γ}

private theorem map_eq_ok_iff (hf : ∀ a a', f a = f a' → a = a') {a : α} :
    f <$> x = .ok (f a) ↔ x = .ok a := by
  rw [map_eq_ok]
  exact ⟨fun ⟨a', hx, ha⟩ => hf _ _ ha ▸ hx, fun h => ⟨a, h, rfl⟩⟩

/-- The first of two readings has been chosen. -/
private theorem ite_eq_ok_left {c : γ} (hy : y ≠ .ok c) :
    (if p then f <$> x else y) = .ok c ↔ p ∧ f <$> x = .ok c := by
  split
  · next hp => exact ⟨fun h => ⟨hp, h⟩, fun h => h.2⟩
  · next hp => exact ⟨fun h => absurd h hy, fun h => absurd h.1 hp⟩

/-- The second of two readings has been chosen. -/
theorem ite_eq_ok_right {c : γ} (hf : ∀ a, f a ≠ c) :
    (if p then f <$> x else y) = .ok c ↔ ¬p ∧ y = .ok c := by
  split
  · next hp =>
    refine ⟨fun h => ?_, fun h => absurd hp h.1⟩
    obtain ⟨a, -, ha⟩ := map_eq_ok.mp h
    exact absurd ha (hf a)
  · next hp => exact ⟨fun h => ⟨hp, h⟩, fun h => h.2⟩

private theorem map_ne_ok {c : γ} (hf : ∀ a, f a ≠ c) : f <$> x ≠ .ok c := by
  intro h
  obtain ⟨a, -, ha⟩ := map_eq_ok.mp h
  exact hf a ha

end Choice

namespace Parts

variable {α : Type} {o : Parts} {type tag : String}

/-- A statement that one type of node makes up is read from an object of that type only. -/
theorem statement_eq_ok_iff {make : α → Stmt} {x : Except ReadError α}
    (hread : o.statement tag = make <$> x) (hmake : ∀ a a', make a = make a' → a = a')
    (htag : ∀ a, Stmt.typeName (make a) = tag) {a : α} :
    o.statement type = .ok (make a) ↔ type = tag ∧ x = .ok a := by
  constructor
  · intro h
    have htype : type = tag := (type_of_statement h).1.symm.trans (htag a)
    rw [htype, hread, map_eq_ok_iff hmake] at h
    exact ⟨htype, h⟩
  · rintro ⟨rfl, hx⟩
    rw [hread, hx]
    rfl

/-- An expression is read from objects of the types of expressions only. -/
theorem ne_of_expression {e : Expr} (h : o.expression type = .ok e)
    (htag : o.expression tag = .error (.unknownVariant tag)) : type ≠ tag := by
  rintro rfl
  rw [htag] at h
  cases h

private theorem ne_of_pattern {p : Pat} (h : o.pattern type = .ok p)
    (htag : o.pattern tag = .error (.unknownVariant tag)) : type ≠ tag := by
  rintro rfl
  rw [htag] at h
  cases h

section

variable {c : Category} {x : Except ReadError α} {y : Except ReadError (Tree c)}

/-- An object of the type `tag` is read by the rule for statements of that type. -/
private theorem ite_eq_statement_iff (f : α → Tree c) (make : α → Stmt)
    (hread : o.statement tag = make <$> x) (hmake : ∀ a a', make a = make a' → a = a')
    (htag : ∀ a, Stmt.typeName (make a) = tag) (hf : ∀ a a', f a = f a' → a = a') {a : α}
    (hy : y ≠ .ok (f a)) :
    (if type = tag then f <$> x else y) = .ok (f a) ↔ o.statement type = .ok (make a) := by
  rw [ite_eq_ok_left hy, map_eq_ok_iff hf, statement_eq_ok_iff hread hmake htag]

/-- An object of another type is read by the rule for expressions. -/
private theorem ite_eq_expression_iff {f : α → Tree c} (g : Expr → Tree c) {e : Expr}
    (hfg : ∀ a, f a ≠ g e) (hg : ∀ e e', g e = g e' → e = e')
    (htag : o.expression tag = .error (.unknownVariant tag)) :
    (if type = tag then f <$> x else g <$> o.expression type) = .ok (g e) ↔
      o.expression type = .ok e := by
  rw [ite_eq_ok_right hfg, map_eq_ok_iff hg]
  exact and_iff_right_of_imp fun h => ne_of_expression h htag

end

/-- At a position for two families an object is read as its own family reads it. -/
theorem ofType_eq_ok_iff {c : Category} (hc : c.tagging = .mixed) (t : Tree c) :
    o.ofType type c = .ok t ↔ ∃ m, t.member? = some m ∧ o.ReadsAs type m := by
  have hmember {m : Member} (hm : t.member? = some m) :
      (∃ m, t.member? = some m ∧ o.ReadsAs type m) ↔ o.ReadsAs type m := by
    simp [hm]
  cases t with
  | blockBody b =>
    rw [hmember rfl]
    exact ite_eq_statement_iff Tree.blockBody Tree.blockStatement rfl (by simp) (fun _ => rfl)
      (by simp) (map_ne_ok nofun)
  | expressionBody e =>
    rw [hmember rfl]
    exact ite_eq_expression_iff Tree.expressionBody nofun (by simp) rfl
  | initDeclaration d =>
    rw [hmember rfl]
    exact ite_eq_statement_iff Tree.initDeclaration Tree.variableDeclaration rfl (by simp)
      (fun _ => rfl) (by simp) (map_ne_ok nofun)
  | initExpression e =>
    rw [hmember rfl]
    exact ite_eq_expression_iff Tree.initExpression nofun (by simp) rfl
  | targetDeclaration d =>
    rw [hmember rfl]
    exact ite_eq_statement_iff Tree.targetDeclaration Tree.variableDeclaration rfl (by simp)
      (fun _ => rfl) (by simp) (map_ne_ok nofun)
  | targetPattern p =>
    rw [hmember rfl]
    refine (ite_eq_ok_right nofun).trans ((and_congr_right' (map_eq_ok_iff (by simp))).trans ?_)
    exact and_iff_right_of_imp fun h => ne_of_pattern h rfl
  | defaultFunction declared =>
    rw [hmember rfl]
    refine ite_eq_statement_iff Tree.defaultFunction Tree.functionDeclaration rfl (by simp)
      (fun _ => rfl) (by simp) ?_
    split <;> exact map_ne_ok nofun
  | defaultClass declared =>
    rw [hmember rfl]
    refine (ite_eq_ok_right nofun).trans ((and_congr_right' (ite_eq_statement_iff
      Tree.defaultClass Tree.classDeclaration rfl (by simp) (fun _ => rfl) (by simp)
      (map_ne_ok nofun))).trans ?_)
    refine and_iff_right_of_imp fun h htype => ?_
    have hne : "ClassDeclaration" ≠ "FunctionDeclaration" := by decide
    exact hne ((type_of_statement h).1.trans htype)
  | defaultExpression e =>
    rw [hmember rfl]
    refine (ite_eq_ok_right nofun).trans ((and_congr_right'
      (ite_eq_expression_iff Tree.defaultExpression nofun (by simp) rfl)).trans ?_)
    exact and_iff_right_of_imp fun h => ne_of_expression h rfl
  | _ => cases hc

end Parts

/-! ## Values -/

namespace Json

variable {v : Json} {isPart : Bool} {c : Category}

/-- What an object says about its type is the name that it gives, unless it is a part of a larger
value and a member of a family. -/
theorem type_eq_ok_iff {members : List (String × Json)} {type : String}
    (hc : c.tagging = .family ∧ isPart = false ∨ c.tagging = .mixed) :
    (partsOf members).type isPart c = .ok type ↔
      lookup "type" members = some (.string type) := by
  rcases hc with ⟨hc, rfl⟩ | hc
  · rw [Parts.type, hc]
    change (partsOf members).tag false c.tags = _ ↔ _
    unfold Parts.tag
    rw [values_partsOf]
    split <;> simp_all
  · rw [Parts.type, hc]
    change (partsOf members).typeName = _ ↔ _
    unfold Parts.typeName
    rw [values_partsOf]
    split <;> simp_all

/-- A member of a family, or of one of two, is read from an object by the type that it names. -/
theorem readAt_eq_ok_iff_type (hc : c.tagging = .family ∧ isPart = false ∨ c.tagging = .mixed)
    {t : Tree c} :
    v.readAt isPart c = .ok t ↔ ∃ members type, v = .object members ∧
      lookup "type" members = some (.string type) ∧ (partsOf members).ofType type c = .ok t := by
  cases v with
  | object members =>
    have hoptional : c.isOptional = false :=
      Category.isOptional_of_tagging (by rcases hc with ⟨hc, -⟩ | hc <;> simp [hc])
    rw [readAt_object, Parts.read_eq _ _ hoptional, bind_eq_ok]
    simp [type_eq_ok_iff hc]
  | _ =>
    refine iff_of_false (fun h => ?_) (by rintro ⟨members, type, hv, -⟩; cases hv)
    cases c <;> first | (rcases hc with ⟨hc, -⟩ | hc <;> cases hc; done) | cases h

private theorem readsAs_iff {m : Member} :
    v.ReadsAs m ↔ ∃ members type, v = .object members ∧
      lookup "type" members = some (.string type) ∧ (partsOf members).ReadsAs type m := by
  cases m <;> exact readAt_eq_ok_iff_type (.inl ⟨rfl, rfl⟩)

/-- At a position for two families a value is read as its own family reads it. -/
theorem readAt_eq_ok_iff_readsAs (hc : c.tagging = .mixed) (t : Tree c) :
    v.readAt isPart c = .ok t ↔ ∃ m, t.member? = some m ∧ v.ReadsAs m := by
  simp only [readAt_eq_ok_iff_type (.inr hc), Parts.ofType_eq_ok_iff hc t, readsAs_iff]
  constructor
  · rintro ⟨members, type, hv, htype, m, hm, hreads⟩
    exact ⟨m, hm, members, type, hv, htype, hreads⟩
  · rintro ⟨m, hm, members, type, hv, htype, hreads⟩
    exact ⟨members, type, hv, htype, m, hm, hreads⟩

/-! ## Parts of larger values -/

/-- A part of a larger value is read as a member of a family as it would be by itself, or by the
position of its type among the types of the family. -/
theorem readAt_part_iff (hc : c.tagging = .family) {t : Tree c} :
    v.readAt true c = .ok t ↔ v.readAt false c = .ok t ∨
      ∃ members k type, v = .object members ∧ v.get? "type" = some (.ofNat k) ∧
        c.tags[k]? = some type ∧ (partsOf members).ofType type c = .ok t := by
  have hoptional : c.isOptional = false := Category.isOptional_of_tagging (by simp [hc])
  have hobject {members : List (String × Json)} {type : String}
      (htype : (partsOf members).tag true c.tags = .ok type) :
      (Json.object members).readAt true c = (partsOf members).ofType type c := by
    rw [readAt_object, Parts.read_eq _ _ hoptional, Parts.type, hc]
    change (partsOf members).tag true c.tags >>= _ = _
    rw [htype]
    rfl
  constructor
  · intro h
    obtain ⟨members, type, rfl, htype, hread⟩ := exists_ofType hc h
    rcases htype with htype | ⟨-, k, htype, hk⟩
    · exact .inl ((readAt_eq_ok_iff_type (.inl ⟨hc, rfl⟩)).mpr ⟨members, type, rfl, htype, hread⟩)
    · exact .inr ⟨members, k, type, rfl, htype, hk, hread⟩
  · rintro (h | ⟨members, k, type, rfl, htype, hk, hread⟩)
    · obtain ⟨members, type, rfl, htype, hread⟩ := (readAt_eq_ok_iff_type (.inl ⟨hc, rfl⟩)).mp h
      refine (hobject ?_).trans hread
      rw [Parts.tag, values_eq_some htype]
    · have htag : (partsOf members).tag true c.tags = .ok type := by
        rw [Parts.tag, values_eq_some htype]
        simp only [Json.ofNat, hk]
      exact (hobject htag).trans hread

/-- A value is read by itself as the member of a family that it is read as in a larger value, if it
gives its type by a name. -/
theorem readAt_iff_part (hc : c.tagging = .family) {t : Tree c} :
    v.readAt false c = .ok t ↔
      v.readAt true c = .ok t ∧ ∃ type, v.get? "type" = some (.string type) := by
  constructor
  · intro h
    obtain ⟨members, type, rfl, htype, -⟩ := (readAt_eq_ok_iff_type (.inl ⟨hc, rfl⟩)).mp h
    exact ⟨(readAt_part_iff hc).mpr (.inl h), type, htype⟩
  · rintro ⟨h, type, htype⟩
    rcases (readAt_part_iff hc).mp h with h | ⟨members, k, _, -, hk, -⟩
    · exact h
    · exact nomatch htype.symm.trans hk

/-- What a value is read as at a position for two families is what its own family reads it as in a
larger value, if it gives its type by a name; otherwise it cannot be read there. -/
theorem readAt_mixed_iff_part (hc : c.tagging = .mixed) (t : Tree c) :
    v.readAt isPart c = .ok t ↔
      (∃ type, v.get? "type" = some (.string type)) ∧
        ∃ m, t.member? = some m ∧ v.ReadsAsPart m := by
  have hmember (m : Member) :
      v.ReadsAs m ↔ v.ReadsAsPart m ∧ ∃ type, v.get? "type" = some (.string type) := by
    cases m <;> exact readAt_iff_part rfl
  rw [readAt_eq_ok_iff_readsAs hc]
  simp only [hmember]
  constructor
  · rintro ⟨m, hm, hreads, htype⟩
    exact ⟨htype, m, hm, hreads⟩
  · rintro ⟨htype, m, hm, hreads⟩
    exact ⟨m, hm, hreads, htype⟩

end Json

/-! ## Objects without their types -/

/-- No node has a field of the name `type`. -/
theorem Category.ne_type_of_mem_fieldsOf {c : Category} {type : String} {field : String × Slot}
    (h : field ∈ c.fieldsOf type) : field.1 ≠ "type" := by
  have hown : ∀ field ∈ c.ownFields, field.1 ≠ "type" := by
    cases c <;> simp [ownFields]
  have htypes : ∀ entry ∈ c.types, ∀ field ∈ entry.2, field.1 ≠ "type" := by
    cases c <;> first | decide | simp [types]
  unfold fieldsOf at h
  split at h
  · exact hown field h
  · cases hlookup : c.types.lookup type with
    | none =>
      rw [hlookup] at h
      cases h
    | some fields =>
      rw [hlookup] at h
      obtain ⟨l, l', heq, -⟩ := List.lookup_eq_some_iff.mp hlookup
      exact htypes (type, fields) (heq ▸ List.mem_append_right l List.mem_cons_self) field h

namespace Json

/-- The members of an object other than its type. -/
def withoutType (members : List (String × Json)) : List (String × Json) :=
  members.filter (·.1 ≠ "type")

private theorem lookup_withoutType {field : String} (hfield : field ≠ "type")
    (members : List (String × Json)) :
    lookup field (withoutType members) = lookup field members := by
  induction members with
  | nil => rfl
  | cons member rest ih =>
    obtain ⟨key, v⟩ := member
    by_cases hkey : key = "type"
    · have hne : key ≠ field := fun h => hfield (h ▸ hkey)
      rw [lookup, if_neg hne, Option.or_none, ← ih, withoutType, List.filter_cons_of_neg (by simpa)]
      rfl
    · rw [withoutType, List.filter_cons_of_pos (by simpa), lookup, lookup, ← ih]
      rfl

/-- An object of a known type is read from its other members alone. -/
theorem ofType_withoutType (members : List (String × Json)) (type : String) {c : Category}
    (hc : c.isOptional = false) :
    (partsOf (withoutType members)).ofType type c = (partsOf members).ofType type c := by
  have halike {fields : List (String × Slot)} (h : ∀ field ∈ fields, field.1 ≠ "type") :
      (partsOf (withoutType members)).Alike (partsOf members) fields :=
    fun field hfield => alikeAt_of_eq (lookup_withoutType (h field hfield) members).symm
  exact (halike fun _ => Category.ne_type_of_mem_fieldsOf).ofType hc (halike (by decide))

/-- An object is read by the type that it gives, from its other members alone: whether the type is
taken off the object before does not matter. -/
theorem readAt_object_withoutType (members : List (String × Json)) (isPart : Bool) {c : Category}
    (hc : c.isOptional = false) :
    (Json.object members).readAt isPart c =
      (partsOf members).type isPart c >>= ((partsOf (withoutType members)).ofType · c) := by
  rw [readAt_object, Parts.read_eq _ _ hc]
  simp only [ofType_withoutType members _ hc]

end Json

/-- What a value is read as at a position for two families, alone or as a part of a larger value, is
what its own family reads it as. So there is at most one way to read it, and it cannot be read there
if and only if no family reads it as something that may stand there. -/
theorem Json.readAt_mixed {c : Category} (hc : c.tagging = .mixed) (v : Json) (isPart : Bool) :
    (∀ t : Tree c, v.readAt isPart c = .ok t ↔ ∃ m, t.member? = some m ∧ v.ReadsAs m) ∧
      (∀ (t t' : Tree c) (m m' : Member), t.member? = some m → t'.member? = some m' →
        v.ReadsAs m → v.ReadsAs m' → t = t') ∧
      ((∃ e, v.readAt isPart c = .error e) ↔
        ∀ (t : Tree c) (m : Member), t.member? = some m → ¬v.ReadsAs m) := by
  have hiff (t : Tree c) : v.readAt isPart c = .ok t ↔ ∃ m, t.member? = some m ∧ v.ReadsAs m :=
    readAt_eq_ok_iff_readsAs hc t
  refine ⟨hiff, fun t t' m m' hm hm' hreads hreads' => ?_, ?_, fun hnone => ?_⟩
  · exact Except.ok.inj
      (((hiff t).mpr ⟨m, hm, hreads⟩).symm.trans ((hiff t').mpr ⟨m', hm', hreads'⟩))
  · rintro ⟨e, he⟩ t m hm hreads
    cases he.symm.trans ((hiff t).mpr ⟨m, hm, hreads⟩)
  · cases h : v.readAt isPart c with
    | error e => exact ⟨e, rfl⟩
    | ok t =>
      obtain ⟨m, hm, hreads⟩ := (hiff t).mp h
      exact absurd hreads (hnone t m hm)

/-- The declaration `var x`, without places. -/
def Json.declaringX : Json :=
  .object [("type", .string "VariableDeclaration"), ("kind", .string "var"),
    ("declarations", .array [.object [("id",
      .object [("type", .string "Identifier"), ("name", .string "x")])]])]

/-- A declaration in the head of a loop over a value is the same declaration as a statement. -/
theorem Json.readAt_mixed_declaringX :
    ∃ d, Json.declaringX.readAt true .forTarget = .ok (.targetDeclaration d) ∧
      Json.declaringX.read .statement = .ok (.variableDeclaration d) := by
  have hread : ∃ d, Json.declaringX.read .statement = .ok (.variableDeclaration d) := ⟨_, rfl⟩
  obtain ⟨d, hd⟩ := hread
  exact ⟨d, ((Json.readAt_mixed rfl Json.declaringX true).1 (.targetDeclaration d)).mpr
    ⟨_, rfl, hd⟩, hd⟩

end EcmaScope
