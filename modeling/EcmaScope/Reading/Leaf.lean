import EcmaScope.Node
import EcmaScope.Reading.Fields

/-!
# Reading marks and leaves

A node is an object. Its place is given by `start` and `end`, or else by `range`, or else it is
empty; whichever of the three are there must be well-formed, and this is checked before the
other fields. A node that has just been read is numbered zero.

## Main definitions

* `readLoc`: the place of a node.
* `readNode`: a node from its mark and its fields.
* `Identifier.ofJson`, `Literal.ofJson`, `TemplateElement.ofJson`: the leaves.
* `readWord`: one of several words within a tree.
-/

namespace EcmaScope

/-- The bound on positions in a source text. -/
def positionBound : Nat :=
  UInt64.size

/-- A pair of positions. -/
def readRange : Json → Except ReadError Loc
  | .array [start, stop] => Loc.mk <$> start.readNat positionBound <*> stop.readNat positionBound
  | _ => .error .invalid

/-- An optional field outside the node's own fields. -/
def readAside {α : Type} (get : String → Option Json) (field : String)
    (read : Json → Except ReadError α) : Except ReadError (Option α) :=
  match get field with
  | some value => value.readOption read
  | none => .ok none

/-- The place of a node. -/
def readLoc (get : String → Option Json) : Except ReadError Loc := do
  let stop ← readAside get "end" (Json.readNat positionBound)
  let range ← readAside get "range" readRange
  let start ← readAside get "start" (Json.readNat positionBound)
  match start, stop, range with
  | some start, some stop, _ => return ⟨start, stop⟩
  | _, _, some range => return range
  | _, _, none => return ⟨0, 0⟩

/-- A node, from its mark and the reading of its fields. -/
def readNode {α : Type} (get : String → Option Json) (fields : Mark → Fields α) :
    Except ReadError α := do
  let loc ← readLoc get
  (fields ⟨0, loc⟩).result

/-- One of several words, given as a string or as the key of a null or an empty object. -/
def readWord {α : Type} (words : List (String × α)) : Json → Except ReadError α :=
  Json.readChoice words fun
    | .null => true
    | .object [] => true
    | _ => false

/-- A required string. -/
def readText (get : String → Option Json) (field : String) : Fields String :=
  Fields.required get field Json.readString

/-- A string that may be null or left out. -/
def readText? (get : String → Option Json) (field : String) : Fields (Option String) :=
  Fields.defaulted get field none (Json.readOption Json.readString)

/-- A flag that is off when it is left out. -/
def readFlag (get : String → Option Json) (field : String) : Fields Bool :=
  Fields.defaulted get field false Json.readBool

/-- An identifier. -/
def Identifier.ofJson : Json → Except ReadError Identifier
  | .object members =>
    let get := fun field => Json.lookup field members
    readNode get fun mark => Identifier.mk mark <$> readText get "name"
  | _ => .error .invalid

/-- The parts of a regular expression, by name or by position. -/
def Regex.ofJson : Json → Except ReadError Regex
  | .object members =>
    let get := fun field => Json.lookup field members
    (Regex.mk <$> readText get "pattern" <*> readText get "flags").result
  | .array [pattern, flags] => Regex.mk <$> pattern.readString <*> flags.readString
  | _ => .error .invalid

/-- The fields of a literal. -/
def Literal.fields (get : String → Option Json) (mark : Mark) : Fields Literal :=
  Literal.mk mark
    <$> Fields.defaulted get "value" .null .ok
    <*> readText? get "raw"
    <*> Fields.defaulted get "regex" none (Json.readOption Regex.ofJson)
    <*> readText? get "bigint"

/-- A literal. -/
def Literal.ofJson : Json → Except ReadError Literal
  | .object members =>
    let get := fun field => Json.lookup field members
    readNode get (Literal.fields get)
  | _ => .error .invalid

/-- The two texts of a template element, by name or by position. -/
def readTemplateValue : Json → Except ReadError (String × Option String)
  | .object members =>
    let get := fun field => Json.lookup field members
    (Prod.mk <$> readText get "raw" <*> readText? get "cooked").result
  | .array [raw] => do return (← raw.readString, none)
  | .array [raw, cooked] => do return (← raw.readString, ← cooked.readOption Json.readString)
  | _ => .error .invalid

/-- A template element. -/
def TemplateElement.ofJson : Json → Except ReadError TemplateElement
  | .object members =>
    let get := fun field => Json.lookup field members
    readNode get fun mark =>
      (fun texts tail => TemplateElement.mk mark texts.1 texts.2 tail)
        <$> Fields.required get "value" readTemplateValue
        <*> readFlag get "tail"
  | _ => .error .invalid

/-- The elements of a template, from left to right. -/
def readTemplateElements : Json → Except ReadError (List TemplateElement)
  | .array items => items.mapM TemplateElement.ofJson
  | _ => .error .invalid

end EcmaScope
