import EcmaScope.Reading.Fields

/-!
# Options of the analysis

## Main definitions

* `SourceType`: scripts and modules, with their spelling.
* `Options`: what the analysis can be told about the program and how to treat it.
* `Options.isEs6`, `Options.isModule`, `Options.hasStrictMode`, `Options.impliesStrict`:
  what follows from the options.
* `Options.ofJson`: reads options, by name or by position.
-/

namespace EcmaScope

/-- What a program is loaded as. -/
inductive SourceType where
  | script
  | module
  deriving DecidableEq, Repr, Inhabited

/-- Every source type with its word. -/
def SourceType.spellings : List (String × SourceType) :=
  [("script", .script), ("module", .module)]

/-- The word of a source type. -/
def SourceType.spelling : SourceType → String
  | .script => "script"
  | .module => "module"

/-- A word that names no source type. -/
structure UnknownSourceType where
  word : String
  deriving DecidableEq, Repr

/-- The wording of the error. -/
def UnknownSourceType.message (e : UnknownSourceType) : String :=
  s!"unknown source type `{e.word}`"

/-- The source type that a word names. -/
def SourceType.ofWord (word : String) : Except UnknownSourceType SourceType :=
  match SourceType.spellings.lookup word with
  | some t => .ok t
  | none => .error ⟨word⟩

/-- The options of the analysis. -/
structure Options where
  /-- Resolve references as if neither `with` nor `eval` could change the bindings of a scope. -/
  optimistic : Bool := false
  /-- Recognise directives by the annotations of the tree instead of by string literals. -/
  directive : Bool := false
  /-- The version of the language. -/
  ecmaVersion : Nat := 5
  /-- What the program is loaded as. -/
  sourceType : SourceType := .script
  /-- Treat calls of `eval` like calls of any other function. -/
  ignoreEval : Bool := false
  /-- The program is the body of a function that the loader provides. -/
  nodejsScope : Bool := false
  /-- The program is in strict mode from the start. -/
  impliedStrict : Bool := false
  deriving DecidableEq, Repr, Inhabited

namespace Options

/-- Options for scripts with block scopes. -/
def es6 : Options :=
  { ecmaVersion := 6 }

/-- Options for modules. -/
def module : Options :=
  { ecmaVersion := 6, sourceType := .module }

/-- The language has block scopes. -/
def isEs6 (o : Options) : Bool :=
  6 ≤ o.ecmaVersion

/-- The program is a module. -/
def isModule (o : Options) : Bool :=
  o.sourceType = .module

/-- The language has a strict mode. -/
def hasStrictMode (o : Options) : Bool :=
  5 ≤ o.ecmaVersion

/-- The program is in strict mode from the start, in a language that has one. -/
def impliesStrict (o : Options) : Bool :=
  o.impliedStrict && o.hasStrictMode

/-- The bound on version numbers. -/
def versionBound : Nat :=
  UInt32.size

/-- A source type, as a word or as the key of a null. -/
def readSourceType : Json → Except ReadError SourceType :=
  Json.readChoice SourceType.spellings fun
    | .null => true
    | _ => false

/-- Options given by name; those left out take their defaults. -/
def ofMembers (members : List (String × Json)) : Except ReadError Options :=
  let get := fun field => Json.lookup field members
  Fields.result <|
    Options.mk
      <$> Fields.defaulted get "optimistic" false Json.readBool
      <*> Fields.defaulted get "directive" false Json.readBool
      <*> Fields.defaulted get "ecmaVersion" 5 (Json.readNat versionBound)
      <*> Fields.defaulted get "sourceType" .script readSourceType
      <*> Fields.defaulted get "ignoreEval" false Json.readBool
      <*> Fields.defaulted get "nodejsScope" false Json.readBool
      <*> Fields.defaulted get "impliedStrict" false Json.readBool

/-- The item at a position, or `default` past the end. -/
def item {α : Type} (items : List Json) (i : Nat) (default : α)
    (read : Json → Except ReadError α) : Except ReadError α :=
  match items[i]? with
  | some value => read value
  | none => .ok default

/-- Options given in the order of their declaration; those left out take their defaults. -/
def ofItems (items : List Json) : Except ReadError Options := do
  let optimistic ← item items 0 false Json.readBool
  let directive ← item items 1 false Json.readBool
  let ecmaVersion ← item items 2 5 (Json.readNat versionBound)
  let sourceType ← item items 3 .script readSourceType
  let ignoreEval ← item items 4 false Json.readBool
  let nodejsScope ← item items 5 false Json.readBool
  let impliedStrict ← item items 6 false Json.readBool
  if items.length ≤ 7 then
    return ⟨optimistic, directive, ecmaVersion, sourceType, ignoreEval, nodejsScope, impliedStrict⟩
  else
    throw .invalid

/-- Reads options from an object or an array. -/
def ofJson : Json → Except ReadError Options
  | .object members => ofMembers members
  | .array items => ofItems items
  | _ => .error .invalid

end Options

end EcmaScope
