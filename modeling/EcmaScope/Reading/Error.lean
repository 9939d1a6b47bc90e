import EcmaScope.Reading.Report

/-!
# Why a value cannot be read

## Main definitions

* `ReadError`: the causes.
* `ReadError.wording`, `ReadError.message`: what is said of them.
-/

namespace EcmaScope

/-- Why a JSON value does not fit what it is read as. -/
inductive ReadError where
  /-- An object lacks a field that it must have. -/
  | missingField (field : String)
  /-- A word is not among those to choose from. -/
  | unknownVariant (word : String)
  /-- A value is of the wrong kind, out of range or of the wrong length. -/
  | invalid
  /-- A value that may be of several node types does not name its type. -/
  | untagged
  /-- The root of a program is of another type. -/
  | notProgram (found : String)
  deriving DecidableEq, Repr, Inhabited

/-- The wording of an error. -/
def ReadError.wording : ReadError → String
  | .missingField field => s!"missing field `{field}`"
  | .unknownVariant word => s!"unknown variant `{word}`"
  | .invalid => "invalid"
  | .untagged => "ESTree node is missing its `type` tag"
  | .notProgram found => s!"expected a Program node, found {found}"

/-- The message of an error. A wording that ends in a position counts as a text with that position,
wherever its words come from. -/
def ReadError.message (e : ReadError) : String :=
  (Report.ofMessage e.wording).message

end EcmaScope
