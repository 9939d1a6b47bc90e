/-!
# JSON values

The values that programs and options are given in. An object keeps its members as a list of
pairs; the last member under a name is the one that counts, and the text reader
(`EcmaScope.Json.Text`) leaves one member under each name.

Numbers are kept as they are written, since a source position or a language version must be
written as an integer: `1` is one, while `1.0`, `1e1` and `-0` are not.

## Main definitions

* `Number`: an integer literal of at most 64 bits, or any other number as an exact decimal.
* `Json`: JSON values.
* `Json.get?`: the member of an object under a name.
* `Json.kind`: the name of a value's kind.
-/

namespace EcmaScope

/-- A number as it is written. -/
inductive Number where
  /-- An integer literal between `-2 ^ 63` and `2 ^ 64 - 1`, other than `-0`. -/
  | integer (value : Int)
  /-- Any other literal: the number `± digits * 10 ^ exponent`. -/
  | decimal (negative : Bool) (digits : Nat) (exponent : Int)
  deriving DecidableEq, Repr, Inhabited

/-- A JSON value. -/
inductive Json where
  | null
  | bool (value : Bool)
  | number (value : Number)
  | string (value : String)
  | array (items : List Json)
  | object (members : List (String × Json))
  deriving Repr, Inhabited

namespace Json

/-- The natural number `n` as a JSON value. -/
def ofNat (n : Nat) : Json :=
  .number (.integer n)

/-- The value listed last under `key`. -/
def lookup {α : Type} (key : String) : List (String × α) → Option α
  | [] => none
  | (k, v) :: rest => (lookup key rest).or (if k = key then some v else none)

/-- The member of an object under `key`; other values have no members. -/
def get? (value : Json) (key : String) : Option Json :=
  match value with
  | .object members => lookup key members
  | _ => none

/-- A string value. -/
def string? : Json → Option String
  | .string s => some s
  | _ => none

/-- The name of a value's kind. -/
def kind : Json → String
  | .null => "null"
  | .bool _ => "bool"
  | .number _ => "number"
  | .string _ => "string"
  | .array _ => "array"
  | .object _ => "object"

end Json

end EcmaScope
