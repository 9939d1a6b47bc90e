import EcmaScope.Json
import EcmaScope.Reading.Error

/-!
# Reading the fields of an object

The fields of an object are read independently, and when several of them are at fault one fault is
reported: a field that cannot be read before a field that is missing, of two that cannot be read
the one whose name comes first, of two that are missing the one that is declared first. Reading
fields is therefore an applicative: combining two readings chooses between their faults.

## Main definitions

* `Fault`, `Fault.first`: what is wrong with a field, and which of two faults is reported.
* `Fields`: the outcome of reading some fields.
* `Fields.required`, `Fields.defaulted`: a field that must be there, and one that may be left out.
* `Json.readString`, `Json.readBool`, `Json.readNat`, `Json.readChoice`, `Json.readOption`: readings
  of plain values.
-/

namespace EcmaScope

/-- What is wrong with a field. -/
inductive Fault where
  | unreadable (field : String) (cause : ReadError)
  | missing (field : String)
  deriving DecidableEq, Repr

/-- The error that a fault is reported as. -/
def Fault.error : Fault → ReadError
  | .unreadable _ cause => cause
  | .missing field => .missingField field

/-- The fault that is reported of two, the first of which belongs to fields declared earlier. -/
def Fault.first : Fault → Fault → Fault
  | .unreadable a cause, .unreadable b other =>
    if b < a then .unreadable b other else .unreadable a cause
  | .missing _, .unreadable b other => .unreadable b other
  | fault, .missing _ => fault

/-- The outcome of reading some fields of an object. -/
def Fields (α : Type) : Type :=
  Except Fault α

namespace Fields

variable {α β : Type}

/-- Combines the readings of two groups of fields. -/
def combine (f : Fields (α → β)) (x : Fields α) : Fields β :=
  match f, x with
  | .ok f, .ok a => .ok (f a)
  | .ok _, .error fault => .error fault
  | .error fault, .ok _ => .error fault
  | .error fault, .error other => .error (fault.first other)

instance : Applicative Fields where
  pure a := .ok a
  seq f x := combine f (x ())

/-- A value found under a field, read by `read`. -/
def found (field : String) (read : α → Except ReadError β) (value : α) : Fields β :=
  match read value with
  | .ok b => .ok b
  | .error cause => .error (.unreadable field cause)

/-- A field that must be there. -/
def required (get : String → Option α) (field : String) (read : α → Except ReadError β) :
    Fields β :=
  match get field with
  | some value => found field read value
  | none => .error (.missing field)

/-- A field that takes the value `default` when it is left out. -/
def defaulted (get : String → Option α) (field : String) (default : β)
    (read : α → Except ReadError β) : Fields β :=
  match get field with
  | some value => found field read value
  | none => .ok default

/-- The result of reading all fields of an object. -/
def result (fields : Fields α) : Except ReadError α :=
  match fields with
  | .ok a => .ok a
  | .error fault => .error fault.error

end Fields

namespace Json

/-- A string. -/
def readString : Json → Except ReadError String
  | .string s => .ok s
  | _ => .error .invalid

/-- A truth value. -/
def readBool : Json → Except ReadError Bool
  | .bool b => .ok b
  | _ => .error .invalid

/-- A natural number below `bound`, written as an integer. -/
def readNat (bound : Nat) : Json → Except ReadError Nat
  | .number (.integer (.ofNat n)) => if n < bound then .ok n else .error .invalid
  | _ => .error .invalid

/-- A value that may be null. -/
def readOption {α : Type} (read : Json → Except ReadError α) : Json → Except ReadError (Option α)
  | .null => .ok none
  | value => some <$> read value

/-- One of several words, given as a string or as the only key of an object whose value is `null` or
accepted by `blank`. -/
def readChoice {α : Type} (words : List (String × α)) (blank : Json → Bool) :
    Json → Except ReadError α
  | .string word =>
    match words.lookup word with
    | some a => .ok a
    | none => .error (.unknownVariant word)
  | .object [(word, value)] =>
    match words.lookup word with
    | some a => if blank value then .ok a else .error .invalid
    | none => .error (.unknownVariant word)
  | _ => .error .invalid

end Json

end EcmaScope
