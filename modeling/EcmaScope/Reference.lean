import EcmaScope.Anchor

/-!
# References

A reference is an occurrence of a name as something other than its introduction: the name is read,
written, or both.

## Main definitions

* `Use`: what an occurrence does with the name.
* `Reference`: an occurrence, where it occurs, and what is known of its meaning.
-/

namespace EcmaScope

/-- What an occurrence does with a name. -/
inductive Use where
  | read
  /-- Writes the value of an expression, or only a part of it. -/
  | write (value : Anchor) (isPartial isInit : Bool)
  /-- Reads the name and writes it again. -/
  | update (value : Option Anchor)
  deriving DecidableEq, Repr, Inhabited

namespace Use

/-- The name is read. -/
def reads : Use → Bool
  | .read | .update _ => true
  | .write .. => false

/-- The name is written. -/
def writes : Use → Bool
  | .read => false
  | .write .. | .update _ => true

/-- The short form of a use. -/
def flag : Use → String
  | .read => "r"
  | .write .. => "w"
  | .update _ => "rw"

/-- The expression whose value is written. -/
def value? : Use → Option Anchor
  | .read => none
  | .write value _ _ => some value
  | .update value => value

/-- Only a part of the value is written. -/
def isPartial : Use → Bool
  | .write _ isPartial _ => isPartial
  | _ => false

/-- The write gives a variable its first value. -/
def isInit : Use → Bool
  | .write _ _ isInit => isInit
  | _ => false

end Use

/-- An occurrence of a name. -/
structure Reference where
  identifier : Identifier
  /-- The scope in which the name occurs. -/
  scope : Nat
  use : Use
  /-- The construct that makes the name a global variable if nothing declares it. -/
  implicit : Option Anchor
  /-- The name may mean a property of an object instead of a variable. -/
  tainted : Bool := false
  /-- The variable that the name stands for. -/
  resolved : Option Nat := none
  deriving DecidableEq, Repr, Inhabited

namespace Reference

/-- The name that occurs. -/
def name (r : Reference) : String :=
  r.identifier.name

/-- The name is read and not written. -/
def isReadOnly (r : Reference) : Bool :=
  r.use.reads && !r.use.writes

/-- The name is written and not read. -/
def isWriteOnly (r : Reference) : Bool :=
  r.use.writes && !r.use.reads

/-- The name is read and written. -/
def isReadWrite (r : Reference) : Bool :=
  r.use.reads && r.use.writes

end Reference

end EcmaScope
