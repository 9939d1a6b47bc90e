import EcmaScope.Anchor

/-!
# Targets of patterns

A pattern takes a value apart. Its targets are the identifiers that receive the value or a part of
it; its evaluated parts are the expressions that are computed on the way: computed keys, default
values, and what a member target is a member of.

## Main definitions

* `Target`: an identifier that receives a value, with the defaults that may replace the value.
* `Pat.isIdentifier`: a pattern is an identifier and no more.
* `Pat.targets`: the targets of a pattern.
* `Tree.evaluated`: the expressions that a pattern evaluates.
-/

namespace EcmaScope

/-- A pattern with a default value. -/
structure Default where
  mark : Mark
  left : Pat
  right : Expr

/-- An identifier in a pattern that receives a value. -/
structure Target where
  identifier : Identifier
  /-- The identifier is the whole pattern. -/
  isWhole : Bool
  /-- The identifier takes all that is left. -/
  isRest : Bool
  /-- The defaults that the value may be replaced by, outermost first. -/
  defaults : List Default

/-- The pattern is the identifier itself, as their numbers tell. -/
def Pat.isIdentifier (p : Pat) (i : Identifier) : Bool :=
  match Pat.identifier? p with
  | some j => j.mark.id = i.mark.id
  | none => false

namespace Tree

/-- The targets of a part of the pattern numbered `root`: `defaults` are the defaults around the
part, and `rest?` is the argument of the innermost rest element around it. -/
def targets {c : Category} (root : Nat) (defaults : List Default) (rest? : Option Pat) :
    Tree c → List Target
  | .identifierPattern i => [⟨i, i.mark.id = root, rest?.any (Pat.isIdentifier · i), defaults⟩]
  | .arrayPattern _ elements => elements.targets root defaults rest?
  | .objectPattern _ members => members.targets root defaults rest?
  | .patternProperty _ _ value _ _ => value.targets root defaults rest?
  | .restPattern r => r.targets root defaults rest?
  | .restMember r => r.targets root defaults rest?
  | .rest _ argument => argument.targets root defaults (some argument)
  | .assignmentPattern m left right => left.targets root (defaults ++ [⟨m, left, right⟩]) rest?
  | .cons head tail => head.targets root defaults rest? ++ tail.targets root defaults rest?
  | .present part => part.targets root defaults rest?
  | _ => []

/-- The expressions that a pattern evaluates: those of a computed key before those of the value,
those of a target before its default, and of a member target the computed property before the
object. -/
def evaluated {c : Category} : Tree c → List Expr
  | .arrayPattern _ elements => elements.evaluated
  | .objectPattern _ members => members.evaluated
  | .patternProperty _ key value computed _ =>
    (if computed then [key] else []) ++ value.evaluated
  | .restPattern r => r.evaluated
  | .restMember r => r.evaluated
  | .rest _ argument => argument.evaluated
  | .assignmentPattern _ left right => left.evaluated ++ [right]
  | .memberPattern (.access _ object prop computed _) =>
    (if computed then [prop] else []) ++ [object]
  | .cons head tail => head.evaluated ++ tail.evaluated
  | .present part => part.evaluated
  | _ => []

end Tree

/-- The targets of a pattern. -/
def Pat.targets (p : Pat) : List Target :=
  Tree.targets (Pat.mark p).id [] none p

/-- The default is for the target itself, not for a larger part of the pattern. -/
def Default.isFor (d : Default) (t : Target) : Bool :=
  Pat.isIdentifier d.left t.identifier

end EcmaScope
