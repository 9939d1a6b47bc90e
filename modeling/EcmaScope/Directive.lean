import EcmaScope.Tree.Marks

/-!
# Directives

The statements at the beginning of a program or a function body that consist of a string are
directives, and `"use strict"` among them makes the code strict. Some syntax trees mark
directives; by choice they are told by their marks or by the string literals. A string that is
spelled with escapes or line continuations is another directive.

## Main definitions

* `Stmt.directive?`: whether a statement is a directive, and whether it asks for strict mode.
* `hasUseStrict`: the code is strict by a directive of its own.
-/

namespace EcmaScope

/-- The source text is the directive for strict mode between quotes. -/
def isUseStrictText (raw : String) : Bool :=
  raw = "\"use strict\"" || raw = "'use strict'"

/-- The directive for strict mode, by its source text if that is known. -/
def isUseStrict (raw : Option String) (value : String) : Bool :=
  match raw with
  | some raw => isUseStrictText raw
  | none => value = "use strict"

/-- For a statement that is marked as a directive, whether it asks for strict mode. -/
def Stmt.markedDirective? : Stmt → Option Bool
  | .directiveStatement _ directive raw => some (isUseStrict raw directive)
  | .expressionStatement _ _ (some directive) => some (directive = "use strict")
  | _ => none

/-- For a statement that consists of a string, whether it asks for strict mode. -/
def Stmt.literalDirective? : Stmt → Option Bool
  | .expressionStatement _ (.literal l) _ => l.value.string?.map (isUseStrict l.raw)
  | _ => none

/-- For a directive, whether it asks for strict mode; `marked` says how directives are told. -/
def Stmt.directive? (marked : Bool) (s : Stmt) : Option Bool :=
  if marked then Stmt.markedDirective? s else Stmt.literalDirective? s

/-- One of the directives at the beginning of `body` asks for strict mode. -/
def hasUseStrict (marked : Bool) : List Stmt → Bool
  | [] => false
  | s :: rest =>
    match Stmt.directive? marked s with
    | some strict => strict || hasUseStrict marked rest
    | none => false

/-- The body of a function is a block that asks for strict mode. -/
def FunctionBody.hasUseStrict (marked : Bool) : Tree .functionBody → Bool
  | .blockBody (.block _ body) => EcmaScope.hasUseStrict marked body.toList
  | .expressionBody _ => false

end EcmaScope
