import EcmaScope.Json.Token

/-!
# Reading and writing JSON text

The reader folds over the tokens of the text and keeps the arrays and objects that are still
open on a stack, so nesting costs no recursion; a bound on the nesting may be set. When an object
names a member again, the new value takes the place of the old one.

## Main definitions

* `Json.ofText?`: the value a text stands for.
* `Json.render`: a value as text without blanks.
-/

namespace EcmaScope

namespace Json

/-- An array or object one of whose values is being read: what came before it, latest first, and
in an object its key. -/
inductive Frame where
  | items (before : List Json)
  | members (before : List (String × Json)) (key : String)
  deriving Repr

/-- What the reader waits for. -/
inductive Phase where
  /-- A value. -/
  | value
  /-- The first item of an array, or its end. -/
  | firstItem
  /-- The first key of an object, or its end. -/
  | firstKey
  /-- A further key of an object with the members `before`. -/
  | key (before : List (String × Json))
  /-- The colon after a key. -/
  | colon (before : List (String × Json)) (key : String)
  /-- What may follow the complete value `v`. -/
  | after (v : Json)
  deriving Repr

/-- Adds a member in front, in place of an earlier one of the same name. -/
def addMember (key : String) (value : Json) (members : List (String × Json)) :
    List (String × Json) :=
  (key, value) :: members.filter (fun m => m.1 ≠ key)

/-- Another array or object may be opened inside the open ones. -/
def mayOpen (limit : Option Nat) (stack : List Frame) : Bool :=
  match limit with
  | none => true
  | some n => stack.length + 1 < n

/-- Begins a value with `token`. -/
def begin? (limit : Option Nat) (stack : List Frame) (token : Token) :
    Option (List Frame × Phase) :=
  match token with
  | .scalar v => some (stack, .after v)
  | .openBracket => if mayOpen limit stack then some (stack, .firstItem) else none
  | .openBrace => if mayOpen limit stack then some (stack, .firstKey) else none
  | _ => none

/-- Reads one token. -/
def step? (limit : Option Nat) :
    List Frame × Phase → Token → Option (List Frame × Phase)
  | (stack, .value), token => begin? limit stack token
  | (stack, .firstItem), .closeBracket => some (stack, .after (.array []))
  | (stack, .firstItem), token => begin? limit (.items [] :: stack) token
  | (stack, .firstKey), .closeBrace => some (stack, .after (.object []))
  | (stack, .firstKey), .scalar (.string key) => some (stack, .colon [] key)
  | (stack, .key before), .scalar (.string key) => some (stack, .colon before key)
  | (stack, .colon before key), .colon => some (.members before key :: stack, .value)
  | (.items before :: stack, .after v), .comma => some (.items (v :: before) :: stack, .value)
  | (.items before :: stack, .after v), .closeBracket =>
    some (stack, .after (.array (v :: before).reverse))
  | (.members before key :: stack, .after v), .comma =>
    some (stack, .key (addMember key v before))
  | (.members before key :: stack, .after v), .closeBrace =>
    some (stack, .after (.object (addMember key v before).reverse))
  | _, _ => none

/-- The value that a text stands for, if arrays and objects are nested less than `limit` deep. -/
def ofText? (limit : Option Nat) (text : String) : Option Json :=
  (Token.scan? text.toList).bind fun tokens =>
    match tokens.foldlM (step? limit) ([], .value) with
    | some ([], .after v) => some v
    | _ => none

/-- A hexadecimal digit. -/
def hexDigit (n : Nat) : Char :=
  if n < 10 then Char.ofNat ('0'.toNat + n) else Char.ofNat ('a'.toNat + (n - 10))

/-- A character inside a quoted string. -/
def quoteChar (c : Char) : List Char :=
  if c = '"' then ['\\', '"']
  else if c = '\\' then ['\\', '\\']
  else if c.toNat < 0x20 then
    ['\\', 'u', '0', '0', hexDigit (c.toNat / 16), hexDigit (c.toNat % 16)]
  else [c]

/-- A string between quotes. -/
def quote (s : String) : String :=
  String.ofList ('"' :: s.toList.flatMap quoteChar ++ ['"'])

/-- A number literal. -/
def renderNumber : Number → String
  | .integer n => toString n
  | .decimal negative digits exponent =>
    (if negative then "-" else "") ++ toString digits ++ "e" ++ toString exponent

mutual

/-- A value as text without blanks. -/
def render : Json → String
  | .null => "null"
  | .bool b => if b then "true" else "false"
  | .number n => renderNumber n
  | .string s => quote s
  | .array items => "[" ++ ",".intercalate (renderItems items) ++ "]"
  | .object members => "\x7b" ++ ",".intercalate (renderMembers members) ++ "\x7d"

/-- The items of an array as texts. -/
def renderItems : List Json → List String
  | [] => []
  | v :: rest => render v :: renderItems rest

/-- The members of an object as texts. -/
def renderMembers : List (String × Json) → List String
  | [] => []
  | (key, v) :: rest => (quote key ++ ":" ++ render v) :: renderMembers rest

end

end Json

end EcmaScope
