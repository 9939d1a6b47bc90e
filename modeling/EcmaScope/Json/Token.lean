import EcmaScope.Json.Decimal

/-!
# Tokens of JSON text

The scanner reads the text one character at a time. It is a machine whose state says what the
characters since the last complete token may still become, so that reading a text is a fold over
its characters.

Blanks are the space, the tab and the two line ends. A string holds no character below `U+0020`
and its escapes name whole characters: an escaped surrogate counts only as half of a pair.

## Main definitions

* `Token`: punctuation, strings, numbers and the three words.
* `Scanner`: where the scanner stands.
* `Token.scan?`: the tokens of a text.
-/

namespace EcmaScope

/-- A token of JSON text. -/
inductive Token where
  | openBracket
  | closeBracket
  | openBrace
  | closeBrace
  | comma
  | colon
  /-- A string, a number or a word, as the value it stands for. -/
  | scalar (value : Json)
  deriving Repr

/-- What the scanner has read since the last complete token, latest character first. -/
inductive Scanner where
  /-- Nothing. -/
  | between
  /-- Part of a number. -/
  | number (text : List Char)
  /-- Part of a word. -/
  | word (text : List Char)
  /-- Part of a string. -/
  | string (text : List Char)
  /-- Part of a string that ends in a backslash. -/
  | escape (text : List Char)
  /-- Part of a string that ends in an escaped code unit of which `count` digits are missing; `high`
  is the high surrogate before it, if there was one. -/
  | codeUnit (text : List Char) (high : Option Nat) (value count : Nat)
  /-- Part of a string that ends in a high surrogate; the next character is a backslash. -/
  | pairBackslash (text : List Char) (high : Nat)
  /-- Part of a string that ends in a high surrogate and a backslash; the next character is `u`. -/
  | pairLetter (text : List Char) (high : Nat)
  deriving Repr

namespace Token

/-- The value of a hexadecimal digit. -/
def hexValue? (c : Char) : Option Nat :=
  if '0' ≤ c ∧ c ≤ '9' then some (c.toNat - '0'.toNat)
  else if 'a' ≤ c ∧ c ≤ 'f' then some (c.toNat - 'a'.toNat + 10)
  else if 'A' ≤ c ∧ c ≤ 'F' then some (c.toNat - 'A'.toNat + 10)
  else none

/-- The character that a backslash and `c` stand for. -/
def escaped? (c : Char) : Option Char :=
  match c with
  | '"' => some '"'
  | '\\' => some '\\'
  | '/' => some '/'
  | 'b' => some '\x08'
  | 'f' => some '\x0c'
  | 'n' => some '\n'
  | 'r' => some '\r'
  | 't' => some '\t'
  | _ => none

/-- The word that `text` is. -/
def word? (text : List Char) : Option Json :=
  match String.ofList text with
  | "null" => some .null
  | "true" => some (.bool true)
  | "false" => some (.bool false)
  | _ => none

/-- Blank characters between tokens. -/
def isBlank (c : Char) : Bool :=
  c = ' ' || c = '\t' || c = '\n' || c = '\r'

/-- Characters that a number may go on with. -/
def isNumberPart (c : Char) : Bool :=
  c.isDigit || c = '+' || c = '-' || c = '.' || c = 'e' || c = 'E'

/-- Ends the unfinished token, if it can end here. -/
def finish? (tokens : List Token) : Scanner → Option (List Token)
  | .between => some tokens
  | .number text => (Number.ofLiteral? text.reverse).map fun n => .scalar (.number n) :: tokens
  | .word text => (word? text.reverse).map fun v => .scalar v :: tokens
  | _ => none

/-- Reads a character that follows a complete token. -/
def start? (tokens : List Token) (c : Char) : Option (List Token × Scanner) :=
  match c with
  | '[' => some (.openBracket :: tokens, .between)
  | ']' => some (.closeBracket :: tokens, .between)
  | '\x7b' => some (.openBrace :: tokens, .between)
  | '\x7d' => some (.closeBrace :: tokens, .between)
  | ',' => some (.comma :: tokens, .between)
  | ':' => some (.colon :: tokens, .between)
  | '"' => some (tokens, .string [])
  | c =>
    if isBlank c then some (tokens, .between)
    else if c.isDigit || c = '-' then some (tokens, .number [c])
    else if c.isLower then some (tokens, .word [c])
    else none

/-- Where the scanner stands after an escaped code unit. -/
def closeUnit? (text : List Char) : Option Nat → Nat → Option Scanner
  | none, unit =>
    if 0xD800 ≤ unit ∧ unit < 0xDC00 then some (.pairBackslash text unit)
    else if 0xDC00 ≤ unit ∧ unit < 0xE000 then none
    else some (.string (Char.ofNat unit :: text))
  | some high, unit =>
    if 0xDC00 ≤ unit ∧ unit < 0xE000 then
      some (.string (Char.ofNat (0x10000 + (high - 0xD800) * 0x400 + (unit - 0xDC00)) :: text))
    else none

/-- Reads one character. -/
def step? : List Token × Scanner → Char → Option (List Token × Scanner)
  | (tokens, .between), c => start? tokens c
  | (tokens, .number text), c =>
    if isNumberPart c then some (tokens, .number (c :: text))
    else (finish? tokens (.number text)).bind (start? · c)
  | (tokens, .word text), c =>
    if c.isLower then some (tokens, .word (c :: text))
    else (finish? tokens (.word text)).bind (start? · c)
  | (tokens, .string text), c =>
    if c = '"' then some (.scalar (.string (String.ofList text.reverse)) :: tokens, .between)
    else if c = '\\' then some (tokens, .escape text)
    else if c.toNat < 0x20 then none
    else some (tokens, .string (c :: text))
  | (tokens, .escape text), c =>
    if c = 'u' then some (tokens, .codeUnit text none 0 4)
    else (escaped? c).map fun e => (tokens, .string (e :: text))
  | (tokens, .codeUnit text high value count), c =>
    (hexValue? c).bind fun d =>
      if count ≤ 1 then (closeUnit? text high (16 * value + d)).map fun s => (tokens, s)
      else some (tokens, .codeUnit text high (16 * value + d) (count - 1))
  | (tokens, .pairBackslash text high), c =>
    if c = '\\' then some (tokens, .pairLetter text high) else none
  | (tokens, .pairLetter text high), c =>
    if c = 'u' then some (tokens, .codeUnit text (some high) 0 4) else none

/-- The tokens of a text, if it is made of tokens and blanks. -/
def scan? (text : List Char) : Option (List Token) :=
  (text.foldlM step? ([], .between)).bind fun (tokens, scanner) =>
    (finish? tokens scanner).map List.reverse

end Token

end EcmaScope
