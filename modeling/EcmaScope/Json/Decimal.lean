import EcmaScope.Json

/-!
# Number literals

A number literal is an optional minus sign, an integer part without leading zeros, an optional
fraction and an optional exponent. An integer literal that fits 64 bits is an integer, every
other literal is a decimal. A literal too large for a double is refused: the leading digits
that fit 64 bits are taken as a double and scaled by the power of ten that is left.

## Main definitions

* `Number.ofLiteral?`: the number a literal stands for.
* `Number.overflows`: whether a decimal is too large for a double.
-/

namespace EcmaScope

namespace Number

/-- The value of a list of decimal digits. -/
def digitsValue (digits : List Char) : Nat :=
  digits.foldl (fun n c => 10 * n + (c.toNat - '0'.toNat)) 0

/-- The parts of a number literal. -/
structure Literal where
  negative : Bool
  whole : List Char
  fraction : Option (List Char)
  exponent : Option (Bool × List Char)
  deriving Repr

/-- Cuts `text` into the parts of a number literal; the digits are not checked. -/
def Literal.split (text : List Char) : Literal × List Char :=
  let (negative, text) := match text with
    | '-' :: rest => (true, rest)
    | _ => (false, text)
  let (whole, text) := text.span Char.isDigit
  let (fraction, text) := match text with
    | '.' :: rest => (some (rest.takeWhile Char.isDigit), rest.dropWhile Char.isDigit)
    | _ => (none, text)
  let (exponent, text) := match text with
    | c :: rest =>
      if c = 'e' ∨ c = 'E' then
        match rest with
        | '-' :: rest => (some (true, rest.takeWhile Char.isDigit), rest.dropWhile Char.isDigit)
        | '+' :: rest => (some (false, rest.takeWhile Char.isDigit), rest.dropWhile Char.isDigit)
        | _ => (some (false, rest.takeWhile Char.isDigit), rest.dropWhile Char.isDigit)
      else (none, text)
    | [] => (none, text)
  (⟨negative, whole, fraction, exponent⟩, text)

/-- Every part that is there has digits, and the integer part has no leading zero. -/
def Literal.wellFormed (l : Literal) : Bool :=
  (match l.whole with
    | [] => false
    | d :: rest => d ≠ '0' || rest.isEmpty) &&
  (match l.fraction with
    | some [] => false
    | _ => true) &&
  (match l.exponent with
    | some (_, []) => false
    | _ => true)

/-- All digits of a literal, without its exponent. -/
def Literal.digits (l : Literal) : List Char :=
  l.whole ++ l.fraction.getD []

/-- The exponent that a literal writes. -/
def Literal.written (l : Literal) : Int :=
  match l.exponent with
  | none => 0
  | some (true, digits) => - (digitsValue digits : Int)
  | some (false, digits) => digitsValue digits

/-- The longest part of `digits` whose value, after the digits of `n`, stays below `2 ^ 64`, and
the digits that follow it. -/
def leading (n : Nat) : List Char → Nat × List Char
  | [] => (n, [])
  | d :: rest =>
    let next := 10 * n + (d.toNat - '0'.toNat)
    if next < UInt64.size then leading next rest else (n, d :: rest)

/-- The literal is too large for a double. -/
def Literal.overflows (l : Literal) : Bool :=
  let (significand, dropped) := leading 0 l.digits
  let exponent : Int := l.written + dropped.length - (l.fraction.getD []).length
  if significand = 0 ∨ exponent < 0 then false
  else if exponent > 308 then true
  else (Float.ofNat significand * Float.ofScientific 1 false exponent.toNat).isInf

/-- An integer literal that fits 64 bits. -/
def Literal.integer? (l : Literal) : Option Int :=
  match l.fraction, l.exponent with
  | none, none =>
    let n := digitsValue l.whole
    if l.negative then
      if 0 < n ∧ n ≤ UInt64.size / 2 then some (- (n : Int)) else none
    else
      if n < UInt64.size then some n else none
  | _, _ => none

/-- The number that a well-formed literal stands for. -/
def Literal.number (l : Literal) : Number :=
  match l.integer? with
  | some n => .integer n
  | none =>
    .decimal l.negative (digitsValue l.digits) (l.written - (l.fraction.getD []).length)

/-- The number that a literal stands for, unless it is malformed or too large for a double. -/
def ofLiteral? (text : List Char) : Option Number :=
  let (l, rest) := Literal.split text
  if l.wellFormed ∧ rest.isEmpty ∧ ¬ l.overflows then some l.number else none

end Number

end EcmaScope
