import EcmaScope.Json.Decimal

/-!
# Messages with positions

A message may end in the position that it is about, as in `… at line 3 column 7`. A report keeps the
text of the message and the position apart. Lines are counted from one, so a position on line
zero is not known, and the message is written without it.

## Main definitions

* `Position`: a position by line and column.
* `Report`: a text with a position.
* `Report.ofMessage`: takes the position off a message.
* `Report.message`: the message of a report.
-/

namespace EcmaScope

/-- A position in a text by line and column. -/
structure Position where
  line : Nat
  column : Nat
  deriving DecidableEq, Repr, Inhabited

/-- A text with the position that it is about. -/
structure Report where
  text : String
  position : Option Position
  deriving DecidableEq, Repr, Inhabited

namespace Report

/-- Takes a number of at most 64 bits off the end of a text, which is given from right to left. -/
def lastNumber? (reversed : List Char) : Option (Nat × List Char) :=
  let digits := reversed.takeWhile Char.isDigit
  let n := Number.digitsValue digits.reverse
  if digits.isEmpty ∨ UInt64.size ≤ n then none else some (n, reversed.dropWhile Char.isDigit)

/-- Takes a word off the end of a text, which is given from right to left. -/
def lastWord? (word : String) (reversed : List Char) : Option (List Char) :=
  word.toList.reverse.isPrefixOf? reversed

/-- Takes a position off the end of a message. -/
def split? (message : String) : Option (String × Position) := do
  let (column, rest) ← lastNumber? message.toList.reverse
  let rest ← lastWord? " column " rest
  let (line, rest) ← lastNumber? rest
  let rest ← lastWord? " at line " rest
  return (String.ofList rest.reverse, ⟨line, column⟩)

/-- The report that a message gives. -/
def ofMessage (message : String) : Report :=
  match split? message with
  | some (text, position) => ⟨text, some position⟩
  | none => ⟨message, none⟩

/-- The message of a report. -/
def message (r : Report) : String :=
  match r.position with
  | some p => if p.line = 0 then r.text else s!"{r.text} at line {p.line} column {p.column}"
  | none => r.text

end Report

end EcmaScope
