import ProcessGraph.Text.Digit
import ProcessGraph.Text.Blank

/-!
# Integers in text

An integer is written as an optional sign and decimal digits of any script, with single
underscores allowed between digits and blanks around the whole. More than 4300 digits are refused,
leading zeros included.
-/

set_option autoImplicit false

namespace ProcessGraph.Text

/-- The greatest number of digits of an integer that is read. -/
def maxIntegerDigits : Nat := 4300

/-- The digit values of a run of digits with single underscores between them. -/
def digitValues? : List Char → Option (List Nat)
  | [] => none
  | [c] => (decimalDigit? c).map ([·])
  | c :: '_' :: rest => do
    let d ← decimalDigit? c
    let ds ← digitValues? rest
    return d :: ds
  | c :: rest => do
    let d ← decimalDigit? c
    let ds ← digitValues? rest
    return d :: ds

/-- The number whose decimal digits are `ds`, most significant first. -/
def ofDigitValues (ds : List Nat) : Nat := ds.foldl (fun n d => 10 * n + d) 0

/-- The natural number that a text of digits writes. -/
def readNatural? (cs : List Char) : Option Nat := do
  let ds ← digitValues? cs
  if ds.length ≤ maxIntegerDigits then some (ofDigitValues ds) else none

/-- The integer that a text writes, or nothing if it writes none or has too many digits. -/
def readInteger? (s : String) : Option Int :=
  match trimBoth (fun c => isBlank c && !isRecordSeparator c) s.toList with
  | '-' :: digits => (readNatural? digits).map fun n => -(n : Int)
  | '+' :: digits => (readNatural? digits).map fun n => (n : Int)
  | digits => (readNatural? digits).map fun n => (n : Int)

example : readInteger? " 1_000 " = some 1000 := by decide +kernel
example : readInteger? "-1２" = some (-12) := by decide +kernel
example : readInteger? "1__0" = none := by decide +kernel
example : readInteger? "- 1" = none := by decide +kernel

end ProcessGraph.Text
