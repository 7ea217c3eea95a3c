import ProcessGraph.Formula.Token
import ProcessGraph.Text.Integer
import ProcessGraph.Value.Basic

/-!
# Numerals

The number that a number token writes: an integer if it has digits only, otherwise the nearest
double. Integers with too many digits have no value.
-/

set_option autoImplicit false

namespace ProcessGraph.Formula.Numeral

/-- Is the numeral written with digits only? -/
def isInteger (cs : List Char) : Bool := cs.all isDigit

/-- An integer numeral with more digits than are read. -/
def isOversized (text : String) : Bool :=
  isInteger text.toList && Text.maxIntegerDigits < text.toList.length

/-- The number that a sign and digits write. -/
def exponent (cs : List Char) : Int :=
  match cs with
  | '-' :: ds => -(Nat.ofDigitChars 10 ds 0 : Int)
  | '+' :: ds => Nat.ofDigitChars 10 ds 0
  | ds => Nat.ofDigitChars 10 ds 0

/-- The double nearest to a numeral with a point or an exponent. -/
def double (cs : List Char) : Binary64 :=
  let (m, rest) := cs.span fun c => c != 'e' && c != 'E'
  let (whole, fraction) := m.span (· != '.')
  let ds := fraction.drop 1
  Binary64.ofDecimal (Nat.ofDigitChars 10 (whole ++ ds) 0) (exponent (rest.drop 1) - ds.length)

/-- The number that a numeral writes. -/
def value (text : String) : Scalar :=
  if isInteger text.toList then .int (Nat.ofDigitChars 10 text.toList 0)
  else .float (double text.toList)

end ProcessGraph.Formula.Numeral
