import ProcessGraph.Formula.Token

/-!
# Syntax errors

Why a formula is malformed, at which position of the text, and which terminals would have fitted
there.
-/

set_option autoImplicit false

namespace ProcessGraph.Formula

/-- Why a formula is malformed. -/
inductive SyntaxFault where
  /-- A dot with no digit on either side. -/
  | loneDot
  /-- An exponent letter, perhaps with a sign, and then no digit but `c`. -/
  | badExponent (c : Char)
  /-- The text ends after an exponent letter and its sign. -/
  | unfinishedExponent
  /-- No token starts with `c`. -/
  | unknownCharacter (c : Char)
  /-- A token that does not fit here. -/
  | unexpectedToken (text : String)
  /-- The text ends where an operand is missing. -/
  | missingOperand
  /-- The text ends before a closing parenthesis. -/
  | missingClosing
  /-- The text ends where neither of these is missing. -/
  | unexpectedEnd
deriving DecidableEq, Inhabited, Repr

def SyntaxFault.message : SyntaxFault → String
  | loneDot => "Expecting decimal digits after the dot sign"
  | badExponent c => "Unexpected character " ++ String.singleton c ++ " after the exponent sign"
  | unfinishedExponent => "Unexpected <end> after the exponent sign"
  | unknownCharacter c => "Unknown token from character " ++ String.singleton c
  | unexpectedToken text => "Unexpected token " ++ text
  | missingOperand => "Unexpected termination of expression"
  | missingClosing => "Expecting )"
  | unexpectedEnd => "Unexpected end of formula"

structure SyntaxError where
  fault : SyntaxFault
  /-- The position of the offending character, if there is one. -/
  position : Option Nat
  /-- The text of the formula. -/
  context : String
  /-- The terminals that fit at the position, if the fault is one of the grammar. -/
  expected : List Terminal
deriving DecidableEq, Inhabited, Repr

namespace SyntaxError

/-- The column counts from one. -/
def column (e : SyntaxError) : Option Nat := e.position.map (· + 1)

/-- The fault with its column, the formula with a caret below the position, and the terminals that
fit. -/
def message (e : SyntaxError) : String :=
  let column := match e.column with
    | some n => " (column " ++ toString n ++ ")"
    | none => ""
  let caret := match e.position with
    | some n => "\n           " ++ String.ofList (List.replicate n ' ') ++ "^"
    | none => ""
  let context := if e.context = "" then "" else "\n  Context: " ++ e.context ++ caret
  let suggestion := if e.expected = [] then ""
    else "\n  Suggestion: Expected one of: " ++
      ", ".intercalate (e.expected.map Terminal.description)
  e.fault.message ++ column ++ context ++ suggestion

end SyntaxError

end ProcessGraph.Formula
