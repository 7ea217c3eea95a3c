import ProcessGraph.Text.Digit

/-!
# Tokens

Formulas are made of numbers, operators and identifiers. A token knows the positions of its first
and its last character. The grammar sees a token as a terminal.
-/

set_option autoImplicit false

namespace ProcessGraph.Formula

inductive TokenKind where
  | number
  | operator
  | identifier
deriving DecidableEq, Inhabited, Repr

structure Token where
  kind : TokenKind
  text : String
  first : Nat
  last : Nat
deriving DecidableEq, Inhabited, Repr

/-! ## Character classes -/

/-- The superscript digits, from zero to nine. -/
def superscripts : List Char := ['⁰', '¹', '²', '³', '⁴', '⁵', '⁶', '⁷', '⁸', '⁹']

/-- The value of a superscript digit. -/
def superscriptValue? (c : Char) : Option Nat :=
  if superscripts.contains c then some (superscripts.idxOf c) else none

/-- The characters that are operators by themselves. -/
def operators : List Char := ['+', '-', '*', '/', '(', ')', '^', ','] ++ superscripts

def isOperator (c : Char) : Bool := operators.contains c

/-- Blanks separate tokens: tab, space and no-break space. -/
def isBlank (c : Char) : Bool := c = '\t' || c = ' ' || c = '\u00a0'

def isLetter (c : Char) : Bool := ('a' ≤ c && c ≤ 'z') || ('A' ≤ c && c ≤ 'Z')

def isDigit (c : Char) : Bool := Text.isAsciiDigit c

def isIdentifierStart (c : Char) : Bool := c = '_' || c = '#' || c = '$' || isLetter c

def isIdentifierPart (c : Char) : Bool := c = '_' || isLetter c || isDigit c

/-! ## Terminals -/

/-- The terminals of the grammar, in the order in which messages list them. -/
inductive Terminal where
  | ending
  | identifier
  | number
  | superscript
  | caret
  | comma
  | opening
  | minus
  | plus
  | closing
  | slash
  | star
deriving DecidableEq, Inhabited, Repr

namespace Terminal

def all : List Terminal :=
  [ending, identifier, number, superscript, caret, comma, opening, minus, plus, closing, slash,
   star]

/-- How messages name a terminal. -/
def description : Terminal → String
  | ending => "$END"
  | identifier => "identifier"
  | number => "number"
  | superscript => "superscript digit"
  | caret => "^"
  | comma => ","
  | opening => "("
  | minus => "-"
  | plus => "+"
  | closing => ")"
  | slash => "/"
  | star => "*"

/-- Does an operand start with this terminal and nothing else do so? Signs also stand between
operands. -/
def onlyStartsOperand (t : Terminal) : Bool := t = number || t = identifier || t = opening

/-- The terminal of an operator. -/
def ofOperator (s : String) : Terminal :=
  if s = "+" then plus
  else if s = "-" then minus
  else if s = "*" then star
  else if s = "/" then slash
  else if s = "^" then caret
  else if s = "(" then opening
  else if s = ")" then closing
  else if s = "," then comma
  else superscript

end Terminal

def Token.terminal (t : Token) : Terminal :=
  match t.kind with
  | .number => .number
  | .identifier => .identifier
  | .operator => Terminal.ofOperator t.text

end ProcessGraph.Formula
