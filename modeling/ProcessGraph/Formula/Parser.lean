import ProcessGraph.Formula.Lexer
import ProcessGraph.Formula.Numeral
import ProcessGraph.Formula.Tree

/-!
# Parsing formulas

From lowest to highest precedence: sums, products, powers (also by superscripts), signs, operands.
All binary operators group to the left.

The parser reads one token after the other. Its state is a stack of frames, the constructs whose
last operand is still missing, and either waits for an operand or holds one. A token that follows
an operand first closes all frames that bind at least as tightly. A token that does not fit is
reported with the terminals that would have fitted: a token that can only start an operand is
refused before any frame is closed, when every terminal that follows operands still looks possible;
the others are refused when the frames around the operand are closed, where only sums and the
innermost parenthesis are left to continue.
-/

set_option autoImplicit false

namespace ProcessGraph.Formula

/-- A construct whose last operand is missing. -/
inductive Frame where
  | sum (left : Tree) (op : String)
  | product (left : Tree) (op : String)
  | power (left : Tree)
  | sign (op : String)
  | group
  /-- A call with the arguments before the last comma. -/
  | call (name : String) (arguments : List Tree)
deriving Inhabited

namespace Frame

/-- How tightly a frame binds its operand. A parenthesis binds nothing. -/
def tightness : Frame → Nat
  | sum .. => 1
  | product .. => 2
  | power .. => 3
  | sign .. => 4
  | group => 0
  | call .. => 0

/-- The tree that arises when the operand of a frame is complete. -/
def close : Frame → Tree → Tree
  | sum left op, t => .binary op left t
  | product left op, t => .binary op left t
  | power left, t => .binary "^" left t
  | sign op, t => .unary op t
  | group, t => .group t
  | call name arguments, t => .call name (arguments ++ [t])

end Frame

/-- Closes the frames on top of the stack that bind at least as tightly as `level`. -/
def unwind (level : Nat) : List Frame → Tree → List Frame × Tree
  | [], t => ([], t)
  | f :: stack, t =>
    if level ≤ f.tightness then unwind level stack (f.close t) else (f :: stack, t)

/-- What the parser waits for. -/
inductive ParserState where
  /-- An operand is missing. -/
  | operand (stack : List Frame)
  /-- The operand `t` is there, and may be continued. -/
  | operator (stack : List Frame) (t : Tree)
deriving Inhabited

namespace ParserState

def start : ParserState := operand []

/-- The terminals that start an operand. -/
def startsOperand (t : Terminal) : Bool := t.onlyStartsOperand || t = .minus || t = .plus

/-- Is this the place after the opening parenthesis of a call? -/
def isEmptyCall : List Frame → Bool
  | .call _ [] :: _ => true
  | _ => false

/-- What fits where an operand is missing. A call may also end before its first argument. -/
def operandTerminals (stack : List Frame) : List Terminal :=
  Terminal.all.filter fun t => startsOperand t || (t = .closing && isEmptyCall stack)

/-- What seems to fit after an operand while no frame is closed. A name may become a call. -/
def operatorTerminals (t : Tree) : List Terminal :=
  Terminal.all.filter fun k => !k.onlyStartsOperand ||
    (k = .opening && match t with
      | .identifier _ => true
      | _ => false)

/-- What fits when all frames up to the innermost parenthesis are closed. -/
def closedTerminals : List Frame → List Terminal
  | .group :: _ => [.minus, .plus, .closing]
  | .call .. :: _ => [.comma, .minus, .plus, .closing]
  | _ => [.ending, .minus, .plus]

/-- Reads a token where an operand is missing. -/
def feedOperand (stack : List Frame) (token : Token) : Except (List Terminal) ParserState :=
  match token.terminal, stack with
  | .number, _ => .ok (operator stack (.number (Numeral.value token.text)))
  | .identifier, _ => .ok (operator stack (.identifier token.text))
  | .opening, _ => .ok (operand (.group :: stack))
  | .minus, _ => .ok (operand (.sign token.text :: stack))
  | .plus, _ => .ok (operand (.sign token.text :: stack))
  | .closing, .call name [] :: outer => .ok (operator outer (.call name []))
  | _, _ => .error (operandTerminals stack)

/-- The number of a superscript token. -/
def superscriptNumber (token : Token) : Scalar :=
  .int ((token.text.toList.head?.bind superscriptValue?).getD 0 : Nat)

/-- Reads a token after the operand `t`. -/
def feedOperator (stack : List Frame) (t : Tree) (token : Token) :
    Except (List Terminal) ParserState :=
  match token.terminal with
  | .superscript =>
    let (stack, t) := unwind 3 stack t
    .ok (operator stack (.binary "^" t (.number (superscriptNumber token))))
  | .caret =>
    let (stack, t) := unwind 3 stack t
    .ok (operand (.power t :: stack))
  | .star | .slash =>
    let (stack, t) := unwind 2 stack t
    .ok (operand (.product t token.text :: stack))
  | .plus | .minus =>
    let (stack, t) := unwind 1 stack t
    .ok (operand (.sum t token.text :: stack))
  | .closing =>
    match unwind 1 stack t with
    | (.group :: outer, t) => .ok (operator outer (.group t))
    | (.call name arguments :: outer, t) => .ok (operator outer (.call name (arguments ++ [t])))
    | (stack, _) => .error (closedTerminals stack)
  | .comma =>
    match unwind 1 stack t with
    | (.call name arguments :: outer, t) => .ok (operand (.call name (arguments ++ [t]) :: outer))
    | (stack, _) => .error (closedTerminals stack)
  | .opening =>
    match t with
    | .identifier name => .ok (operand (.call name [] :: stack))
    | _ => .error (operatorTerminals t)
  | .number | .identifier | .ending => .error (operatorTerminals t)

/-- Reads a token, or says which terminals would have fitted. -/
def feed (state : ParserState) (token : Token) : Except (List Terminal) ParserState :=
  match state with
  | operand stack => feedOperand stack token
  | operator stack t => feedOperator stack t token

/-- The tree of the whole formula at the end of the text. -/
def finish : ParserState → Except (List Terminal) Tree
  | operand stack => .error (operandTerminals stack)
  | operator stack t =>
    match unwind 1 stack t with
    | ([], t) => .ok t
    | (stack, _) => .error (closedTerminals stack)

end ParserState

/-! ## Texts -/

/-- What the end of the text means where the given terminals fit. -/
def endFault (expected : List Terminal) : SyntaxFault :=
  if expected.any Terminal.onlyStartsOperand then .missingOperand
  else if expected.contains .closing then .missingClosing
  else .unexpectedEnd

/-- Reads all tokens. The first one that does not fit is an error at its position. -/
def feedAll (context : String) : ParserState → List Token → Except SyntaxError ParserState
  | state, [] => .ok state
  | state, t :: ts =>
    match state.feed t with
    | .ok state => feedAll context state ts
    | .error expected => .error ⟨.unexpectedToken t.text, some t.first, context, expected⟩

/-- Parses a list of tokens, a group around the whole. -/
def parseTokens (context : String) (ts : List Token) : Except SyntaxError Tree := do
  let state ← feedAll context .start ts
  match state.finish with
  | .ok t => .ok (.group t)
  | .error expected => .error ⟨endFault expected, some context.length, context, expected⟩

/-- Parses a text, apart from the limit on the digits of integers. The tokens are read only as far
as they fit, so a token that does not fit is reported before a fault of the lexer behind it. -/
def parseSyntax (text : String) : Except SyntaxError Tree :=
  match tokens text with
  | (ts, none) => parseTokens text ts
  | (ts, some e) => do
    let _ ← feedAll text .start ts
    .error (e.toError text)

/-- Why a formula has no tree. -/
inductive ParseError where
  | malformed (e : SyntaxError)
  | oversizedInteger
deriving DecidableEq, Inhabited

/-- The tree of a formula, a group around the whole. -/
def parse (text : String) : Except ParseError Tree :=
  match parseSyntax text with
  | .error e => .error (.malformed e)
  | .ok t =>
    if (tokens text).1.any fun t => t.kind = .number && Numeral.isOversized t.text then
      .error .oversizedInteger
    else .ok t

end ProcessGraph.Formula
