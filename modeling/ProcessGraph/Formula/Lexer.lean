import ProcessGraph.Formula.SyntaxError

/-!
# Reading tokens

Splits the text of a formula into tokens, always the longest one that starts at the next character
which is not blank. A lexer is the text with the number of characters that are consumed. A call
that fails leaves the characters consumed that it has seen before the fault; peeking consumes
nothing.
-/

set_option autoImplicit false

namespace ProcessGraph.Formula

/-! ## Lexemes -/

/-- What a scanner finds at the start of a text. -/
inductive Scan where
  /-- A lexeme and the text after it. -/
  | lexeme (kind : TokenKind) (text rest : List Char)
  /-- A fault after `seen` characters; `offset` is the place of the offending character. -/
  | fault (fault : SyntaxFault) (offset : Option Nat) (seen : Nat)
deriving DecidableEq, Inhabited

/-- The digits at the start of a text, and the rest. -/
def digits (cs : List Char) : List Char × List Char := cs.span isDigit

/-- The digits at the start, a dot and more digits, as far as they are there. -/
def mantissa (cs : List Char) : List Char × List Char :=
  match digits cs with
  | (whole, '.' :: rest) =>
    let (fraction, rest) := digits rest
    (whole ++ '.' :: fraction, rest)
  | r => r

/-- The sign at the start of a text, if there is one, and the rest. -/
def sign (cs : List Char) : List Char × List Char :=
  match cs with
  | '+' :: rest => (['+'], rest)
  | '-' :: rest => (['-'], rest)
  | _ => ([], cs)

/-- A number: a mantissa, and an exponent if its letter follows. -/
def scanNumber (cs : List Char) : Scan :=
  let (m, rest) := mantissa cs
  if m = ['.'] then .fault .loneDot (some 0) 1
  else
    match rest with
    | [] => .lexeme .number m []
    | e :: more =>
      if e = 'e' ∨ e = 'E' then
        let (s, afterSign) := sign more
        let (ds, afterDigits) := digits afterSign
        let seen := m.length + 1 + s.length
        if ds = [] then
          match afterSign with
          | [] => .fault .unfinishedExponent none seen
          | c :: _ => .fault (.badExponent c) (some seen) seen
        else .lexeme .number (m ++ e :: s ++ ds) afterDigits
      else .lexeme .number m rest

/-- An identifier that starts with `c`: a dollar is followed by more dollars, and then everything
by letters, digits and underscores. -/
def scanIdentifier (c : Char) (cs : List Char) : Scan :=
  let (dollars, rest) := if c = '$' then cs.span (· = '$') else ([], cs)
  let (name, rest) := rest.span isIdentifierPart
  .lexeme .identifier (c :: dollars ++ name) rest

/-- The lexeme that starts with `c`. -/
def scan (c : Char) (cs : List Char) : Scan :=
  if isDigit c ∨ c = '.' then scanNumber (c :: cs)
  else if isOperator c then .lexeme .operator [c] cs
  else if isIdentifierStart c then scanIdentifier c cs
  else .fault (.unknownCharacter c) (some 0) 0

/-! ## Tokens -/

/-- A fault of the lexer at a position of the text. -/
structure LexicalFault where
  fault : SyntaxFault
  position : Option Nat
deriving DecidableEq, Inhabited, Repr

def LexicalFault.toError (e : LexicalFault) (context : String) : SyntaxError :=
  ⟨e.fault, e.position, context, []⟩

/-- What is read from the position `index` on. -/
inductive Reading where
  /-- Only blanks are left. -/
  | finished (index : Nat)
  | token (t : Token) (index : Nat) (rest : List Char)
  | fault (e : LexicalFault) (index : Nat)
deriving DecidableEq, Inhabited

/-- Reads the token that follows the blanks at the start of `cs`, the text from `index` on. -/
def readToken (index : Nat) (cs : List Char) : Reading :=
  let (blanks, rest) := cs.span isBlank
  let start := index + blanks.length
  match rest with
  | [] => .finished start
  | c :: more =>
    match scan c more with
    | .lexeme kind text rest =>
      let stop := start + text.length
      .token ⟨kind, String.ofList text, start, stop - 1⟩ stop rest
    | .fault fault offset seen => .fault ⟨fault, offset.map (start + ·)⟩ (start + seen)

/-- All tokens from `index` on, the fault that stopped the reading, if one did, and the position
where it stopped. Every token takes a character, so the length of the text is fuel enough. -/
def readTokens : Nat → Nat → List Char → List Token × Option LexicalFault × Nat
  | 0, index, _ => ([], none, index)
  | fuel + 1, index, cs =>
    match readToken index cs with
    | .finished stop => ([], none, stop)
    | .fault e stop => ([], some e, stop)
    | .token t stop rest =>
      let (ts, e, stop) := readTokens fuel stop rest
      (t :: ts, e, stop)

/-- The tokens of a text up to the first fault, and the fault. -/
def tokens (text : String) : List Token × Option LexicalFault :=
  let r := readTokens (text.toList.length + 1) 0 text.toList
  (r.1, r.2.1)

/-! ## The lexer -/

/-- A text and the number of its characters that are consumed. -/
structure Lexer where
  text : String
  consumed : Nat
deriving DecidableEq, Inhabited

namespace Lexer

/-- A lexer at the start of a text. -/
def ofText (text : String) : Lexer := ⟨text, 0⟩

/-- The characters that are not consumed. -/
def rest (l : Lexer) : List Char := l.text.toList.drop l.consumed

/-- Consumes the next token; there is none at the end of the text. -/
def next (l : Lexer) : Except SyntaxError (Option Token) × Lexer :=
  match readToken l.consumed l.rest with
  | .finished index => (.ok none, ⟨l.text, index⟩)
  | .token t index _ => (.ok (some t), ⟨l.text, index⟩)
  | .fault e index => (.error (e.toError l.text), ⟨l.text, index⟩)

/-- What `next` answers, and the characters that it has consumed are put back. -/
def peek (l : Lexer) : Except SyntaxError (Option Token) × Lexer :=
  let (answer, after) := l.next
  (answer, { after with consumed := l.consumed })

/-- Consumes all tokens that are left. -/
def tokenize (l : Lexer) : Except SyntaxError (List Token) × Lexer :=
  match readTokens (l.rest.length + 1) l.consumed l.rest with
  | (ts, none, index) => (.ok ts, ⟨l.text, index⟩)
  | (_, some e, index) => (.error (e.toError l.text), ⟨l.text, index⟩)

/-- The calls that a lexer answers. -/
inductive Call where
  | next
  | peek
  | position
  | text
  | tokenize
  | reset (text : String)
deriving DecidableEq, Inhabited

/-- What a call answers. -/
inductive Answer where
  | token (t : Option Token)
  | tokens (ts : List Token)
  | number (n : Nat)
  | text (s : String)
  | done
deriving DecidableEq, Inhabited

def answer (l : Lexer) : Call → Except SyntaxError Answer × Lexer
  | .next => (l.next.1.map .token, l.next.2)
  | .peek => (l.peek.1.map .token, l.peek.2)
  | .position => (.ok (.number l.consumed), l)
  | .text => (.ok (.text l.text), l)
  | .tokenize => (l.tokenize.1.map .tokens, l.tokenize.2)
  | .reset text => (.ok .done, ofText text)

/-- The answers of a sequence of calls, each with the position after the call. A call that fails
does not end the sequence. -/
def run (l : Lexer) : List Call → List (Except SyntaxError Answer × Nat)
  | [] => []
  | c :: cs =>
    let (a, l) := l.answer c
    (a, l.consumed) :: run l cs

end Lexer

end ProcessGraph.Formula
