import ProcessGraph.Value.Basic
import ProcessGraph.Text.Integer

/-!
# Reading JSON

Reads a JSON document, keeping the order of the entries of objects. A repeated key keeps its first
place and takes its last value. `NaN`, `Infinity` and `-Infinity` are numbers. An integer with too
many digits is refused as a numeral, not as JSON.
-/

set_option autoImplicit false

namespace ProcessGraph.Json

/-- Why a text is not read. -/
inductive ReadError where
  | malformed
  | oversizedInteger
deriving DecidableEq, Inhabited

def isBlank (c : Char) : Bool := c = ' ' || c = '\t' || c = '\n' || c = '\r'

def skipBlanks (cs : List Char) : List Char := cs.dropWhile isBlank

/-! ## Strings -/

/-- The number of four hexadecimal digits. -/
def codeUnit? (cs : List Char) : Option (Nat × List Char) :=
  if (cs.take 4).length = 4 then
    (Binary64.hexNatural? (cs.take 4)).map fun n => (n, cs.drop 4)
  else none

def isHighSurrogate (n : Nat) : Bool := 0xd800 ≤ n && n < 0xdc00

def isLowSurrogate (n : Nat) : Bool := 0xdc00 ≤ n && n < 0xe000

/-- The character of a code point; a surrogate alone becomes the replacement character. -/
def charOf (n : Nat) : Char :=
  if isHighSurrogate n || isLowSurrogate n then '\ufffd' else Char.ofNat n

/-- The character that follows `\u`: two surrogates that belong together are one character. -/
def unicodeEscape (cs : List Char) : Except ReadError (Char × List Char) :=
  match codeUnit? cs with
  | none => .error .malformed
  | some (n, rest) =>
    if isHighSurrogate n then
      match rest with
      | '\\' :: 'u' :: more =>
        match codeUnit? more with
        | some (m, rest') =>
          if isLowSurrogate m then
            .ok (Char.ofNat (0x10000 + (n - 0xd800) * 0x400 + (m - 0xdc00)), rest')
          else .ok (charOf n, rest)
        | none => .ok (charOf n, rest)
      | _ => .ok (charOf n, rest)
    else .ok (charOf n, rest)

/-- The character of an escape with one letter. -/
def simpleEscape? (c : Char) : Option Char :=
  if c = '"' ∨ c = '\\' ∨ c = '/' then some c
  else if c = 'b' then some '\x08'
  else if c = 'f' then some '\x0c'
  else if c = 'n' then some '\n'
  else if c = 'r' then some '\r'
  else if c = 't' then some '\t'
  else none

/-- The rest of a string after its opening quote. Every step takes a character, so the length of
the text is fuel enough. -/
def stringTail : Nat → List Char → List Char → Except ReadError (String × List Char)
  | 0, _, _ => .error .malformed
  | fuel + 1, seen, cs =>
    match cs with
    | [] => .error .malformed
    | '"' :: rest => .ok (String.ofList seen.reverse, rest)
    | '\\' :: 'u' :: rest => do
      let (c, rest) ← unicodeEscape rest
      stringTail fuel (c :: seen) rest
    | '\\' :: c :: rest =>
      match simpleEscape? c with
      | some c => stringTail fuel (c :: seen) rest
      | none => .error .malformed
    | c :: rest => if c.toNat < 0x20 then .error .malformed else stringTail fuel (c :: seen) rest

def string (cs : List Char) : Except ReadError (String × List Char) :=
  stringTail (cs.length + 1) [] cs

/-! ## Numbers -/

/-- The parts of a number: sign, whole digits, digits of the fraction, exponent. -/
structure Parts where
  negative : Bool
  whole : List Char
  fraction : List Char
  exponent : Option Int
  /-- Is there a point or an exponent? -/
  isDecimal : Bool

/-- The fraction after the whole digits: a point counts only with a digit after it. -/
def fractionPart (cs : List Char) : List Char × List Char :=
  match cs with
  | '.' :: rest => if (rest.takeWhile Text.isAsciiDigit).isEmpty then ([], cs)
    else (rest.takeWhile Text.isAsciiDigit, rest.dropWhile Text.isAsciiDigit)
  | _ => ([], cs)

/-- The exponent: its letter counts only with a digit after it and its sign. -/
def exponentPart (cs : List Char) : Option Int × List Char :=
  match cs with
  | e :: rest =>
    if e = 'e' ∨ e = 'E' then
      let (negative, rest') :=
        match rest with
        | '-' :: more => (true, more)
        | '+' :: more => (false, more)
        | _ => (false, rest)
      let ds := rest'.takeWhile Text.isAsciiDigit
      if ds.isEmpty then (none, cs)
      else
        let n : Int := Nat.ofDigitChars 10 ds 0
        (some (if negative then -n else n), rest'.dropWhile Text.isAsciiDigit)
    else (none, cs)
  | [] => (none, cs)

/-- The parts of the number that starts here, if one does. A leading zero stands alone. -/
def numberParts? (cs : List Char) : Option (Parts × List Char) :=
  let (negative, cs) := match cs with
    | '-' :: rest => (true, rest)
    | _ => (false, cs)
  let whole := match cs with
    | '0' :: _ => ['0']
    | _ => cs.takeWhile Text.isAsciiDigit
  if whole.isEmpty then none
  else
    let (fraction, rest) := fractionPart (cs.drop whole.length)
    let (exponent, rest) := exponentPart rest
    some (⟨negative, whole, fraction, exponent, !fraction.isEmpty || exponent.isSome⟩, rest)

/-- The value of a number: an integer unless it has a fraction or an exponent. -/
def Parts.value (p : Parts) : Except ReadError Value :=
  if p.isDecimal then
    let x := Binary64.ofDecimal (Nat.ofDigitChars 10 (p.whole ++ p.fraction) 0)
      (p.exponent.getD 0 - p.fraction.length)
    .ok (.float (if p.negative then x.neg else x))
  else if Text.maxIntegerDigits < p.whole.length then .error .oversizedInteger
  else
    let n : Int := Nat.ofDigitChars 10 p.whole 0
    .ok (.int (if p.negative then -n else n))

/-- The words that stand for values. -/
def words : List (String × Value) :=
  [("null", .null), ("true", .bool true), ("false", .bool false), ("NaN", .float Binary64.nan),
   ("Infinity", .float Binary64.infinity), ("-Infinity", .float Binary64.infinity.neg)]

/-- The word that starts here, if one does. -/
def word? (cs : List Char) : Option (Value × List Char) :=
  (words.find? fun w => w.1.toList.isPrefixOf cs).map fun w => (w.2, cs.drop w.1.length)

/-- A word or a number. -/
def atom (cs : List Char) : Except ReadError (Value × List Char) :=
  match word? cs with
  | some r => .ok r
  | none =>
    match numberParts? cs with
    | some (p, rest) => do
      let v ← p.value
      return (v, rest)
    | none => .error .malformed

/-! ## Documents -/

mutual

/-- A value that starts at the first character. Of two calls inside one another at least one takes
a character, so twice the length of the text is fuel enough. -/
def value : Nat → List Char → Except ReadError (Value × List Char)
  | 0, _ => .error .malformed
  | fuel + 1, cs =>
    match cs with
    | '"' :: rest => do
      let (s, rest) ← string rest
      return (.str s, rest)
    | '[' :: rest =>
      match skipBlanks rest with
      | ']' :: rest => .ok (.list [], rest)
      | rest => items fuel [] rest
    | c :: rest =>
      if c = '\x7b' then
        match skipBlanks rest with
        | '\x7d' :: rest => .ok (.dict [], rest)
        | rest => entries fuel [] rest
      else atom cs
    | [] => .error .malformed

/-- The items of a list, after `seen`, up to the closing bracket. -/
def items : Nat → List Value → List Char → Except ReadError (Value × List Char)
  | 0, _, _ => .error .malformed
  | fuel + 1, seen, cs => do
    let (v, rest) ← value fuel cs
    match skipBlanks rest with
    | ',' :: rest => items fuel (v :: seen) (skipBlanks rest)
    | ']' :: rest => .ok (.list (v :: seen).reverse, rest)
    | _ => .error .malformed

/-- The entries of an object, after `seen`, up to the closing brace. -/
def entries : Nat → List (Scalar × Value) → List Char → Except ReadError (Value × List Char)
  | 0, _, _ => .error .malformed
  | fuel + 1, seen, cs =>
    match cs with
    | '"' :: rest => do
      let (k, rest) ← string rest
      match skipBlanks rest with
      | ':' :: rest => do
        let (v, rest) ← value fuel (skipBlanks rest)
        match skipBlanks rest with
        | ',' :: rest => entries fuel ((.str k, v) :: seen) (skipBlanks rest)
        | '\x7d' :: rest => .ok (.dict (Dictionary.ofEntries ((.str k, v) :: seen).reverse), rest)
        | _ => .error .malformed
      | _ => .error .malformed
    | _ => .error .malformed

end

/-- The document that a text holds, with nothing but blanks around it. -/
def read (s : String) : Except ReadError Value := do
  let cs := s.toList
  let (v, rest) ← value (2 * cs.length + 2) (skipBlanks cs)
  if (skipBlanks rest).isEmpty then return v else .error .malformed

end ProcessGraph.Json
