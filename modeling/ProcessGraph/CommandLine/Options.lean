import ProcessGraph.Text.Integer

/-!
# Options

Reads the arguments of a command line. Long options may be abbreviated as long as one option is
meant, take their values behind `=` or as the next argument, and may stand between positional
arguments. Short options without values can be written together. What looks like a negative number
or holds a blank is no option, and after `--` there are no options.
-/

set_option autoImplicit false

namespace ProcessGraph.CommandLine

/-- The options of the program and of its commands. -/
inductive OptionKind where
  | help
  | version
  | verbose
  | id
  | indent
  | noResult
deriving DecidableEq, Inhabited

/-- Does the option take a value? -/
def OptionKind.takesValue : OptionKind → Bool
  | id => true
  | indent => true
  | _ => false

/-- The spellings of options. -/
abbrev OptionTable := List (String × OptionKind)

def programOptions : OptionTable :=
  [("-h", .help), ("--help", .help), ("--version", .version), ("--verbose", .verbose),
   ("-v", .verbose)]

def mathOptions : OptionTable :=
  [("-h", .help), ("--help", .help), ("--id", .id), ("--indent", .indent),
   ("--no-result", .noResult)]

def checkOptions : OptionTable := [("-h", .help), ("--help", .help)]

/-- Why there is no command to run. -/
inductive Stop where
  /-- The arguments do not fit. -/
  | usage
  | help
  | version
deriving DecidableEq, Inhabited

/-- What an argument is. -/
inductive Piece where
  | word (s : String)
  /-- The first `--`. -/
  | separator
  | option (kind : OptionKind) (value : Option String)
  /-- A short option with more letters behind it. -/
  | cluster (first : OptionKind) (letters : List Char)
  | unknown
deriving DecidableEq, Inhabited

/-- Does a text start with another one? -/
def startsWith (start s : String) : Bool := start.toList.isPrefixOf s.toList

/-- The text before and after the first equals sign. -/
def splitEquals (s : String) : Option (String × String) :=
  match s.toList.span (· ≠ '=') with
  | (name, '=' :: value) => some (String.ofList name, String.ofList value)
  | _ => none

/-- Is it a minus sign with a number that has digits at its end? -/
def isNegativeNumber (s : String) : Bool :=
  let isDigit (c : Char) : Bool := (Text.decimalDigit? c).isSome
  match (if s.toList.getLast? = some '\n' then s.toList.dropLast else s.toList) with
  | '-' :: cs =>
    match cs.span isDigit with
    | (whole, []) => !whole.isEmpty
    | (_, '.' :: fraction) => !fraction.isEmpty && fraction.all isDigit
    | _ => false
  | _ => false

/-- The options that an argument may abbreviate, with the value or the letters that it gives
them. -/
def abbreviated (table : OptionTable) (s : String) : List Piece :=
  match s.toList with
  | '-' :: '-' :: _ =>
    let (start, value) := match splitEquals s with
      | some (name, value) => (name, some value)
      | none => (s, none)
    (table.filter fun p => startsWith start p.1).map fun p => .option p.2 value
  | '-' :: c :: rest =>
    let short := String.ofList ['-', c]
    table.filterMap fun p =>
      if p.1 = short then some (.cluster p.2 rest)
      else if startsWith s p.1 then some (.option p.2 none)
      else none
  | _ => []

/-- The option with the given spelling. -/
def exactOption (table : OptionTable) (s : String) (value : Option String) : Option Piece :=
  (table.find? fun p => p.1 = s).map fun p => .option p.2 value

/-- The option with the given spelling, or with the spelling before an equals sign. -/
def spelledOption (table : OptionTable) (s : String) : Option Piece :=
  match exactOption table s none with
  | some piece => some piece
  | none => (splitEquals s).bind fun (name, value) => exactOption table name (some value)

/-- What an argument is that does not stand after `--`. -/
def piece (table : OptionTable) (s : String) : Except Stop Piece :=
  if s.toList.head? ≠ some '-' ∨ s = "-" then .ok (.word s)
  else
    match spelledOption table s with
    | some p => .ok p
    | none =>
      match abbreviated table s with
      | [p] => .ok p
      | _ :: _ :: _ => .error .usage
      | [] => .ok (if isNegativeNumber s || s.toList.contains ' ' then .word s else .unknown)

/-- What the arguments are. -/
def pieces (table : OptionTable) : List String → Except Stop (List Piece)
  | [] => .ok []
  | s :: rest =>
    if s = "--" then .ok (.separator :: rest.map .word)
    else do
      let p ← piece table s
      let ps ← pieces table rest
      return p :: ps

/-- The options that letters behind a short option write, and whether letters are left over that
write none. No such option takes a value, and none is written with a minus sign. -/
def readLetters (table : OptionTable) : List Char → Except Stop (List OptionKind × Bool)
  | [] => .ok ([], false)
  | c :: cs =>
    if c = '-' then .error .usage
    else
      match table.find? fun p => p.1 = String.ofList ['-', c] with
      | none => .ok ([], true)
      | some p =>
        if cs.head? = some '=' then .error .usage
        else (readLetters table cs).map fun (kinds, isLeftOver) => (p.2 :: kinds, isLeftOver)

/-! ## Positional arguments -/

/-- How many words a positional argument takes. -/
inductive Arity where
  | one
  | some
deriving DecidableEq, Inhabited

def isSeparator : Piece → Bool
  | .separator => true
  | _ => false

def isWordOrSeparator : Piece → Bool
  | .word _ => true
  | .separator => true
  | _ => false

/-- How a word or a separator is written. -/
def Piece.text : Piece → String
  | .word s => s
  | _ => "--"

/-- The words for one positional argument, and the pieces after them. It takes separators beside
its words with them, and drops the first `--` among what it has taken. -/
def takePositional (arity : Arity) (ps : List Piece) : Option (List String × List Piece) :=
  let before := ps.takeWhile isSeparator
  match ps.dropWhile isSeparator with
  | .word s :: rest =>
    let follows := match arity with
      | .one => isSeparator
      | .some => isWordOrSeparator
    let taken := before ++ .word s :: rest.takeWhile follows
    Option.some ((taken.map Piece.text).erase "--", rest.dropWhile follows)
  | _ => none

/-- As many positional arguments as there are words for, those that are left, and the pieces after
them. -/
def takePositionals : List Arity → List Piece → List (List String) × List Arity × List Piece
  | [], ps => ([], [], ps)
  | a :: as, ps =>
    match takePositional a ps with
    | none => ([], a :: as, ps)
    | Option.some (ws, ps) =>
      let (wss, as, ps) := takePositionals as ps
      (ws :: wss, as, ps)

/-- What has been read. -/
structure Parsed where
  /-- The values of options, the last one first. -/
  options : List (OptionKind × String)
  /-- The words of positional arguments. -/
  positionals : List (List String)
  /-- Is there an argument that fits nowhere? -/
  hasExcess : Bool
deriving Inhabited

namespace Parsed

/-- Nothing. -/
def initial : Parsed := ⟨[], [], false⟩

/-- The value that an option was given last. -/
def value? (p : Parsed) (kind : OptionKind) : Option String :=
  (p.options.find? fun o => o.1 = kind).map (·.2)

/-- Adds an option with its value. Help ends everything, and widths must be integers. -/
def addOption (p : Parsed) (kind : OptionKind) (value : String) : Except Stop Parsed :=
  if kind = .help then .error .help
  else if kind = .indent ∧ Text.readInteger? value = none then .error .usage
  else .ok { p with options := (kind, value) :: p.options }

/-- Adds options without values. -/
def addOptions : List OptionKind → Parsed → Except Stop Parsed
  | [], p => .ok p
  | kind :: kinds, p => do addOptions kinds (← p.addOption kind "")

def addPositionals (p : Parsed) (wss : List (List String)) : Parsed :=
  { p with positionals := p.positionals ++ wss }

def addExcess (p : Parsed) (isExcess : Bool) : Parsed :=
  { p with hasExcess := p.hasExcess || isExcess }

end Parsed

/-- Reads pieces with positional arguments of the given arities. What fits nowhere is passed over,
and refused in the end. Every step takes a piece, so their number is fuel enough. -/
def parsePieces (table : OptionTable) :
    Nat → List Arity → Parsed → List Piece → Except Stop Parsed
  | _, [], parsed, [] => if parsed.hasExcess then .error .usage else .ok parsed
  | _, _ :: _, _, [] => .error .usage
  | 0, _, _, _ :: _ => .error .usage
  | fuel + 1, arities, parsed, p :: ps =>
    match p with
    | .unknown => parsePieces table fuel arities (parsed.addExcess true) ps
    | .cluster first letters => do
      let (kinds, isLeftOver) ← readLetters table letters
      let parsed ← parsed.addOptions (first :: kinds)
      parsePieces table fuel arities (parsed.addExcess isLeftOver) ps
    | .option kind value =>
      match kind.takesValue, value, ps with
      | true, Option.some v, _ => do
        parsePieces table fuel arities (← parsed.addOption kind v) ps
      | true, none, .word v :: ps => do
        parsePieces table fuel arities (← parsed.addOption kind v) ps
      | true, none, _ => .error .usage
      | false, Option.some _, _ => .error .usage
      | false, none, _ => do parsePieces table fuel arities (← parsed.addOption kind "") ps
    | p =>
      match takePositionals arities (p :: ps) with
      | ([], _, _) =>
        parsePieces table fuel arities (parsed.addExcess true) (ps.dropWhile isWordOrSeparator)
      | (wss, arities, ps) => parsePieces table fuel arities (parsed.addPositionals wss) ps

/-- Reads the arguments of a command. -/
def parseArguments (table : OptionTable) (arities : List Arity) (arguments : List String) :
    Except Stop Parsed := do
  let ps ← pieces table arguments
  parsePieces table ps.length arities .initial ps

/-! ## Commands -/

inductive Command where
  | math (catalog formula : String) (id : Option String) (indent : Int) (asResult : Bool)
  | check (catalog : String) (processes : List String)
deriving DecidableEq, Inhabited

/-- The name of a command. -/
def Command.name : Command → String
  | math .. => "math"
  | check .. => "check"

structure Invocation where
  verbose : Bool
  command : Command
deriving DecidableEq, Inhabited

def parseMath (arguments : List String) : Except Stop Command := do
  let p ← parseArguments mathOptions [.one, .one] arguments
  match p.positionals with
  | [[catalog], formula] =>
    let indent := ((p.value? .indent).bind Text.readInteger?).getD 2
    return .math catalog (formula.headD "") (p.value? .id) indent (p.value? .noResult).isNone
  | _ => throw .usage

def parseCheck (arguments : List String) : Except Stop Command := do
  let p ← parseArguments checkOptions [.one, .some] arguments
  match p.positionals with
  | [[catalog], processes] => return .check catalog processes
  | _ => throw .usage

/-- Reads the name of a command and its arguments. -/
def parseCommand (name : String) (arguments : List String) : Except Stop Command :=
  if name = "math" then parseMath arguments
  else if name = "check" then parseCheck arguments
  else .error .usage

/-- Reads the options before the command. What is unknown there is refused in the end. -/
def parseProgram (parsed : Parsed) : List Piece → List String → Except Stop Invocation
  | .option .version none :: _, _ => .error .version
  | .option kind none :: ps, _ :: rest => do parseProgram (← parsed.addOption kind "") ps rest
  | .cluster first letters :: ps, _ :: rest => do
    let (kinds, isLeftOver) ← readLetters programOptions letters
    let parsed ← parsed.addOptions (first :: kinds)
    parseProgram (parsed.addExcess isLeftOver) ps rest
  | .unknown :: ps, _ :: rest => parseProgram (parsed.addExcess true) ps rest
  | .word name :: _, _ :: rest => do
    let command ← parseCommand name rest
    if parsed.hasExcess then throw .usage
    return ⟨(parsed.value? .verbose).isSome, command⟩
  | _, _ => .error .usage

/-- Reads a command line. -/
def parse (arguments : List String) : Except Stop Invocation := do
  let ps ← pieces programOptions arguments
  parseProgram .initial ps arguments

end ProcessGraph.CommandLine
