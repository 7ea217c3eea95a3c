import ProcessGraph.Files
import ProcessGraph.Log.Record
import ProcessGraph.Settings

/-!
# Logging setup

The loggers of the library share a list of handlers: none, one that writes to the error stream, or
that one and another that appends to a file. Without handlers records go to the handlers above,
which write no lines of this form. A record is written by a handler if it is enabled and reaches
the level of the handler.
-/

set_option autoImplicit false

namespace ProcessGraph.Log

inductive Handler where
  | stream (level : Int)
  | file (level : Int) (path : Path)
deriving DecidableEq, Inhabited

namespace Handler

def level : Handler → Int
  | stream n => n
  | file n _ => n

/-- The name of the kind of handler. -/
def kind : Handler → String
  | stream _ => "FlushingStreamHandler"
  | file .. => "FileHandler"

def isFile : Handler → Bool
  | stream _ => false
  | file .. => true

/-- A new level is for the error stream only. -/
def setStreamLevel (n : Int) : Handler → Handler
  | stream _ => stream n
  | h => h

end Handler

/-- The state of the loggers. Level zero leaves the level to the loggers above. -/
structure Setup where
  level : Int
  propagates : Bool
  handlers : List Handler
deriving DecidableEq, Inhabited

/-- The loggers with the files that they write to, and the lines on the error stream. -/
structure Logging where
  setup : Setup
  files : Files
  stream : List Record
deriving Inhabited

namespace Setup

/-- Loggers that are not configured. -/
def initial : Setup := ⟨0, true, []⟩

/-- The level from which on records are enabled. The loggers above enable warnings. -/
def effectiveLevel (s : Setup) : Int := if s.level = 0 then warningLevel else s.level

/-- Is a record enabled? Records must have a positive level. -/
def enables (s : Setup) (level : Int) : Bool := 0 < level && s.effectiveLevel ≤ level

end Setup

/-- The capital of a character, as far as it is an ASCII letter. -/
def capital (c : Char) : Char :=
  if c = 'ı' then 'I' else if c = 'ſ' then 'S' else c.toUpper

/-- The level of a name; blanks around it and the case of its letters do not matter. -/
def namedLevel? (name : String) : Option Int :=
  Dictionary.get? ((Text.strip name).map capital) levels

/-- The level that a value gives: a number, or a text that names a level. -/
def levelOf (objectName : Value → String) : Value → Except Failure Int
  | .int n => .ok n
  | .bool b => .ok (if b then 1 else 0)
  | v =>
    let name := v.display objectName
    match namedLevel? name with
    | some n => .ok n
    | none => .error (.unknownLogLevel name)

/-- The level for a given value, or without one for the environment. -/
def resolveLevel (objectName : Value → String) (given : Value) (env : Environment) :
    Except Failure Int :=
  match given with
  | .null => levelOf objectName (.str ((Dictionary.get? "PROCGRAPH_LOG_LEVEL" env).getD "WARNING"))
  | v => levelOf objectName v

namespace Logging

/-- Loggers that are not configured, above some files. -/
def initial (files : Files) : Logging := ⟨.initial, files, []⟩

/-- Passes a record to one handler. -/
def handle (r : Record) (l : Logging) (h : Handler) : Logging :=
  if h.level ≤ r.level then
    match h with
    | .stream _ => { l with stream := l.stream ++ [r] }
    | .file _ path => { l with files := l.files.append path (r.line ++ "\n") }
  else l

/-- Logs a record. -/
def emit (l : Logging) (r : Record) : Logging :=
  if isBelowRoot r.logger ∧ l.setup.enables r.level then
    l.setup.handlers.foldl (handle r) l
  else l

/-- Attaches a handler for the file that the environment names, if it can be opened. -/
def attachFile (l : Logging) (name : String) : Logging :=
  let path := Path.ofString name
  match l.files.openAtEnd path with
  | .ok files =>
    { l with files, setup.handlers := l.setup.handlers ++ [.file debugLevel path] }
  | .error _ => l.emit (.warning rootName ("Can't open debug log " ++ name))

/-- Attaches handlers for a level to loggers that have none. -/
def attach (l : Logging) (level : Int) (env : Environment) : Logging :=
  let l := { l with setup.propagates := false, setup.handlers := [.stream level] }
  match Dictionary.get? "PROCGRAPH_DEBUG_LOG" env with
  | none => l
  | some name => if name = "" then l else l.attachFile name

/-- Sets the level of the loggers: a file gets everything. -/
def setLevel (l : Logging) (level : Int) : Logging :=
  { l with setup.level := if l.setup.handlers.any Handler.isFile then debugLevel else level }

/-- Configures the loggers. Handlers are attached only once; later calls set the level. -/
def configure (l : Logging) (objectName : Value → String) (given : Value) (env : Environment) :
    Except Failure Logging := do
  let level ← resolveLevel objectName given env
  let l :=
    if l.setup.handlers = [] then l.attach level env
    else { l with setup.handlers := l.setup.handlers.map (Handler.setStreamLevel level) }
  return l.setLevel level

/-- Removes all handlers. -/
def reset (l : Logging) : Logging := { l with setup := .initial }

end Logging

end ProcessGraph.Log
