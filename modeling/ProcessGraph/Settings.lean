import ProcessGraph.Failure
import ProcessGraph.Text.Integer

/-!
# Settings of builders

Settings are read from environment variables; what a caller gives takes precedence. The builder of
a callback shares the settings of its parent.
-/

set_option autoImplicit false

namespace ProcessGraph

/-- The environment variables that are set. -/
abbrev Environment := Dictionary String String

structure Settings where
  /-- The number of characters of a process id that are kept for the ids of its nodes. -/
  idStemLength : Int
  /-- Are writes to array elements failures, and not just warnings? -/
  strictArrayAccess : Bool
  /-- The process that accesses an element of an array. -/
  arrayElementProcess : String
  /-- The process that wraps a list which a callback returns. -/
  arrayCreateProcess : String
deriving DecidableEq, Inhabited

namespace Settings

/-- Settings that do not depend on the environment. -/
def standard : Settings := ⟨6, false, "array_element", "array_create"⟩

/-- Does a text turn a flag on? -/
def isOn (s : String) : Bool :=
  ["1", "true", "yes", "on"].contains ((Text.strip s).map Char.toLower)

/-- The settings that a caller gives. -/
structure Given where
  idStemLength : Option Int := none
  strictArrayAccess : Option Bool := none
  arrayElementProcess : Option String := none
  arrayCreateProcess : Option String := none
deriving Inhabited

/-- The stem length in an environment; a text that writes no integer is refused. -/
def stemLengthFrom (env : Environment) : Except Failure Int :=
  match Dictionary.get? "PROCGRAPH_ID_STEM_LENGTH" env with
  | none => .ok standard.idStemLength
  | some s =>
    match Text.readInteger? s with
    | some n => .ok n
    | none => .error .badText

/-- Settings from what is given and, for the rest, from the environment. -/
def make (given : Given) (env : Environment) : Except Failure Settings := do
  let length ← match given.idStemLength with
    | some n => pure n
    | none => stemLengthFrom env
  return {
    idStemLength := length
    strictArrayAccess := given.strictArrayAccess.getD
      (isOn ((Dictionary.get? "PROCGRAPH_STRICT_ARRAY_ACCESS" env).getD "false"))
    arrayElementProcess := given.arrayElementProcess.getD
      ((Dictionary.get? "PROCGRAPH_ARRAY_ELEMENT_PROCESS" env).getD standard.arrayElementProcess)
    arrayCreateProcess := given.arrayCreateProcess.getD
      ((Dictionary.get? "PROCGRAPH_ARRAY_CREATE_PROCESS" env).getD standard.arrayCreateProcess) }

/-- Settings from the environment alone. -/
def ofEnvironment (env : Environment) : Except Failure Settings := make {} env

/-- The standard settings with some of them changed. -/
def standardWith (given : Given) : Settings where
  idStemLength := given.idStemLength.getD standard.idStemLength
  strictArrayAccess := given.strictArrayAccess.getD standard.strictArrayAccess
  arrayElementProcess := given.arrayElementProcess.getD standard.arrayElementProcess
  arrayCreateProcess := given.arrayCreateProcess.getD standard.arrayCreateProcess

/-- What is wrong with the settings. -/
def problems (s : Settings) : List String :=
  (if s.idStemLength < 1 then
    ["Id stem length " ++ toString s.idStemLength ++ " must be at least 1"] else []) ++
  (if s.arrayElementProcess = "" then ["Array element process id must not be empty"] else []) ++
  (if s.arrayCreateProcess = "" then ["Array create process id must not be empty"] else [])

end Settings

end ProcessGraph
