import ProcessGraph.Catalog.Loading
import ProcessGraph.CommandLine.Options
import ProcessGraph.CommandLine.Table
import ProcessGraph.Graph.Document
import ProcessGraph.Json.Writer
import ProcessGraph.Log.Setup

/-!
# Running commands

A command loads a catalog and either writes the document of the process that a formula computes, or
tells which processes the catalog has. What goes wrong with the catalog or the formula is reported;
other failures end the program.
-/

set_option autoImplicit false

namespace ProcessGraph.CommandLine

/-- How a run ends. -/
inductive Ending where
  | exit (status : Nat)
  /-- By a failure that is not reported. -/
  | broken (e : Failure)
deriving DecidableEq, Inhabited

/-- What a run leaves behind. -/
structure Outcome where
  ending : Ending
  output : String
  /-- What is reported to the user. -/
  report : String
  /-- The loggers with the records that were written. -/
  logging : Log.Logging
deriving Inhabited

def versionText : String := "procgraph 0.1.0\n"

/-- The status after arguments that do not fit. -/
def usageStatus : Nat := 2

/-! ## Commands -/

/-- What a command writes and its status, or why it fails; and what is logged on the way. -/
abbrev Command.Result := Except Failure (String × Nat) × List Log.Record

/-- No functions can be given on a command line. -/
def noCalls (_ : Documents Unit) (_ : Callback) (_ : List Value) : Run Unit Value :=
  throw .noOperation

/-- Makes a builder for a catalog. -/
def newBuilder (c : Catalog) (id : Value) (env : Environment) : Build BuilderRef := do
  let r ← Build.newCatalog c
  Build.createBuilder (.catalog r) id none none env

/-- Writes the document of the process that a formula computes. -/
def Command.runMath (c : Catalog) (env : Environment) (formula : String) (id : Option String)
    (indent : Int) (asResult : Bool) : Run Unit (String × Nat) := do
  let b ← newBuilder c ((id.map Value.str).getD .null) env
  let n ← Build.math b formula
  if asResult then Build.setResult n (.bool true)
  let document ← (Documents.within noCalls 1).builder b
  return (Json.indented indent document ++ "\n", 0)

/-- The row of a process: its parts, and whether it is in the catalog. -/
def supportRow (c : Catalog) (process : String) : List String :=
  let (id, space) := splitProcessId process
  let shown := match space with
    | none => "-"
    | some s => if s = "" then "-" else s
  [id, shown, if c.has id space then "supported" else "missing"]

/-- Is the process, with its namespace behind an `@`, in the catalog? -/
def isSupported (c : Catalog) (process : String) : Bool :=
  let (id, space) := splitProcessId process
  c.has id space

def supportTable (c : Catalog) (processes : List String) : Table where
  title := "Process support"
  header := ["Process", "Namespace", "Status"]
  rows := processes.map (supportRow c)

/-- Writes which processes are supported. The status tells whether all of them are. -/
def Command.runCheck (c : Catalog) (env : Environment) (processes : List String) :
    Run Unit (String × Nat) := do
  let _ ← newBuilder c .null env
  return ((supportTable c processes).text, if processes.all (isSupported c) then 0 else 1)

/-- The path of the catalog. -/
def Command.catalog : Command → String
  | math catalog .. => catalog
  | check catalog _ => catalog

/-- What the command does with its catalog. -/
def Command.body (c : Catalog) (env : Environment) : Command → Run Unit (String × Nat)
  | math _ formula id indent asResult => runMath c env formula id indent asResult
  | check _ processes => runCheck c env processes

/-- Runs a command. -/
def Command.run (files : Files) (env : Environment) (command : Command) : Command.Result :=
  match Catalog.load files command.catalog with
  | (.error e, records) => (.error e, records)
  | (.ok c, records) =>
    let (result, w) := (command.body c env).run ⟨{}, ()⟩
    (result, records ++ w.workspace.log)

/-! ## Reports -/

/-- Control characters that are not shown. -/
def isDropped (c : Char) : Bool := ['\x07', '\x08', '\x0b', '\x0c', '\x0d'].contains c

/-- Replaces tabs by blanks up to the next multiple of eight, beginning in some column. -/
def expandTabs : Nat → List Char → List Char
  | _, [] => []
  | column, c :: cs =>
    if c = '\t' then List.replicate (8 - column % 8) ' ' ++ expandTabs (column + 8 - column % 8) cs
    else if c = '\n' then c :: expandTabs 0 cs
    else c :: expandTabs (column + 1) cs

/-- A text as it is shown to the user. -/
def shownText (s : String) : String :=
  String.ofList (expandTabs 0 (s.toList.filter fun c => !isDropped c))

/-- The report of a failure. -/
def reportText (e : Failure) : String := shownText ("Error: " ++ e.message?.getD "") ++ "\n"

/-! ## The program -/

/-- Runs what the arguments ask for, with logging set up. -/
def Invocation.run (logging : Log.Logging) (env : Environment) (i : Invocation) : Outcome :=
  let (result, records) := i.command.run logging.files env
  let logging := records.foldl Log.Logging.emit logging
  match result with
  | .ok (output, status) => ⟨.exit status, output, "", logging⟩
  | .error e =>
    if e.isBuildFailure then
      let logging := logging.emit
        (.debug Log.commandLogger ("Command " ++ i.command.name ++ " failed"))
      ⟨.exit 1, "", reportText e, logging⟩
    else ⟨.broken e, "", "", logging⟩

/-- Runs the program. -/
def run (files : Files) (env : Environment) (arguments : List String) : Outcome :=
  let logging := Log.Logging.initial files
  match parse arguments with
  | .error .usage => ⟨.exit usageStatus, "", "", logging⟩
  | .error .help => ⟨.exit 0, "", "", logging⟩
  | .error .version => ⟨.exit 0, versionText, "", logging⟩
  | .ok i =>
    let level := if i.verbose then Value.int Log.debugLevel else .null
    match logging.configure Value.typeName level env with
    | .error e => ⟨.broken e, "", "", logging⟩
    | .ok logging => i.run logging env

end ProcessGraph.CommandLine
