import ProcessGraph.CommandLine.Run

/-!
# The program

Reads the files and environment variables that a command line names, runs it, and writes what it
leaves behind: the log file, the error stream and the output.
-/

set_option autoImplicit false

namespace ProcessGraph.CommandLine

/-- The environment variables that are read. -/
def variableNames : List String :=
  ["PROCGRAPH_LOG_LEVEL", "PROCGRAPH_DEBUG_LOG", "PROCGRAPH_ID_STEM_LENGTH",
   "PROCGRAPH_STRICT_ARRAY_ACCESS", "PROCGRAPH_ARRAY_ELEMENT_PROCESS",
   "PROCGRAPH_ARRAY_CREATE_PROCESS"]

/-- The variables that are set. -/
def readEnvironment : IO Environment :=
  variableNames.filterMapM fun name => do
    return (← IO.getEnv name).map fun value => (name, value)

/-- The path and the paths on the way to it. -/
def waypoints (p : Path) : List Path :=
  (List.range p.components.length).map fun n => ⟨p.root, p.components.take (n + 1)⟩

/-- Adds what is at a path to the known files. -/
def look (files : Files) (p : Path) : IO Files := do
  try
    return files.write p (← IO.FS.readBinFile p.toString)
  catch e =>
    match e with
    | .inappropriateType none .. =>
      return { files with directories := files.directories ++ [p.place] }
    | _ => return files

/-- The paths that a run may read or write. -/
def pathsOf (env : Environment) (arguments : List String) : List Path :=
  let log := (Dictionary.get? "PROCGRAPH_DEBUG_LOG" env).toList.filter (· ≠ "")
  let catalog := match parse arguments with
    | .ok i => [i.command.catalog]
    | .error _ => []
  (catalog ++ log).map Path.ofString

/-- Writes what a run has added to the file of a handler. -/
def flush (before after : Files) : Log.Handler → IO Unit
  | .stream _ => return
  | .file _ path => do
    let old := (Dictionary.get? path.place before.contents).getD ByteArray.empty
    let new := (Dictionary.get? path.place after.contents).getD ByteArray.empty
    IO.FS.createDirAll (Path.toString ⟨path.root, path.components.dropLast⟩)
    let handle ← IO.FS.Handle.mk path.toString .append
    handle.write (new.extract old.size new.size)

/-- Runs the program on the files and variables that are there, and writes its log file. -/
def runHere (arguments : List String) : IO Outcome := do
  let env ← readEnvironment
  let files ← ((pathsOf env arguments).flatMap waypoints).foldlM look Files.empty
  let outcome := run files env arguments
  outcome.logging.setup.handlers.forM (flush files outcome.logging.files)
  return outcome

/-- The status that the program ends with. -/
def Ending.status : Ending → UInt8
  | exit status => status.toUInt8
  | broken _ => 1

/-- What an ending adds to the error stream. -/
def Ending.text : Ending → String
  | exit 2 => "usage: procgraph [-v] math CATALOG FORMULA | check CATALOG ID[@NAMESPACE]...\n"
  | exit _ => ""
  | broken e => e.message?.getD "failed" ++ "\n"

end ProcessGraph.CommandLine

/-- Runs the program. -/
def main (arguments : List String) : IO UInt32 := do
  let outcome ← ProcessGraph.CommandLine.runHere arguments
  let errors ← IO.getStderr
  for r in outcome.logging.stream do
    errors.putStrLn r.line
  errors.putStr (outcome.report ++ outcome.ending.text)
  (← IO.getStdout).putStr outcome.output
  return outcome.ending.status.toUInt32
