/-!
# Log records

A record is a message of some level under the name of a logger. Names are dotted, and a name
belongs to every name that it extends.
-/

set_option autoImplicit false

namespace ProcessGraph.Log

structure Record where
  logger : String
  level : Int
  message : String
deriving DecidableEq, Inhabited

/-- The levels that have names. Two of them have a second name. -/
def levels : List (String × Int) :=
  [("CRITICAL", 50), ("ERROR", 40), ("WARNING", 30), ("INFO", 20), ("DEBUG", 10), ("NOTSET", 0),
   ("FATAL", 50), ("WARN", 30)]

def debugLevel : Int := 10

def warningLevel : Int := 30

/-- How records show a level. -/
def levelName (level : Int) : String :=
  match levels.find? fun p => p.2 = level with
  | some p => p.1
  | none => "Level " ++ toString level

/-- The name under which all loggers of the library stand. -/
def rootName : String := "procgraph"

def catalogLogger : String := rootName ++ ".builder.registry"
def builderLogger : String := rootName ++ ".builder.builder"
def nodeLogger : String := rootName ++ ".builder.node"
def parameterLogger : String := rootName ++ ".builder.parameter"
def formulaLogger : String := rootName ++ ".formula.compiler"
def commandLogger : String := rootName ++ ".cli"

/-- Does a logger stand under the name of the library? -/
def isBelowRoot (logger : String) : Bool :=
  logger = rootName || (rootName ++ ".").toList.isPrefixOf logger.toList

namespace Record

def debug (logger message : String) : Record := ⟨logger, debugLevel, message⟩

def warning (logger message : String) : Record := ⟨logger, warningLevel, message⟩

/-- The record as a line of a log, without the time. -/
def line (r : Record) : String := r.logger ++ " - " ++ levelName r.level ++ " - " ++ r.message

end Record

end ProcessGraph.Log
