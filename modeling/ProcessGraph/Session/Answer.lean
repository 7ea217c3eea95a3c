import ProcessGraph.Graph.Workspace
import ProcessGraph.Json.Writer

/-!
# Answers

The results of steps are shown as plain data, in which markers stand for objects and for doubles.
-/

set_option autoImplicit false

namespace ProcessGraph

namespace Workspace

variable (ws : Workspace)

/-- An object with one entry. -/
def marker (name : String) (v : Value) : Value := .object [(name, v)]

mutual

/-- A value as plain data. -/
def shown : Value → Value
  | .float x => marker "$float" (.str x.toHex)
  | .list vs => .list (shownList vs)
  | .tuple vs => .list (shownList vs)
  | .dict d => .dict (shownEntries d)
  | .node r => marker "$node" (.str (ws.node r).id)
  | .parameter r => marker "$param" (shownName (ws.parameter r).name)
  | .access r => marker "$proxy" (shownName (ws.accessParameter r).name)
  | .builder r => marker "$builder" (shownName (ws.builder r).metadata.id)
  | .formula r => marker "$formula" (.str (ws.formula r).text)
  | .catalog r => marker "$registry" (.int (ws.catalog r).length)
  | .callback _ => marker "$callback" (.bool true)
  | v => v

def shownList : List Value → List Value
  | [] => []
  | v :: vs => shown v :: shownList vs

def shownEntries : List (Scalar × Value) → List (Scalar × Value)
  | [] => []
  | (k, v) :: d => (k, shown v) :: shownEntries d

/-- The name in a marker; names are data, and objects within them are left out. -/
def shownName : Value → Value
  | .float x => marker "$float" (.str x.toHex)
  | .tuple vs => .list vs
  | v => v

end

/-- The JSON text of a value. -/
def shownText (v : Value) : Value := .str (Json.compact (ws.shown v))

/-- A value as the result of a step: a node is shown by its id. -/
def shownResult : Value → Value
  | .node r => .str (ws.node r).id
  | v => ws.shown v

end Workspace

namespace Session

/-- How a result is shown. -/
inductive Form where
  | plain
  /-- A node is shown by a marker, too. -/
  | marked
  /-- The JSON text is shown. -/
  | text
deriving DecidableEq

/-- What a step results in. -/
structure Outcome where
  value : Value
  form : Form := .plain

namespace Outcome

/-- No result. -/
def none : Outcome := ⟨.null, .plain⟩

def shown (ws : Workspace) (o : Outcome) : Value :=
  match o.form with
  | .plain => ws.shownResult o.value
  | .marked => ws.shown o.value
  | .text => ws.shownText o.value

end Outcome

/-- What happens inside a step: calls of callbacks, and the results of the steps within. -/
inductive Event where
  | call (arguments : List Value)
  | done (result : Value)
  | failed (e : Failure)
deriving Inhabited

/-- The answer to a step. -/
structure Answer where
  result : Except Failure Value
  trace : List Event
  warnings : List String
  log : List Log.Record

end Session

end ProcessGraph
