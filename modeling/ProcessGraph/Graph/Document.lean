import ProcessGraph.Graph.Lowering
import ProcessGraph.Graph.Shortcut

/-!
# Documents

The document of a builder holds its nodes, and what is said about the process. Callback arguments,
given as functions or formulas, are lowered anew each time: into a new child builder, whose document
stands in place of the argument. A function gets the child builder and as many of the callback
parameters as it takes; what it returns is the result of the child. A function that fails leaves
nothing behind.

What a call of a function does is up to its owner, who has a state of their own beside the
workspace. The functions here take the meaning of calls, and of documents of builders further
inside, as arguments; `Documents.within` puts them together for a depth of nesting.
-/

set_option autoImplicit false

namespace ProcessGraph

/-- A workspace and the state of the owner of the callbacks. -/
structure World (σ : Type) where
  workspace : Workspace
  host : σ

/-- A step on a workspace that may call functions of the host. -/
abbrev Run (σ : Type) := ExceptT Failure (StateM (World σ))

variable {σ : Type}

namespace Run

variable {α : Type}

/-- A building step does not touch the host. -/
def lift (step : Build α) : Run σ α :=
  ExceptT.mk fun w =>
    let (r, ws) := step.run w.workspace
    (r, { w with workspace := ws })

instance : MonadLift Build (Run σ) := ⟨lift⟩

/-- The workspace as it is. -/
def workspace : Run σ Workspace := lift get

/-- The state of the host as it is. -/
def host : Run σ σ := ExceptT.mk fun w => (.ok w.host, w)

/-- Changes the state of the host. -/
def changeHost (f : σ → σ) : Run σ Unit :=
  ExceptT.mk fun w => (.ok (), { w with host := f w.host })

/-- A step that leaves no nodes and parameters behind if it fails. -/
def atomically (b : BuilderRef) (body : Run σ α) : Run σ α :=
  ExceptT.mk fun before =>
    match body.run before with
    | (.ok a, now) => (.ok a, now)
    | (.error e, now) =>
      (.error e, { now with workspace := Workspace.rollBack before.workspace b now.workspace })

end Run

/-- The arguments that a function takes: the builder and the callback parameters, or as many of
them as it has parameters. -/
def Callback.accepted (f : Callback) (arguments : List Value) : List Value :=
  if f.variadic then arguments else arguments.take f.positional

/-- The documents of builders and nodes. -/
structure Documents (σ : Type) where
  builder : BuilderRef → Run σ Value
  node : NodeRef → Run σ Value

namespace Documents

/-- A list that a callback returns becomes a node that creates an array, if there is a process for
it. -/
def wrapList (b : BuilderRef) (v : Value) : Build Value := do
  let ws ← get
  let process := (ws.builder b).settings.arrayCreateProcess
  match v with
  | .list vs | .tuple vs =>
    if (ws.catalogOf b).has process none then
      return .node (← Build.invoke b process (.list [.list vs]))
    else return v
  | v => return v

/-- The node that a callback for an argument returns; it must be one of the child builder. -/
def resultNode (b : BuilderRef) (argument : Scalar) (process : String) (v : Value) :
    Build NodeRef := do
  match v with
  | .node n =>
    if ((← get).node n).builder = b then return n
    else throw (.foreignCallbackResult argument.display process)
  | v => throw (.callbackResult argument.display process v.typeName)

/-- Creates the builder for a callback argument and remembers it. -/
def callbackBuilder (n : NodeRef) (argument : Scalar) : Build BuilderRef := do
  let child ← Build.createChild ((← get).node n).builder n argument
  Build.change fun ws => ws.modifyNode n fun node =>
    { node with callbackBuilders := Dictionary.insert argument child node.callbackBuilders }
  return child

variable (call : Callback → List Value → Run σ Value) (inner : BuilderRef → Run σ Value)

/-- The document that a function makes for an argument of a node. -/
def ofCallback (n : NodeRef) (argument : Scalar) (f : Callback) : Run σ Value := do
  let child ← callbackBuilder n argument
  let parameters ← Build.parentParameters child
  let ws ← Run.workspace
  let names := parameters.map fun a => (ws.accessParameter a).name
  Build.log (.debug Log.nodeLogger ("Lowering callback for " ++ (ws.node n).id ++ "." ++
    argument.display ++ " with parameters " ++ ws.literal (.list names)))
  Run.atomically child do
    let v ← call f (f.accepted (.builder child :: parameters.map .access))
    let v ← wrapList child v
    let result ← resultNode child argument (ws.node n).process v
    Build.setResult result (.bool true)
    inner child

/-- The document that a formula makes for an argument of a node. -/
def ofFormula (n : NodeRef) (argument : Scalar) (f : FormulaRef) : Run σ Value := do
  let child ← callbackBuilder n argument
  Build.setFormulaBuilder f child
  let _ ← Build.generate f true
  inner child

/-- What an object is in an argument: references to nodes of the same graph and to parameters, and
documents of everything that makes one. -/
def ofObject (n : NodeRef) (argument : Scalar) : Value → Run σ Value
  | .node m => do
    let ws ← Run.workspace
    if (ws.node m).builder = (ws.node n).builder then
      return .object [("from_node", .str (ws.node m).id)]
    else throw (.foreignNode (ws.node m).id (ws.node n).process)
  | .parameter p => return ((← Run.workspace).parameter p).reference
  | .access a => return ((← Run.workspace).accessParameter a).reference
  | .formula f => ofFormula inner n argument f
  | .builder b => inner b
  | .callback f => ofCallback call inner n argument f
  | v => return v

mutual

/-- What an argument of a node is in the document. -/
def ofArgument (n : NodeRef) (argument : Scalar) : Value → Run σ Value
  | .list vs => return .list (← ofArguments n argument vs)
  | .tuple vs => return .list (← ofArguments n argument vs)
  | .dict d => return .dict (← ofEntries n argument d)
  | v => ofObject call inner n argument v

def ofArguments (n : NodeRef) (argument : Scalar) : List Value → Run σ (List Value)
  | [] => return []
  | v :: vs => do
    let w ← ofArgument n argument v
    let ws ← ofArguments n argument vs
    return w :: ws

def ofEntries (n : NodeRef) (argument : Scalar) :
    List (Scalar × Value) → Run σ (List (Scalar × Value))
  | [] => return []
  | (k, v) :: d => do
    let w ← ofArgument n argument v
    let e ← ofEntries n argument d
    return (k, w) :: e

end

/-- The arguments of a node, each exported under its own name. -/
def ofNamed (n : NodeRef) : List (Scalar × Value) → Run σ (List (Scalar × Value))
  | [] => return []
  | (name, v) :: d => do
    let w ← ofArgument call inner n name v
    let e ← ofNamed n d
    return (name, w) :: e

/-- The document of a node. -/
def ofNode (n : NodeRef) : Run σ Value := do
  let node := (← Run.workspace).node n
  let arguments ← ofNamed call inner n node.arguments
  let now := (← Run.workspace).node n
  let space := match node.space with
    | some s => [("namespace", Value.str s)]
    | none => []
  let description := match now.description with
    | .null => []
    | d => [("description", d)]
  let result := if now.result.isTruthy then [("result", .bool true)] else []
  return .object ([("process_id", .str node.process)] ++ space ++
    [("arguments", .dict arguments)] ++ description ++ result)

/-- The documents of nodes under their ids. -/
def ofNodes : List (String × NodeRef) → Run σ (List (Scalar × Value))
  | [] => return []
  | (id, n) :: rest => do
    let v ← ofNode call inner n
    let vs ← ofNodes rest
    return (.str id, v) :: vs

/-- The document of a builder: the nodes that it has when the lowering begins, and the metadata
that it has when the lowering is done. -/
def ofBuilder (b : BuilderRef) : Run σ Value := do
  let graph ← ofNodes call inner ((← Run.workspace).builder b).nodes
  let metadata := ((← Run.workspace).builder b).metadata.fields.filter fun p =>
    match p.2 with
    | .null => false
    | _ => true
  return .object (("process_graph", .dict graph) :: metadata)

end Documents

/-- Documents whose callbacks are nested at most `n` deep, for a meaning of calls that may itself
ask for documents. -/
def Documents.within (call : Documents σ → Callback → List Value → Run σ Value) :
    Nat → Documents σ
  | 0 => ⟨fun _ => throw .tooDeep, fun _ => throw .tooDeep⟩
  | n + 1 =>
    { builder := fun b =>
        Documents.ofBuilder (call (within call n)) (within call n).builder b
      node := fun m => Documents.ofNode (call (within call n)) (within call n).builder m }

end ProcessGraph
