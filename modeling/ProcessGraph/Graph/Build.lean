import ProcessGraph.Graph.Workspace

/-!
# Building steps

A step reads and changes a workspace and may fail. What it has changed before it fails stays
changed, unless it is an atomic step: then the nodes and counters of the builder and the parameters
of its root are as before, and no element node is remembered that is no longer there.
-/

set_option autoImplicit false

namespace ProcessGraph

/-- A step on a workspace. -/
abbrev Build := ExceptT Failure (StateM Workspace)

namespace Build

variable {α : Type}

/-- A result that does not depend on the workspace. -/
def ofExcept (e : Except Failure α) : Build α := ExceptT.mk (pure e)

/-- A step that changes the workspace and cannot fail. -/
def change (f : Workspace → Workspace) : Build Unit := modify f

def log (r : Log.Record) : Build Unit := change fun ws => ws.addRecord r

/-! ## New objects -/

def newCatalog (c : Catalog) : Build CatalogRef := do
  let ws ← get
  set { ws with catalogs := ws.catalogs.push c }
  return ⟨ws.catalogs.size⟩

def newBuilder (b : Builder) : Build BuilderRef := do
  let ws ← get
  set { ws with builders := ws.builders.push b }
  return ⟨ws.builders.size⟩

def newNode (n : Node) : Build NodeRef := do
  let ws ← get
  set { ws with nodes := ws.nodes.push n }
  return ⟨ws.nodes.size⟩

def newParameter (p : Parameter) : Build ParameterRef := do
  let ws ← get
  set { ws with parameters := ws.parameters.push p }
  return ⟨ws.parameters.size⟩

def newAccess (a : ArrayAccess) : Build AccessRef := do
  let ws ← get
  set { ws with accesses := ws.accesses.push a }
  return ⟨ws.accesses.size⟩

def newFormula (f : Formula) : Build FormulaRef := do
  let ws ← get
  set { ws with formulas := ws.formulas.push f }
  return ⟨ws.formulas.size⟩

end Build

/-! ## Rolling back -/

/-- The element nodes of an access that are still registered under their ids. -/
def ArrayAccess.prune (ws : Workspace) (nodes : Dictionary String NodeRef) (a : ArrayAccess) :
    ArrayAccess :=
  { a with elements := a.elements.filter fun e =>
      Dictionary.get? (ws.node e.2).id nodes = some e.2 }

namespace Workspace

/-- Forgets the element nodes that are not registered in a builder. -/
def pruneAccesses (ws : Workspace) (b : BuilderRef) : Workspace :=
  let nodes := (ws.builder b).nodes
  (ws.builder b).callbackParameters.values.foldl
    (fun now a => now.modifyAccess a fun access => access.prune ws nodes) ws

/-- Restores the nodes and counters of a builder. -/
def restoreNodes (before : Workspace) (b : BuilderRef) (now : Workspace) : Workspace :=
  now.modifyBuilder b fun builder =>
    { builder with nodes := (before.builder b).nodes, counters := (before.builder b).counters }

/-- Restores the parameters of a builder. -/
def restoreParameters (before : Workspace) (b : BuilderRef) (now : Workspace) : Workspace :=
  now.modifyBuilder b fun builder =>
    { builder with metadata.parameters := (before.builder b).metadata.parameters }

/-- The workspace after a failure of an atomic step that began in the workspace `before`. -/
def rollBack (before : Workspace) (b : BuilderRef) (now : Workspace) : Workspace :=
  let now := restoreParameters before (before.root b) (restoreNodes before b now)
  let now := now.pruneAccesses b
  now.addRecord (.debug Log.builderLogger ("Rolled back builder " ++ now.processName b ++ " to " ++
    toString (before.builder b).nodes.length ++ " node(s)"))

end Workspace

/-- A step that leaves no nodes and parameters behind if it fails. -/
def Build.atomically {α : Type} (b : BuilderRef) (body : Build α) : Build α :=
  ExceptT.mk fun before =>
    match body.run before with
    | (.ok a, now) => (.ok a, now)
    | (.error e, now) => (.error e, Workspace.rollBack before b now)

end ProcessGraph
