import ProcessGraph.Graph.CallbackParameters

/-!
# Declared parameters

The parameters of a process are declared on the outermost builder, in the order in which they are
first used. A declaration under a known name is merged into the one that is there, entry by entry.
Names of callback parameters are not declared.

A node declares the parameters that it reaches: through lists, tuples and objects in its arguments,
and through the arguments of the nodes among them, each of which is visited once.
-/

set_option autoImplicit false

namespace ProcessGraph

/-- Merges a declaration into the first of the same name; nothing if there is none. -/
def mergeDeclaration (declaration : Value.Entries) (name : Value) :
    List Value → Except Failure (Option (List Value))
  | [] => .ok none
  | .dict d :: rest =>
    if (Value.field "name" d).same name then
      .ok (some (.dict (Dictionary.insertAll d declaration) :: rest))
    else (mergeDeclaration declaration name rest).map fun r => r.map (.dict d :: ·)
  | _ :: _ => .error .noOperation

/-- Adds a declaration to the parameters of a process, and says whether it is a new one. -/
def declareIn (declaration : Value.Entries) (name : Value) (parameters : Value) :
    Except Failure (Value × Bool) :=
  match parameters with
  | .null => .ok (.list [.dict declaration], true)
  | .list items => do
    match ← mergeDeclaration declaration name items with
    | some items => return (.list items, false)
    | none => return (.list (items ++ [.dict declaration]), true)
  | .tuple items => do
    match ← mergeDeclaration declaration name items with
    | some items => return (.tuple items, false)
    | none => throw .noOperation
  | v => do
    let _ ← v.items
    throw .noOperation

namespace Build

/-- Is one of the callback parameters called so? -/
def isCallbackParameter (name : Value) (accesses : List AccessRef) : Build Bool := do
  let ws ← get
  return accesses.any fun a => (ws.accessParameter a).name.same name

/-- Declares a parameter on the root, or else on the builder itself. -/
def addParameter (b : BuilderRef) (declaration : Value.Entries) (onRoot : Bool := true) :
    Build Unit := do
  let name := Value.field "name" declaration
  let accesses ← parentParameters b
  if ← isCallbackParameter name accesses then return
  let ws ← get
  let target := if onRoot then ws.root b else b
  let (parameters, isNew) ← ofExcept
    (declareIn declaration name (ws.builder target).metadata.parameters)
  change fun ws => ws.modifyBuilder target fun builder =>
    { builder with metadata.parameters := parameters }
  if isNew then
    log (.debug Log.builderLogger ("Declared parameter '" ++ ws.display name ++ "' on process " ++
      ws.processName target))

/-- Declares parameters one after the other, as far as they are declarable. -/
def declareAll (b : BuilderRef) : List ParameterRef → Build Unit
  | [] => return
  | r :: rs => do
    let p := (← get).parameter r
    if p.isDeclarable then addParameter b p.declaration
    declareAll b rs

end Build

/-! ## Discovery -/

/-- What discovery looks for in a value. -/
inductive Mention where
  | parameter (r : ParameterRef)
  | node (r : NodeRef)
deriving DecidableEq

namespace Value

mutual

/-- The parameters and nodes in a value, from left to right. -/
def mentions : Value → List Mention
  | .parameter r => [.parameter r]
  | .node r => [.node r]
  | .list vs => mentionsInList vs
  | .tuple vs => mentionsInList vs
  | .dict d => mentionsInEntries d
  | _ => []

def mentionsInList : List Value → List Mention
  | [] => []
  | v :: vs => mentions v ++ mentionsInList vs

def mentionsInEntries : List (Scalar × Value) → List Mention
  | [] => []
  | (_, v) :: d => mentions v ++ mentionsInEntries d

end

end Value

/-- What discovery has found: the parameters in the order of their first visit, with repetitions,
and the nodes that were visited. -/
structure Discovery where
  parameters : List ParameterRef
  visited : List NodeRef

/-- Adds what is reached from a mention, through at most `n` nodes on one path. -/
def Discovery.visit (ws : Workspace) : Nat → Discovery → Mention → Discovery
  | _, found, .parameter r => { found with parameters := found.parameters ++ [r] }
  | 0, found, .node _ => found
  | n + 1, found, .node r =>
    if r ∈ found.visited then found
    else
      (Value.mentionsInEntries (ws.node r).arguments).foldl (visit ws n)
        { found with visited := r :: found.visited }

/-- The parameters that arguments reach. No path goes through more nodes than there are, as a node
mentions only older ones. -/
def Workspace.discover (ws : Workspace) (arguments : Value.Entries) : List ParameterRef :=
  let mentions := Value.mentionsInEntries arguments
  (mentions.foldl (Discovery.visit ws ws.nodes.size) ⟨[], []⟩).parameters

end ProcessGraph
