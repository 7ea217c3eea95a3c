import ProcessGraph.Graph.Declaration

/-!
# Calling processes

A call adds a node to a builder: the process is looked up in the catalog, the arguments are bound to
the names of its parameters, the node gets a new id, and the parameters that it reaches are declared
before it is registered.
-/

set_option autoImplicit false

namespace ProcessGraph

/-! ## Arguments -/

namespace Specification

/-- The id of a specification. -/
def id (spec : Specification) : String := (Value.field "id" spec).display Value.typeName

/-- Binds arguments to the names of the parameters, in their order. Of two parameters with one name
the later one counts; 1 and true are one name. -/
def bind (spec : Specification) (arguments : List Value) : Except Failure Value.Entries := do
  let names ← (← parameters spec).mapM (Value.entry "name")
  if names.length < arguments.length then
    throw (.tooManyArguments spec.id arguments.length names.length)
  let entries ← (names.zip arguments).mapM fun (name, v) =>
    match name.key? with
    | some key => .ok (key, v)
    | none => .error .wrongType
  return Dictionary.ofEntries (Scalar.spellAlike entries)

/-- The arguments of a call by name: given so, in the order of the parameters, or not at all. -/
def bindArguments (spec : Specification) : Value → Except Failure Value.Entries
  | .null => .ok []
  | .dict entries => .ok entries
  | .list vs => spec.bind vs
  | .tuple vs => spec.bind vs
  | v => .error (.argumentsOfType v.typeName)

end Specification

/-! ## Node ids -/

/-- The start of the ids of nodes: a name without its first underscore, cut to a length. A negative
length counts from the end. -/
def idStem (length : Int) (name : String) : String :=
  let cs := name.toList.erase '_'
  let count := if 0 ≤ length then length.toNat else cs.length - (-length).toNat
  String.ofList (cs.take count)

/-- The id with a stem and a number. -/
def numberedId (stem : String) (n : Nat) : String := stem ++ toString n

/-- The first number from `n` on whose id is not taken; of `fuel + 1` numbers one must be free if
not more than `fuel` ids are taken. -/
def firstFree (taken : List String) (stem : String) : Nat → Nat → Nat
  | 0, n => n
  | fuel + 1, n => if numberedId stem n ∈ taken then firstFree taken stem fuel (n + 1) else n

namespace Builder

/-- The number that comes after those used up for a stem and whose id is free. -/
def nextNumber (b : Builder) (stem : String) : Nat :=
  firstFree b.nodes.keys stem b.nodes.length ((Dictionary.get? stem b.counters).getD 0 + 1)

end Builder

namespace Build

/-- A new id for a node that is called after `name`. -/
def generateId (b : BuilderRef) (name : String) : Build String := do
  let builder := (← get).builder b
  let stem := idStem builder.settings.idStemLength name
  let n := builder.nextNumber stem
  change fun ws => ws.modifyBuilder b fun builder =>
    { builder with counters := Dictionary.insert stem n builder.counters }
  return numberedId stem n

/-! ## Calls -/

/-- Makes a node that is not registered yet. -/
def makeNode (b : BuilderRef) (process : String) (arguments description : Value)
    (space : Option String) : Build NodeRef := do
  let catalog := (← get).catalogOf b
  match catalog.get? process space with
  | none => throw (.processNotFound process space)
  | some specification =>
    let arguments ← ofExcept (specification.bindArguments arguments)
    let id ← generateId b process
    declareAll b ((← get).discover arguments)
    newNode { builder := b, specification, process, space, arguments, id, description }

/-- Registers a node under its id. -/
def register (b : BuilderRef) (n : NodeRef) : Build Unit := do
  let node := (← get).node n
  change fun ws => ws.modifyBuilder b fun builder =>
    { builder with nodes := Dictionary.insert node.id n builder.nodes }
  log (.debug Log.builderLogger ("Added node " ++ node.id ++ " (" ++ node.process ++ ")"))

/-- Calls a process. Without a namespace the id may name one behind an `@`. -/
def invoke (b : BuilderRef) (process : String) (arguments : Value) (description : Value := .null)
    (space : Option String := none) : Build NodeRef := do
  let (process, space) := match space with
    | none => splitProcessId process
    | some space => (process, some space)
  let n ← makeNode b process arguments description space
  register b n
  return n

end Build

end ProcessGraph
