import ProcessGraph.Graph.Build

/-!
# Callback parameters

A process passes parameters to its callbacks. Their names are declared in the schema of the callback
argument in the specification; if they are not, they may be registered for the process id. In a
builder a callback parameter is made once and then shared.
-/

set_option autoImplicit false

namespace ProcessGraph

namespace Value

/-- The items that a value runs through: those of lists, the characters of texts, the keys of
objects. -/
def items : Value → Except Failure (List Value)
  | .list vs => .ok vs
  | .tuple vs => .ok vs
  | .str s => .ok (s.toList.map fun c => .str (String.singleton c))
  | .dict d => .ok (d.map fun p => p.1.toValue)
  | _ => .error .wrongType

/-- The entry of an object under a name; only objects have entries. -/
def entry (name : String) : Value → Except Failure Value
  | .dict d => .ok (field name d)
  | _ => .error .noOperation

end Value

namespace Specification

/-- The parameters that a specification lists. -/
def parameters (spec : Specification) : Except Failure (List Value) :=
  let v := Value.field "parameters" spec
  if v.isTruthy then v.items else .ok []

/-- The names that a list of parameters has; those without a name are left out. -/
def namesIn (parameters : List Value) : List Value :=
  parameters.filterMap fun
    | .dict d => Value.field? "name" d
    | _ => none

/-- The names in the first schema that lists parameters. -/
def namesInSchemas : List Value → Option (List Value)
  | [] => none
  | .dict schema :: rest =>
    match Value.field "parameters" schema with
    | .list ps => some (namesIn ps)
    | _ => namesInSchemas rest
  | _ :: rest => namesInSchemas rest

/-- The names of callback parameters in a schema, or a list of schemas. -/
def namesInSchema : Value → Option (List Value)
  | .dict schema => namesInSchemas [.dict schema]
  | .list schemas => namesInSchemas schemas
  | _ => none

/-- The names of callback parameters that the first parameter called `argument` declares. -/
def declaredNames (argument : Scalar) : List Value → Except Failure (Option (List Value))
  | [] => .ok none
  | p :: ps => do
    let name ← p.entry "name"
    if name.same argument.toValue then return namesInSchema (← p.entry "schema")
    else declaredNames argument ps

end Specification

/-- The names that are registered for callbacks of a node. -/
def CallbackNames.names (arguments : Value.Entries) : CallbackNames → List Value
  | .fixed names => names
  | .ifTrue argument names otherwise =>
    match Value.field? argument arguments with
    | some (.bool true) => names
    | _ => otherwise

namespace Build

/-- The names of the parameters that a node passes to the callback given for an argument. -/
def callbackNames (n : NodeRef) (argument : Scalar) : Build (List Value) := do
  let ws ← get
  let node := ws.node n
  let parameters ← ofExcept (Specification.parameters node.specification)
  match ← ofExcept (Specification.declaredNames argument parameters) with
  | some names => return names
  | none =>
    match Dictionary.get? node.process ws.callbackNames with
    | some names => return names.names node.arguments
    | none => return []

/-- The callback parameter of a builder with the given name, made when it is first asked for. -/
def callbackParameter (b : BuilderRef) (name : Value) : Build AccessRef := do
  let ws ← get
  match name.key? with
  | none => throw .wrongType
  | some key =>
    match Dictionary.get? key (ws.builder b).callbackParameters with
    | some a => return a
    | none =>
      let p ← newParameter (.ofCallback name)
      let a ← newAccess { parameter := p, builder := b }
      change fun ws => ws.modifyBuilder b fun builder =>
        { builder with callbackParameters := Dictionary.insert key a builder.callbackParameters }
      return a

/-- The callback parameters with the given names. -/
def callbackParameterList (b : BuilderRef) : List Value → Build (List AccessRef)
  | [] => return []
  | name :: names => do
    let a ← callbackParameter b name
    let as ← callbackParameterList b names
    return a :: as

/-- The parameters that the parent process passes to the process of a builder. -/
def parentParameters (b : BuilderRef) : Build (List AccessRef) := do
  let builder := (← get).builder b
  match builder.parentNode, builder.parentParameter with
  | none, _ => return []
  | _, .null => return []
  | some n, argument => do
    let names ← callbackNames n argument
    callbackParameterList b names

end Build

end ProcessGraph
