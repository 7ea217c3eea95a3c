import ProcessGraph.Failure

/-!
# Parameters

A parameter is a named input of a process. It is declared on the process if its schema is an
object; the parameters of callbacks have no schema.
-/

set_option autoImplicit false

namespace ProcessGraph

structure Parameter where
  name : Value
  /-- An object, or null for parameters that are never declared. -/
  schema : Value
  description : Value
  /-- A parameter with a default is optional. -/
  default? : Option Value
deriving Inhabited

namespace Parameter

/-- The key and the value of an item of a list of pairs. -/
def pair : Value → Except Failure (Scalar × Value)
  | .list [k, v] | .tuple [k, v] =>
    match k.key? with
    | some k => .ok (k, v)
    | none => .error .wrongType
  | .str s =>
    match s.toList with
    | [k, v] => .ok (.str (String.singleton k), .str (String.singleton v))
    | _ => .error .badText
  | .dict [(k, _), (v, _)] => .ok (k, v.toValue)
  | .list _ | .tuple _ | .dict _ => .error .badText
  | _ => .error .wrongType

/-- The object that a schema stands for: a text names a type, a list of pairs lists entries. -/
def schemaOf : Value → Except Failure Value
  | .null => .ok .null
  | .str type => .ok (.object [("type", .str type)])
  | .dict entries => .ok (.dict entries)
  | .list items | .tuple items => do
    let entries ← items.mapM pair
    return .dict (Dictionary.ofEntries (Scalar.spellAlike entries))
  | _ => .error .wrongType

/-- A parameter from what is given; without a schema any value is allowed. -/
def make (name : Value) (schema description default? : Option Value) : Except Failure Parameter :=
  do
    let schema ← schemaOf (schema.getD (.dict []))
    return ⟨name, schema, description.getD (.str ""), default?⟩

/-- A parameter of the given name that any value fits. -/
def named (name : String) : Parameter := ⟨.str name, .dict [], .str "", none⟩

/-- A parameter that a process passes to a callback. -/
def ofCallback (name : Value) : Parameter := ⟨name, .null, .str "", none⟩

def isOptional (p : Parameter) : Bool := p.default?.isSome

/-- Is the parameter added to the parameters of the process that uses it? -/
def isDeclarable (p : Parameter) : Bool :=
  match p.schema with
  | .dict _ => true
  | _ => false

/-- The reference to the parameter in arguments. -/
def reference (p : Parameter) : Value := .object [("from_parameter", p.name)]

/-- The entries of the declaration. -/
def declaration (p : Parameter) : Value.Entries :=
  [(.str "name", p.name), (.str "schema", p.schema), (.str "description", p.description)] ++
    match p.default? with
    | some v => [(.str "optional", .bool true), (.str "default", v)]
    | none => []

end Parameter

end ProcessGraph
