import ProcessGraph.Graph.Invocation

/-!
# Shortcuts

A predefined process can be called like a method of the builder, with arguments by position and by
name. The attributes of builders themselves hide processes of the same name.
-/

set_option autoImplicit false

namespace ProcessGraph

/-- The attributes of builders that hold values. -/
def builderValues : List String :=
  ["processes", "parent", "parent_node", "parent_parameter", "config", "id", "summary",
   "description", "categories", "parameters", "returns", "deprecated", "experimental",
   "exceptions", "examples", "links", "root", "nodes", "_nodes", "_id_counter",
   "_callback_parameter_cache"]

/-- The operations of builders. -/
def builderOperations : List String :=
  ["add_process_spec", "spec", "supports", "set_parent", "create_child",
   "create_callback_parameter", "get_parent_callback_parameters", "add_parameter", "generate_id",
   "atomic", "invoke", "process", "math", "to_json", "_shortcut"]

/-- The attributes that all objects have. -/
def commonAttributes : List String :=
  ["__class__", "__delattr__", "__dict__", "__dir__", "__doc__", "__eq__", "__format__", "__ge__",
   "__getattr__", "__getattribute__", "__getstate__", "__gt__", "__hash__", "__init__",
   "__init_subclass__", "__le__", "__lt__", "__module__", "__ne__", "__new__", "__reduce__",
   "__reduce_ex__", "__repr__", "__setattr__", "__sizeof__", "__str__", "__subclasshook__",
   "__weakref__"]

/-- The attributes of the kind of builders, which are not attributes of builders. -/
def kindAttributes : List String :=
  ["mro", "__annotations__", "__base__", "__bases__", "__basicsize__", "__call__",
   "__dictoffset__", "__flags__", "__instancecheck__", "__itemsize__", "__mro__", "__name__",
   "__or__", "__prepare__", "__qualname__", "__ror__", "__subclasscheck__", "__subclasses__",
   "__text_signature__", "__weakrefoffset__"]

/-- Is the name an attribute that builders have by themselves? -/
def isBuilderAttribute (name : String) : Bool :=
  builderValues.contains name || builderOperations.contains name || commonAttributes.contains name

/-- Does an attribute hide the process of the same name? -/
def hidesProcess (name : String) : Bool :=
  isBuilderAttribute name || kindAttributes.contains name

/-- What an attribute of a builder is. -/
inductive Attribute where
  /-- An attribute that all builders have. -/
  | own (name : String)
  /-- The shortcut for a predefined process. -/
  | shortcut (process : String) (specification : Specification)

namespace Workspace

/-- The attribute of a builder with the given name. -/
def findAttribute (ws : Workspace) (b : BuilderRef) (name : String) : Except Failure Attribute :=
  if isBuilderAttribute name then .ok (.own name)
  else if name.toList.head? = some '_' then .error (.hiddenAttribute name)
  else
    match (ws.catalogOf b).get? name none with
    | some specification => .ok (.shortcut name specification)
    | none => .error (.unknownAttribute name)

/-- Has the builder an attribute with the given name? -/
def hasAttribute (ws : Workspace) (b : BuilderRef) (name : String) : Bool :=
  match ws.findAttribute b name with
  | .ok _ => true
  | .error _ => false

end Workspace

/-- The documentation of a shortcut. -/
def Specification.documentation (spec : Specification) : Value :=
  let summary := Value.field "summary" spec
  if summary.isTruthy then summary else Value.field "description" spec

namespace Build

/-- Calls a process by its shortcut. Arguments by name replace those by position; the names are
texts. -/
def callShortcut (b : BuilderRef) (process : String) (specification : Specification)
    (arguments : List Value) (named : Value.Entries) : Build NodeRef := do
  if named = [] then invoke b process (.list arguments)
  else
    let entries ← ofExcept (specification.bind arguments)
    invoke b process (.dict (Dictionary.insertAll entries named))

/-- Adds a specification to the catalog of a builder. -/
def addSpecification (b : BuilderRef) (spec : Value) (space : Option String) : Build Unit := do
  let ws ← get
  let (catalog, records) ← ofExcept ((ws.catalogOf b).add spec space)
  change fun ws => (ws.modifyCatalog (ws.builder b).catalog fun _ => catalog).addRecords records
  match Catalog.checkedId spec with
  | .ok (id, _) =>
    if space = none ∧ hidesProcess id then
      log (.warning Log.builderLogger ("Process '" ++ id ++
        "' is shadowed by a builder attribute, use invoke('" ++ id ++ "', ...) instead"))
  | .error _ => return

/-- Creates a builder for a catalog, which is shared if it is one already. Without settings the
builder takes those of its parent, or those of the environment. -/
def createBuilder (processes : Value) (id : Value) (settings : Option Settings)
    (parent : Option BuilderRef) (env : Environment) : Build BuilderRef := do
  let catalog ← match processes with
    | .catalog r => pure r
    | v =>
      let (result, records) := Catalog.ofValue v
      change fun ws => ws.addRecords records
      newCatalog (← ofExcept result)
  let ws ← get
  if (ws.catalog catalog).length = 0 then throw .emptyCatalog
  let settings ← match settings, parent with
    | some s, _ => pure s
    | none, some p => pure (ws.builder p).settings
    | none, none => ofExcept (Settings.ofEnvironment env)
  newBuilder { catalog, settings, parent, metadata.id := id }

/-- Creates the builder of a callback argument. -/
def createChild (b : BuilderRef) (n : NodeRef) (argument : Scalar) : Build BuilderRef := do
  let builder := (← get).builder b
  newBuilder
    { catalog := builder.catalog
      settings := builder.settings
      parent := some b
      parentNode := some n
      parentParameter := argument }

/-- Sets the node and the argument that a builder makes the process for. -/
def setParent (b : BuilderRef) (n : NodeRef) (argument : Scalar) : Build Unit :=
  change fun ws => ws.modifyBuilder b fun builder =>
    { builder with parentNode := some n, parentParameter := argument }

/-- Sets what the metadata of a builder say under a name. -/
def setMetadata (b : BuilderRef) (name : String) (v : Value) : Build Unit :=
  change fun ws => ws.modifyBuilder b fun builder =>
    { builder with metadata := builder.metadata.set name v }

end Build

end ProcessGraph
