import ProcessGraph.Graph.Document
import ProcessGraph.Session.Answer
import ProcessGraph.Session.Script

/-!
# Running scripts

Runs the steps of a script one after the other. A step that fails does not end the script, but it
ends the callback or the atomic steps that it stands in.
-/

set_option autoImplicit false

namespace ProcessGraph.Session

/-- The names of a script, the functions that it has made, and what has happened in a step. -/
structure Host where
  bindings : Dictionary String Value := []
  scripts : Array Script := #[]
  trace : List Event := []
deriving Inhabited

/-- What the steps of a script are. -/
abbrev Step.Run := ProcessGraph.Run Host

/-! ## Names -/

def setVariable (name : String) (v : Value) : Step.Run Unit :=
  Run.changeHost fun h => { h with bindings := Dictionary.insert name v h.bindings }

def setVariables : List String → List Value → Step.Run Unit
  | name :: names, v :: vs => do
    setVariable name v
    setVariables names vs
  | _, _ => return

def variableNamed (name : String) : Step.Run Value := do
  match Dictionary.get? name (← Run.host).bindings with
  | some v => return v
  | none => throw .missingName

/-- The failure of asking an object for an operation that it does not have. Builders say which. -/
def lacking (operation : String) : Value → Failure
  | .builder _ => .unknownAttribute operation
  | _ => .noOperation

def builderNamed (name : String) (operation : String) : Step.Run BuilderRef := do
  match ← variableNamed name with
  | .builder b => return b
  | v => throw (lacking operation v)

def catalogNamed (name : String) (operation : String) : Step.Run CatalogRef := do
  match ← variableNamed name with
  | .catalog c => return c
  | v => throw (lacking operation v)

def nodeNamed (name : String) (operation : String) : Step.Run NodeRef := do
  match ← variableNamed name with
  | .node n => return n
  | v => throw (lacking operation v)

def parameterNamed (name : String) (operation : String) : Step.Run ParameterRef := do
  match ← variableNamed name with
  | .parameter p => return p
  | v => throw (lacking operation v)

def formulaNamed (name : String) (operation : String) : Step.Run FormulaRef := do
  match ← variableNamed name with
  | .formula f => return f
  | v => throw (lacking operation v)

def accessNamed (name : String) (operation : String) : Step.Run AccessRef := do
  match ← variableNamed name with
  | .access a => return a
  | v => throw (lacking operation v)

/-- The callback parameter under a name, where only callback parameters have elements. -/
def subscriptedNamed (name : String) : Step.Run AccessRef := do
  match ← variableNamed name with
  | .access a => return a
  | _ => throw .wrongType

/-! ## Values -/

/-- A parameter with the given fields. -/
def makeParameter (fields : Dictionary String Value) : Build ParameterRef := do
  let known := ["name", "schema", "description", "default"]
  match Dictionary.get? "name" fields with
  | some name =>
    if fields.keys.all known.contains then
      let p ← Build.ofExcept (Parameter.make name (Dictionary.get? "schema" fields)
        (Dictionary.get? "description" fields) (Dictionary.get? "default" fields))
      Build.newParameter p
    else throw .wrongType
  | none => throw .wrongType

/-- A function for a script. -/
def makeCallback (s : Script) : Step.Run Callback := do
  let handle := (← Run.host).scripts.size
  Run.changeHost fun h => { h with scripts := h.scripts.push s }
  return ⟨handle, s.required.length, s.rest.isSome⟩

mutual

/-- The value of an expression; its parts are evaluated from left to right. -/
def eval : Expr → Step.Run Value
  | .scalar s => return s.toValue
  | .list es => return .list (← evalAll es)
  | .tuple es => return .tuple (← evalAll es)
  | .dict d => return .dict ((← evalFields d).map fun p => (.str p.1, p.2))
  | .variable name => variableNamed name
  | .parameter fields => do
    let fields ← evalFields fields
    return .parameter (← makeParameter fields)
  | .formula text => return .formula (← Build.createFormula text)
  | .callback s => return .callback (← makeCallback s)

def evalAll : List Expr → Step.Run (List Value)
  | [] => return []
  | e :: es => do
    let v ← eval e
    let vs ← evalAll es
    return v :: vs

def evalFields : List (String × Expr) → Step.Run (List (String × Value))
  | [] => return []
  | (name, e) :: d => do
    let v ← eval e
    let vs ← evalFields d
    return (name, v) :: vs

end

/-! ## Actions -/

def text (v : Value) : Outcome := ⟨v, .text⟩

def done (v : Value) : Outcome := ⟨v, .plain⟩

def names (ss : List String) : Value := .list (ss.map .str)

def optionalName : Option String → Value
  | some s => .str s
  | none => .null

/-- What a builder's settings say. -/
def settingsValue (s : Settings) : Value :=
  .object [("id_stem_length", .int s.idStemLength),
    ("strict_array_access", .bool s.strictArrayAccess),
    ("array_element_process", .str s.arrayElementProcess),
    ("array_create_process", .str s.arrayCreateProcess)]

/-- The entry `name` of each declared parameter. -/
def parameterNames : Value → Except Failure Value
  | .null => .ok .null
  | v => do
    let items ← v.items
    let names ← items.mapM (Value.entry "name")
    return .list names

/-- The declaration that a value stands for. -/
def declarationOf (ws : Workspace) : Value → Except Failure Value.Entries
  | .parameter p => .ok (ws.parameter p).declaration
  | .dict d => .ok d
  | v => .error (lacking "get" v)

def createBuilder (processes : Expr) (id : Value) (settings : SettingsSource)
    (parent : Option String) : Step.Run BuilderRef := do
  let processes ← eval processes
  let parent ← match parent with
    | some name => (return some (← builderNamed name "config") : Step.Run _)
    | none => pure none
  match settings with
  | .given g => Build.createBuilder processes id (some (Settings.standardWith g)) parent []
  | .environment env => Build.createBuilder processes id none parent env
  | .parent => Build.createBuilder processes id none parent []

/-- What a parameter says about itself. -/
def parameterInfo (p : Parameter) : Value :=
  .object [("name", p.name), ("schema", p.schema), ("description", p.description),
    ("optional", .bool p.isOptional), ("declarable", .bool p.isDeclarable), ("ref", p.reference),
    ("json", .dict p.declaration)]

/-- What a node says about itself. -/
def nodeInfo (ws : Workspace) (r : NodeRef) : Value :=
  let n := ws.node r
  .object [("id", .str n.id), ("process_id", .str n.process), ("namespace", optionalName n.space),
    ("result", n.result), ("description", n.description),
    ("arguments", ws.shownText (.dict n.arguments)),
    ("ref", .object [("from_node", .str n.id)])]

/-- Where a builder stands. -/
def hierarchyInfo (b : Builder) : Value :=
  .object [("parent", (b.parent.map Value.builder).getD .null),
    ("node", (b.parentNode.map Value.node).getD .null),
    ("parameter", b.parentParameter.toValue), ("config", settingsValue b.settings)]

/-! ## Operations of builders -/

/-- The arguments of an operation with the values that they have if they are not given, for the
operations that builders have by themselves and that scripts may call like processes. -/
def ownArguments : String → Option (List (String × Option Value))
  | "math" => some [("formula", none)]
  | "invoke" | "process" =>
    some [("process_id", none), ("args", some .null), ("description", some .null),
      ("namespace", some .null)]
  | "spec" | "supports" => some [("process_id", none), ("namespace", some .null)]
  | "generate_id" => some [("prefix", some (.str ""))]
  | "create_callback_parameter" => some [("name", none)]
  | "get_parent_callback_parameters" => some []
  | _ => none

/-- The values of all arguments, given by position or by name; each at most once. -/
def bindOwn : List (String × Option Value) → List Value → List (String × Value) →
    Option (List Value)
  | [], [], [] => some []
  | [], _, _ => none
  | (name, _) :: more, v :: vs, named =>
    if named.any fun p => p.1 = name then none else (bindOwn more vs named).map (v :: ·)
  | (name, standard) :: more, [], named =>
    match (Dictionary.get? name named).orElse fun _ => standard with
    | some v => (bindOwn more [] (named.filter fun p => p.1 ≠ name)).map (v :: ·)
    | none => none

/-- A namespace, or null for none. -/
def spaceOf : Value → Option (Option String)
  | .null => some none
  | .str s => some (some s)
  | _ => none

/-- Calls an operation that builders have by themselves. -/
def callOwn (b : BuilderRef) (name : String) (arguments : List Value)
    (named : List (String × Value)) : Step.Run Outcome := do
  match name, (ownArguments name).bind fun all => bindOwn all arguments named with
  | "math", some [.str formula] => return done (.node (← Build.math b formula))
  | "invoke", some [.str id, args, description, space]
  | "process", some [.str id, args, description, space] =>
    match spaceOf space with
    | some space => return done (.node (← Build.invoke b id args description space))
    | none => throw .wrongType
  | "spec", some [.str id, space] =>
    match spaceOf space with
    | some space =>
      let spec := ((← Run.workspace).catalogOf b).get? id space
      return done ((spec.map Value.dict).getD .null)
    | none => throw .wrongType
  | "supports", some [.str id, space] =>
    match spaceOf space with
    | some space => return done (.bool (((← Run.workspace).catalogOf b).has id space))
    | none => throw .wrongType
  | "generate_id", some [.str s] => return done (.str (← Build.generateId b s))
  | "create_callback_parameter", some [name] =>
    return done (.access (← Build.callbackParameter b name))
  | "get_parent_callback_parameters", some [] =>
    return done (.list ((← Build.parentParameters b).map Value.access))
  | _, _ => throw .wrongType

/-! ## Doing actions -/

/-- Does one action. -/
def perform (documents : Documents Host) : Action → Step.Run Outcome
  | .builder processes id settings parent =>
    return done (.builder (← createBuilder processes id settings parent))
  | .registry processes => do
    let processes ← match processes with
      | some e => eval e
      | none => pure .null
    let (result, records) := Catalog.ofValue processes
    Build.change fun ws => ws.addRecords records
    return done (.catalog (← Build.newCatalog (← Build.ofExcept result)))
  | .registryAdd on spec space => do
    let c ← catalogNamed on "add"
    let spec ← eval spec
    let (catalog, records) ← Build.ofExcept (((← Run.workspace).catalog c).add spec space)
    Build.change fun ws => (ws.modifyCatalog c fun _ => catalog).addRecords records
    return .none
  | .registryGet on id space => do
    let c ← catalogNamed on "get"
    match ((← Run.workspace).catalog c).get? id space with
    | some spec => return text (.dict spec)
    | none => return text .null
  | .registryAll on space => do
    let c ← catalogNamed on "all"
    return text (.list ((((← Run.workspace).catalog c).all space).map .dict))
  | .registryHas on id space => do
    let c ← catalogNamed on "has"
    return done (.bool (((← Run.workspace).catalog c).has id space))
  | .registryContains on id => do
    let c ← catalogNamed on "has"
    return done (.bool (((← Run.workspace).catalog c).has id none))
  | .registryState on => do
    let catalog := (← Run.workspace).catalog (← catalogNamed on "all")
    return done (.object [("len", .int catalog.length),
      ("ids", .list (catalog.toList.map (Value.field "id"))),
      ("namespaces", .list (catalog.spaces.map optionalName))])
  | .invoke on id arguments description space => do
    let b ← builderNamed on "invoke"
    let arguments ← match arguments with
      | some e => eval e
      | none => pure .null
    return done (.node (← Build.invoke b id arguments description space))
  | .call on id arguments named => do
    let b ← builderNamed on id
    let found ← Build.ofExcept ((← Run.workspace).findAttribute b id)
    let arguments ← evalAll arguments
    let named ← evalFields named
    match found with
    | .shortcut process spec =>
      let named := named.map fun p => (Scalar.str p.1, p.2)
      return done (.node (← Build.callShortcut b process spec arguments named))
    | .own name => callOwn b name arguments named
  | .shortcut on id => do
    let b ← builderNamed on id
    match ← Build.ofExcept ((← Run.workspace).findAttribute b id) with
    | .shortcut process spec => return done (.list [.str process, spec.documentation])
    | .own _ => throw .noOperation
  | .hasShortcut on id => do
    let b ← builderNamed on id
    return done (.bool ((← Run.workspace).hasAttribute b id))
  | .shortcutNames on => do
    let b ← builderNamed on "processes"
    return done (names (((← Run.workspace).catalogOf b).predefinedIds.mergeSort))
  | .math on formula => do
    let b ← builderNamed on "math"
    return done (.node (← Build.math b formula))
  | .compile on formula asResult => do
    let b ← builderNamed on "atomic"
    return done (.node (← Build.compile b formula asResult))
  | .formula formula => return done (.formula (← Build.createFormula formula))
  | .generate formula on asResult => do
    let f ← formulaNamed formula "generate"
    match on with
    | some on => Build.setFormulaBuilder f (← builderNamed on "atomic")
    | none => pure ()
    return done (.node (← Build.generate f asResult))
  | .tree on tree => do
    let b ← builderNamed on "invoke"
    return ⟨← Build.lower b tree, .marked⟩
  | .operator on op left right => do
    let b ← builderNamed on "spec"
    let left ← eval left
    let right ← eval right
    return done (.node (← Build.addOperator b op left right))
  | .resolve on name => do
    let b ← builderNamed on "nodes"
    return ⟨← Build.resolve b name, .marked⟩
  | .parameter fields => do
    let fields ← evalFields fields
    return done (.parameter (← makeParameter fields))
  | .parameterInfo object => do
    let p ← parameterNamed object "schema"
    return text (parameterInfo ((← Run.workspace).parameter p))
  | .parameterDefault object => do
    let p := (← Run.workspace).parameter (← parameterNamed object "default")
    match p.default? with
    | some v => return text v
    | none => throw (.noDefault ((← Run.workspace).display p.name))
  | .literal object => do
    let v ← variableNamed object
    return done (.str ((← Run.workspace).literal v))
  | .addParameter on parameter onRoot => do
    let b ← builderNamed on "add_parameter"
    let v ← eval parameter
    let declaration ← Build.ofExcept (declarationOf (← Run.workspace) v)
    Build.addParameter b declaration onRoot
    return .none
  | .parameters on => do
    let b ← builderNamed on "parameters"
    return text ((← Run.workspace).builder b).metadata.parameters
  | .generateId on name => do
    let b ← builderNamed on "generate_id"
    return done (.str (← Build.generateId b name))
  | .addSpecification on spec space => do
    let b ← builderNamed on "add_process_spec"
    let spec ← eval spec
    Build.addSpecification b spec space
    return .none
  | .specification on id space => do
    let b ← builderNamed on "spec"
    match ((← Run.workspace).catalogOf b).get? id space with
    | some spec => return text (.dict spec)
    | none => return text .null
  | .supports on id space => do
    let b ← builderNamed on "supports"
    return done (.bool (((← Run.workspace).catalogOf b).has id space))
  | .state on => do
    let b ← builderNamed on "nodes"
    let builder := (← Run.workspace).builder b
    let parameters ← Build.ofExcept (parameterNames builder.metadata.parameters)
    return done (.object [("nodes", names builder.nodes.keys), ("parameters", parameters)])
  | .node object => do
    let n ← nodeNamed object "process_id"
    return done (nodeInfo (← Run.workspace) n)
  | .nodeWithId on id => do
    let b ← builderNamed on "nodes"
    match Dictionary.get? id ((← Run.workspace).builder b).nodes with
    | some n => return done (.node n)
    | none => throw .missingName
  | .setDescription object description => do
    let n ← nodeNamed object "set_description"
    Build.setDescription n description
    return done (.node n)
  | .setResult object result => do
    match ← variableNamed object with
    | .node n => Build.setResult n result
    | _ => pure ()
    return .none
  | .callbackNames object argument => do
    let n ← nodeNamed object "callback_parameter_names"
    return done (.list (← Build.callbackNames n (.str argument)))
  | .callbackBuilder object argument => do
    let n ← nodeNamed object "callback_builder"
    match Dictionary.get? (.str argument) ((← Run.workspace).node n).callbackBuilders with
    | some b => return done (.builder b)
    | none => return .none
  | .register process registered => do
    let registered := match registered with
      | .fixed names => CallbackNames.fixed names
      | .ifTrue argument names otherwise => .ifTrue argument names otherwise
    Build.change fun ws =>
      { ws with callbackNames := Dictionary.insert process registered ws.callbackNames }
    return .none
  | .child on node argument => do
    let b ← builderNamed on "create_child"
    let n ← nodeNamed node "callback_parameter_names"
    return done (.builder (← Build.createChild b n (.str argument)))
  | .setParent on node argument => do
    let b ← builderNamed on "set_parent"
    let n ← nodeNamed node "callback_parameter_names"
    Build.setParent b n (.str argument)
    return .none
  | .callbackParameter on name => do
    let b ← builderNamed on "create_callback_parameter"
    return done (.access (← Build.callbackParameter b name))
  | .parentParameters on => do
    let b ← builderNamed on "get_parent_callback_parameters"
    let accesses ← Build.parentParameters b
    let ws ← Run.workspace
    return done (.list (accesses.map fun a => (ws.accessParameter a).name))
  | .element object key => do
    let a ← accessNamed object "element"
    let key ← eval key
    return done (.node (← Build.elementAt a key))
  | .item object key => do
    let a ← subscriptedNamed object
    let key ← eval key
    return done (.node (← Build.elementAt a key))
  | .setItem object key value => do
    let a ← subscriptedNamed object
    let key ← eval key
    let _ ← eval value
    Build.writeElement a key
    return .none
  | .deleteItem object key => do
    let a ← subscriptedNamed object
    let key ← eval key
    Build.writeElement a key
    return .none
  | .iterate object => do
    let a ← subscriptedNamed object
    let ws ← Run.workspace
    throw (.notIterable (ws.display (ws.accessParameter a).name))
  | .same first second => do
    let v ← variableNamed first
    let w ← variableNamed second
    return done (.bool (v.same w))
  | .root on => do
    let b ← builderNamed on "root"
    return done (.builder ((← Run.workspace).root b))
  | .hierarchy on => do
    let b ← builderNamed on "parent"
    let ws ← Run.workspace
    return done (ws.shown (hierarchyInfo (ws.builder b)))
  | .setMetadata on field value => do
    let b ← builderNamed on field
    let v ← eval value
    Build.setMetadata b field v
    return .none
  | .getMetadata on field => do
    let b ← builderNamed on field
    match ((← Run.workspace).builder b).metadata.get? field with
    | some v => return text v
    | none => throw (.unknownAttribute field)
  | .document object => do
    match ← variableNamed object with
    | .builder b => return text (← documents.builder b)
    | .node n => return text (← documents.node n)
    | .parameter p => return text (.dict ((← Run.workspace).parameter p).declaration)
    | _ => throw .noOperation

/-! ## Steps -/

/-- Does an action, stores its result under a name if one is given, and shows it. -/
def performNamed (documents : Documents Host) (name : Option String) (action : Action) :
    Step.Run Value := do
  let outcome ← perform documents action
  match name with
  | some name => setVariable name outcome.value
  | none => pure ()
  return outcome.shown (← Run.workspace)

def addEvent (e : Event) : Step.Run Unit :=
  Run.changeHost fun h => { h with trace := h.trace ++ [e] }

/-- Does something and adds what came of it to the trace. -/
def traced (body : Step.Run Value) : Step.Run Unit :=
  tryCatch (do addEvent (.done (← body))) fun e => do
    addEvent (.failed e)
    throw e

mutual

/-- Does one step and shows its result. -/
def runStep (documents : Documents Host) : Step → Step.Run Value
  | .act name action => performNamed documents name action
  | .atomic name on steps => do
    let b ← builderNamed on "atomic"
    Run.atomically b (runSteps documents steps)
    match name with
    | some name => setVariable name .null
    | none => pure ()
    return .null

/-- Does steps up to the first that fails, and adds their results to the trace. -/
def runSteps (documents : Documents Host) : List Step → Step.Run Unit
  | [] => return
  | s :: ss => do
    traced (runStep documents s)
    runSteps documents ss

end

/-- Calls a function of a script. -/
def callScript (documents : Documents Host) (f : Callback) (arguments : List Value) :
    Step.Run Value := do
  let script := ((← Run.host).scripts[f.handle]?).getD default
  let required := script.required
  if arguments.length < required.length then throw .wrongType
  addEvent (.call (arguments.map (← Run.workspace).shown))
  setVariables required arguments
  match script.rest with
  | some rest =>
    let more := arguments.drop required.length
    setVariables ((List.range more.length).map fun i => rest ++ toString i) more
  | none => pure ()
  runSteps documents script.steps
  eval script.result

/-- How deeply callbacks may be nested. -/
def maxDepth : Nat := 1000

/-- The documents of a session. -/
def documents : Documents Host := Documents.within callScript maxDepth

/-! ## Sessions -/

/-- Does a step on its own, and answers with what happened in it. -/
def answerStep (w : World Host) (s : Step) : Answer × World Host :=
  let w := { w with workspace.log := [], workspace.warnings := [], host.trace := [] }
  let (result, w) := (runStep documents s).run w
  (⟨result, w.host.trace, w.workspace.warnings, w.workspace.log⟩, w)

/-- Does steps one after the other. -/
def answerSteps (w : World Host) : List Step → List Answer
  | [] => []
  | s :: ss =>
    let (a, w) := answerStep w s
    a :: answerSteps w ss

/-- Runs a session: the first action, if there is one, must not fail. -/
def run (setup : Option Step) (steps : List Step) : Except Failure (List Answer) :=
  let w : World Host := ⟨{}, {}⟩
  match setup with
  | none => .ok (answerSteps w steps)
  | some s =>
    match answerStep w s with
    | (⟨.ok _, _, _, _⟩, w) => .ok (answerSteps w steps)
    | (⟨.error e, _, _, _⟩, _) => .error e

end ProcessGraph.Session
