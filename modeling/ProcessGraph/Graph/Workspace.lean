import ProcessGraph.Catalog.Basic
import ProcessGraph.Formula.Tree
import ProcessGraph.Graph.Arena
import ProcessGraph.Graph.ElementKey
import ProcessGraph.Graph.Parameter
import ProcessGraph.Settings

/-!
# Workspaces

A workspace holds everything that is shared and changed while process graphs are built: catalogs,
builders, nodes, parameters, formulas. References are indices into it, so that two references are
the same object exactly when they are equal.

A builder makes one process graph. The builder of a callback argument has a parent, the builder of
the node with that argument; the outermost builder is the root.
-/

set_option autoImplicit false

namespace ProcessGraph

/-- What is said about a process next to its graph; null if nothing is. -/
structure Metadata where
  id : Value := .null
  summary : Value := .null
  description : Value := .null
  categories : Value := .null
  parameters : Value := .null
  returns : Value := .null
  deprecated : Value := .null
  experimental : Value := .null
  exceptions : Value := .null
  examples : Value := .null
  links : Value := .null
deriving Inhabited

namespace Metadata

/-- The fields in the order in which documents have them. -/
def fields (m : Metadata) : List (String × Value) :=
  [("id", m.id), ("summary", m.summary), ("description", m.description),
   ("categories", m.categories), ("parameters", m.parameters), ("returns", m.returns),
   ("deprecated", m.deprecated), ("experimental", m.experimental), ("exceptions", m.exceptions),
   ("examples", m.examples), ("links", m.links)]

def get? (name : String) (m : Metadata) : Option Value := Dictionary.get? name m.fields

/-- Changes a field. -/
def set (name : String) (v : Value) (m : Metadata) : Metadata :=
  match name with
  | "id" => { m with id := v }
  | "summary" => { m with summary := v }
  | "description" => { m with description := v }
  | "categories" => { m with categories := v }
  | "parameters" => { m with parameters := v }
  | "returns" => { m with returns := v }
  | "deprecated" => { m with deprecated := v }
  | "experimental" => { m with experimental := v }
  | "exceptions" => { m with exceptions := v }
  | "examples" => { m with examples := v }
  | "links" => { m with links := v }
  | _ => m

end Metadata

/-- The call of a process, which is also the result of that call. -/
structure Node where
  builder : BuilderRef
  specification : Specification
  process : String
  space : Option String
  arguments : Value.Entries
  id : String
  /-- Does the node compute the result of the process? -/
  result : Value := .bool false
  description : Value := .null
  /-- The builders of the callback arguments, as of the last time they were lowered. -/
  callbackBuilders : Dictionary Scalar BuilderRef := []
deriving Inhabited

structure Builder where
  catalog : CatalogRef
  settings : Settings
  parent : Option BuilderRef := none
  /-- The node whose callback argument is built here. -/
  parentNode : Option NodeRef := none
  /-- The name of that argument, or null. -/
  parentParameter : Scalar := .null
  /-- The nodes by id, in the order of their creation. -/
  nodes : Dictionary String NodeRef := []
  /-- The numbers used up so far, by stem. -/
  counters : Dictionary String Nat := []
  /-- The callback parameters made so far. -/
  callbackParameters : Dictionary Scalar AccessRef := []
  metadata : Metadata := {}
deriving Inhabited

/-- A callback parameter whose elements are accessed in a builder. -/
structure ArrayAccess where
  parameter : ParameterRef
  builder : BuilderRef
  /-- The element nodes made so far. -/
  elements : Dictionary ElementKey NodeRef := []
deriving Inhabited

/-- A formula as a value: its nodes are generated in the builder that it is set to. -/
structure Formula where
  text : String
  tree : Formula.Tree
  builder : Option BuilderRef := none
deriving Inhabited

/-- The names of the parameters that a process passes to its callbacks. They are fixed, or depend on
one argument; functions that compute them from the node in any other way, and may fail, are left
out. -/
inductive CallbackNames where
  | fixed (names : List Value)
  /-- The names depend on whether an argument is exactly true. -/
  | ifTrue (argument : String) (names otherwise : List Value)
deriving Inhabited

/-- The processes whose specifications need not name the parameters of their callbacks. -/
def standardCallbackNames : Dictionary String CallbackNames :=
  let value := CallbackNames.fixed [.str "value"]
  let data := CallbackNames.fixed [.str "data"]
  [("filter_labels", value), ("array_filter", value), ("aggregate_polygon", data),
   ("aggregate_spatial", data), ("aggregate_spatial_window", data), ("aggregate_temporal", data),
   ("aggregate_temporal_period", data),
   ("reduce", .ifTrue "binary" [.str "x", .str "y"] [.str "data"]),
   ("reduce_dimension", data), ("apply_dimension", data), ("apply", .fixed [.str "x"])]

structure Workspace where
  catalogs : Arena Catalog := .empty
  builders : Arena Builder := .empty
  nodes : Arena Node := .empty
  parameters : Arena Parameter := .empty
  accesses : Arena ArrayAccess := .empty
  formulas : Arena Formula := .empty
  callbackNames : Dictionary String CallbackNames := standardCallbackNames
  /-- The records that were logged. -/
  log : List Log.Record := []
  /-- The warnings about writes to array elements. -/
  warnings : List String := []
deriving Inhabited

namespace Workspace

variable (ws : Workspace)

def catalog (r : CatalogRef) : Catalog := ws.catalogs.get r.index
def builder (r : BuilderRef) : Builder := ws.builders.get r.index
def node (r : NodeRef) : Node := ws.nodes.get r.index
def parameter (r : ParameterRef) : Parameter := ws.parameters.get r.index
def access (r : AccessRef) : ArrayAccess := ws.accesses.get r.index
def formula (r : FormulaRef) : Formula := ws.formulas.get r.index

/-- The catalog of a builder. -/
def catalogOf (b : BuilderRef) : Catalog := ws.catalog (ws.builder b).catalog

/-- The parameter behind a callback parameter. -/
def accessParameter (a : AccessRef) : Parameter := ws.parameter (ws.access a).parameter

/-- The outermost of at most `n` builders above `b`. -/
def rootWithin : Nat → BuilderRef → BuilderRef
  | 0, b => b
  | n + 1, b =>
    match (ws.builder b).parent with
    | some p => rootWithin n p
    | none => b

/-- The outermost builder. Parents are older than their children, so there are fewer of them than
builders. -/
def root (b : BuilderRef) : BuilderRef := ws.rootWithin ws.builders.size b

def modifyBuilder (r : BuilderRef) (f : Builder → Builder) : Workspace :=
  { ws with builders := ws.builders.modify r.index f }

def modifyNode (r : NodeRef) (f : Node → Node) : Workspace :=
  { ws with nodes := ws.nodes.modify r.index f }

def modifyAccess (r : AccessRef) (f : ArrayAccess → ArrayAccess) : Workspace :=
  { ws with accesses := ws.accesses.modify r.index f }

def modifyFormula (r : FormulaRef) (f : Formula → Formula) : Workspace :=
  { ws with formulas := ws.formulas.modify r.index f }

def modifyCatalog (r : CatalogRef) (f : Catalog → Catalog) : Workspace :=
  { ws with catalogs := ws.catalogs.modify r.index f }

def addRecord (r : Log.Record) : Workspace := { ws with log := ws.log ++ [r] }

def addRecords (rs : List Log.Record) : Workspace := { ws with log := ws.log ++ rs }

/-! ## Names of objects -/

/-- How messages name the objects of the workspace, one level deep: the objects of a list in the
id of a builder are not spelled out. -/
def objectName : Value → String
  | .node r =>
    "ProcessNode(" ++ Text.quoted (ws.node r).id ++ ", process_id=" ++
      Text.quoted (ws.node r).process ++ ")"
  | .parameter r => "ParameterRef(" ++ (ws.parameter r).name.literal Value.typeName ++ ")"
  | .access r => "ArrayAccessProxy(" ++ (ws.accessParameter r).name.literal Value.typeName ++ ")"
  | .builder r =>
    "GraphBuilder(id=" ++ (ws.builder r).metadata.id.literal Value.typeName ++ ", nodes=" ++
      Value.literal Value.typeName (.list ((ws.builder r).nodes.keys.map Value.str)) ++ ")"
  | .formula r => "Formula(" ++ Text.quoted (ws.formula r).text ++ ")"
  | v => v.typeName

/-- The text of a value in the middle of a message. -/
def display (v : Value) : String := v.display ws.objectName

/-- The literal text of a value. -/
def literal (v : Value) : String := v.literal ws.objectName

/-- How messages call the process that a builder makes. -/
def processName (b : BuilderRef) : String :=
  let id := (ws.builder b).metadata.id
  if id.isTruthy then ws.display id else "<anonymous>"

end Workspace

end ProcessGraph
