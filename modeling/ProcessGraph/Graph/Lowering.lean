import ProcessGraph.Formula.Parser
import ProcessGraph.Graph.Element

/-!
# Lowering formulas

A formula becomes nodes of a builder, operands first, from left to right. Operators are processes
of the catalog whose first two parameters take the operands. Identifiers are literals, nodes
(`#id`), elements of callback parameters (one dollar for each parameter, then the key), or
parameters.
-/

set_option autoImplicit false

namespace ProcessGraph

/-- The processes behind the operators. -/
def operatorProcesses : Dictionary String String :=
  [("-", "subtract"), ("+", "add"), ("/", "divide"), ("*", "multiply"), ("^", "power")]

/-- The names that stand for values. -/
def literals : Dictionary String Value :=
  [("true", .bool true), ("false", .bool false), ("null", .null)]

/-- How an identifier is meant, by the way it is written. -/
inductive Reference where
  | literal (v : Value)
  | node (id : String)
  /-- An element of the callback parameter with the given number, counted from one. -/
  | element (depth : Nat) (key : String)
  | parameter (name : String)

/-- Reads an identifier in a builder with a number of callback parameters. -/
def Reference.ofName (name : String) (available : Nat) : Reference :=
  match Dictionary.get? name literals with
  | some v => .literal v
  | none =>
    match name.toList with
    | '#' :: id => .node (String.ofList id)
    | '$' :: cs =>
      let depth := 1 + (cs.takeWhile (· = '$')).length
      if depth ≤ available then .element depth (String.ofList (cs.dropWhile (· = '$')))
      else .parameter name
    | _ => .parameter name

/-- The name of an operator parameter, or another name if it has none. -/
def operandName (standIn : String) (parameter : Value) : Except Failure Value := do
  let name ← parameter.entry "name"
  return if name.isTruthy then name else .str standIn

/-- The arguments of an operator. If both parameters have one name, the right operand counts. -/
def operatorArguments (op : String) (spec : Specification) (left right : Value) :
    Except Failure Value.Entries :=
  match Value.field "parameters" spec with
  | .list (first :: second :: _) => do
    let x ← operandName "x" first
    let y ← operandName "y" second
    match x.key?, y.key? with
    | some x, some y => return Dictionary.ofEntries (Scalar.spellAlike [(x, left), (y, right)])
    | _, _ => throw .wrongType
  | _ => throw (.operatorArity op)

namespace Build

/-- Does the name start with dollars, so that it may be an element? -/
def startsWithDollar (name : String) : Bool := name.toList.head? = some '$'

/-- The value of an identifier. The callback parameters are looked at only for names that start
with a dollar. -/
def resolve (b : BuilderRef) (name : String) : Build Value := do
  let accesses ← if startsWithDollar name then parentParameters b else pure []
  match Reference.ofName name accesses.length with
  | .literal v => return v
  | .node id =>
    match Dictionary.get? id ((← get).builder b).nodes with
    | some n => return .node n
    | none => throw (.unknownNode id)
  | .element depth key =>
    if key = "" then throw (.missingElement name)
    match accesses[depth - 1]? with
    | some a => return .node (← elementAt a (.str key))
    | none => throw (.missingElement name)
  | .parameter name =>
    let parameter := Parameter.named name
    let r ← newParameter parameter
    addParameter b parameter.declaration
    return .parameter r

/-- Adds the process of an operator. -/
def addOperator (b : BuilderRef) (op : String) (left right : Value) : Build NodeRef := do
  match Dictionary.get? op operatorProcesses with
  | none => throw (.unsupportedOperator op)
  | some process =>
    match ((← get).catalogOf b).get? process none with
    | none => throw (.processNotFound process none)
    | some spec =>
      let entries ← ofExcept (operatorArguments op spec left right)
      invoke b process (.dict entries)

/-- Applies a sign. A minus negates numbers; in front of anything else it is a product with -1. -/
def applySign (b : BuilderRef) (op : String) (v : Value) : Build Value :=
  if op ≠ "-" then return v
  else
    match v with
    | .int n => return .int (-n)
    | .float x => return .float x.neg
    | v => return .node (← addOperator b "*" (.int (-1)) v)

mutual

/-- The value of a formula tree. -/
def lower (b : BuilderRef) : Formula.Tree → Build Value
  | .number value => return value.toValue
  | .identifier name => resolve b name
  | .binary op left right => do
    let left ← lower b left
    let right ← lower b right
    return .node (← addOperator b op left right)
  | .unary op operand => do
    let v ← lower b operand
    applySign b op v
  | .call name arguments => do
    let vs ← lowerAll b arguments
    return .node (← invoke b name (.list vs))
  | .group inner => lower b inner

def lowerAll (b : BuilderRef) : List Formula.Tree → Build (List Value)
  | [] => return []
  | t :: ts => do
    let v ← lower b t
    let vs ← lowerAll b ts
    return v :: vs

end

/-! ## Formulas as values -/

/-- A formula for a text, parsed at once. -/
def createFormula (text : String) : Build FormulaRef := do
  match Formula.parse text with
  | .ok tree => newFormula { text, tree }
  | .error (.malformed e) => throw (.malformedFormula e)
  | .error .oversizedInteger => throw .badText

def setFormulaBuilder (f : FormulaRef) (b : BuilderRef) : Build Unit :=
  change fun ws => ws.modifyFormula f fun formula => { formula with builder := some b }

def setResult (n : NodeRef) (v : Value) : Build Unit :=
  change fun ws => ws.modifyNode n fun node => { node with result := v }

def setDescription (n : NodeRef) (description : Value) : Build Unit :=
  change fun ws => ws.modifyNode n fun node => { node with description }

/-- Lowers a tree that must end in a node, or leaves nothing behind. -/
def lowerToNode (b : BuilderRef) (text : String) (tree : Formula.Tree) : Build NodeRef :=
  atomically b do
    match ← lower b tree with
    | .node n => return n
    | _ => throw (.formulaWithoutNode text)

/-- Generates the nodes of a formula in the builder that it is set to. -/
def generate (f : FormulaRef) (asResult : Bool) : Build NodeRef := do
  let formula := (← get).formula f
  match formula.builder with
  | none => throw .formulaWithoutBuilder
  | some b =>
    let n ← lowerToNode b formula.text formula.tree
    if asResult then setResult n (.bool true)
    log (.debug Log.formulaLogger ("Generated formula '" ++ formula.text ++ "' -> " ++
      ((← get).node n).id))
    return n

/-- Adds a formula to a builder. -/
def compile (b : BuilderRef) (text : String) (asResult : Bool) : Build NodeRef := do
  let f ← createFormula text
  setFormulaBuilder f b
  generate f asResult

/-- Adds a formula whose last node is not the result of the process. -/
def math (b : BuilderRef) (text : String) : Build NodeRef := compile b text false

end Build

end ProcessGraph
