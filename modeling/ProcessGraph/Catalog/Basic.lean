import ProcessGraph.Failure
import ProcessGraph.Log.Record

/-!
# Catalogs

A catalog holds process specifications by namespace and process id, in the order in which the keys
were first added. The processes without namespace are predefined. A specification is any object
with a non-empty id; what else it says is only looked at when it is used.
-/

set_option autoImplicit false

namespace ProcessGraph

/-- The entries of a process specification. -/
abbrev Specification := Value.Entries

/-- A namespace (none for predefined processes) and a process id. -/
abbrev ProcessKey := Option String × String

/-- Specifications by namespace and id. -/
abbrev Catalog := Dictionary ProcessKey Specification

/-- Splits a process id at its first `@` into the id and the namespace after it. -/
def splitProcessId (id : String) : String × Option String :=
  match id.toList.span (· ≠ '@') with
  | (name, '@' :: space) => (String.ofList name, some (String.ofList space))
  | _ => (id, none)

namespace Catalog

/-- The id of a value that can be added to a catalog. -/
def checkedId : Value → Except Failure (String × Specification)
  | .dict spec =>
    match Value.field "id" spec with
    | .str id => if id = "" then .error .specificationWithoutId else .ok (id, spec)
    | _ => .error .specificationWithoutId
  | v => .error (.notASpecification v.typeName)

/-- What is logged when a specification takes the place of another. -/
def replacing (id : String) (space : Option String) : Log.Record :=
  .debug Log.catalogLogger ("Replacing process specification " ++ id ++ " (namespace=" ++
    space.getD "None" ++ ")")

/-- Adds a specification, in place of any that has its key. -/
def add (spec : Value) (space : Option String) (c : Catalog) :
    Except Failure (Catalog × List Log.Record) := do
  let (id, spec) ← checkedId spec
  let records := if Dictionary.contains (space, id) c then [replacing id space] else []
  return (Dictionary.insert (space, id) spec c, records)

/-- Adds predefined processes up to the first value that is no specification. -/
def addAll : List Value → Catalog → List Log.Record → Except Failure Catalog × List Log.Record
  | [], c, records => (.ok c, records)
  | spec :: specs, c, records =>
    match add spec none c with
    | .ok (c, more) => addAll specs c (records ++ more)
    | .error e => (.error e, records)

/-- The list of specifications that a value holds: a list itself, or an object with such a list
under `processes`. Null holds none. -/
def specifications : Value → Except Failure (List Value)
  | .null => .ok []
  | .list specs => .ok specs
  | .tuple specs => .ok specs
  | .dict entries =>
    match Value.field "processes" entries with
    | .list specs => .ok specs
    | _ => .error .notACatalog
  | _ => .error .notACatalog

/-- The catalog that a value describes, and what is logged on the way. -/
def ofValue (v : Value) : Except Failure Catalog × List Log.Record :=
  match specifications v with
  | .ok specs => addAll specs [] []
  | .error e => (.error e, [])

def get? (id : String) (space : Option String) (c : Catalog) : Option Specification :=
  Dictionary.get? (space, id) c

def has (id : String) (space : Option String) (c : Catalog) : Bool := (c.get? id space).isSome

/-- The specifications of a namespace. -/
def all (space : Option String) (c : Catalog) : List Specification :=
  (c.filter fun p => p.1.1 = space).map (·.2)

/-- The namespaces in the order of their first process. -/
def spaces (c : Catalog) : List (Option String) := (c.map (·.1.1)).eraseDups

/-- All specifications. -/
def toList (c : Catalog) : List Specification := c.map (·.2)

/-- The ids of the predefined processes. -/
def predefinedIds (c : Catalog) : List String :=
  (c.filter fun p => p.1.1 = none).map (·.1.2)

end Catalog

end ProcessGraph
