import ProcessGraph.Dictionary
import ProcessGraph.Number.Binary64

/-!
# Values

The values that arguments, specifications and documents are made of: plain data, and references to
the objects of a workspace. References are compared by identity.
-/

set_option autoImplicit false

universe u

namespace ProcessGraph

/-- Data without parts. Scalars are also the keys of dictionaries. -/
inductive Scalar where
  | null
  | bool (b : Bool)
  | int (n : Int)
  | float (x : Binary64)
  | str (s : String)
deriving DecidableEq, Inhabited

/-- A node of a workspace. -/
structure NodeRef where
  index : Nat
deriving DecidableEq, Inhabited

/-- A parameter of a workspace. -/
structure ParameterRef where
  index : Nat
deriving DecidableEq, Inhabited

/-- A callback parameter with array access. -/
structure AccessRef where
  index : Nat
deriving DecidableEq, Inhabited

/-- A builder of a workspace. -/
structure BuilderRef where
  index : Nat
deriving DecidableEq, Inhabited

/-- A formula of a workspace. -/
structure FormulaRef where
  index : Nat
deriving DecidableEq, Inhabited

/-- A catalog of a workspace. -/
structure CatalogRef where
  index : Nat
deriving DecidableEq, Inhabited

/-- A function that builds the graph of a callback argument. Its signature is known; what a call
does is a matter of whoever owns the handle. -/
structure Callback where
  handle : Nat
  positional : Nat
  variadic : Bool
deriving DecidableEq, Inhabited

inductive Value where
  | null
  | bool (b : Bool)
  | int (n : Int)
  | float (x : Binary64)
  | str (s : String)
  | list (items : List Value)
  | tuple (items : List Value)
  | dict (entries : List (Scalar × Value))
  | node (r : NodeRef)
  | parameter (r : ParameterRef)
  | access (r : AccessRef)
  | builder (r : BuilderRef)
  | formula (r : FormulaRef)
  | catalog (r : CatalogRef)
  | callback (f : Callback)
deriving Inhabited

def Scalar.toValue : Scalar → Value
  | .null => .null
  | .bool b => .bool b
  | .int n => .int n
  | .float x => .float x
  | .str s => .str s

/-! ## Keys -/

namespace Scalar

/-- What a key is compared by: truth values and floats that stand for an integer count as that. -/
def compared : Scalar → Scalar
  | .bool b => .int (if b then 1 else 0)
  | .float x => (x.integer?.map .int).getD (.float x)
  | k => k

/-- How a key is spelled among keys that were written: as the first one that it is equal to. -/
def spelledIn (keys : List Scalar) (k : Scalar) : Scalar :=
  (keys.find? fun k' => k'.compared = k.compared).getD k

/-- Entries in which equal keys, such as 1 and true, have one spelling, so that they are written as
one key. -/
def spellAlike {α : Type u} (entries : List (Scalar × α)) : List (Scalar × α) :=
  entries.map fun p => (p.1.spelledIn (entries.map (·.1)), p.2)

end Scalar

namespace Value

/-- The entries of an object. -/
abbrev Entries := Dictionary Scalar Value

/-- Only scalars can be the key of a dictionary. Where arguments are bound to names, equal keys are
spelled alike (`Scalar.spellAlike`); in all other places keys that are spelled differently differ,
and names are taken to be texts. -/
def key? : Value → Option Scalar
  | .null => some .null
  | .bool b => some (.bool b)
  | .int n => some (.int n)
  | .float x => some (.float x)
  | .str s => some (.str s)
  | _ => none

/-- The entry of an object under a name. -/
def field? (name : String) (entries : Entries) : Option Value :=
  Dictionary.get? (.str name) entries

/-- The entry of an object under a name, or null. -/
def field (name : String) (entries : Entries) : Value := (field? name entries).getD .null

/-- An object whose keys are names. -/
def object (fields : List (String × Value)) : Value :=
  .dict (fields.map fun p => (.str p.1, p.2))

/-- Does the value count as true? Null, zero and whatever is empty do not. -/
def isTruthy : Value → Bool
  | .null => false
  | .bool b => b
  | .int n => n != 0
  | .float x => !x.isZero
  | .str s => s != ""
  | .list items => !items.isEmpty
  | .tuple items => !items.isEmpty
  | .dict entries => !entries.isEmpty
  | _ => true

/-- The name of the value's type in messages. -/
def typeName : Value → String
  | .null => "NoneType"
  | .bool _ => "bool"
  | .int _ => "int"
  | .float _ => "float"
  | .str _ => "str"
  | .list _ => "list"
  | .tuple _ => "tuple"
  | .dict _ => "dict"
  | .node _ => "ProcessNode"
  | .parameter _ => "ParameterRef"
  | .access _ => "ArrayAccessProxy"
  | .builder _ => "GraphBuilder"
  | .formula _ => "Formula"
  | .catalog _ => "ProcessRegistry"
  | .callback _ => "function"

/-! ## Equality -/

/-- The number that a number or truth value stands for, if it is an integer. -/
def integral? : Value → Option Int
  | .bool b => some (if b then 1 else 0)
  | .int n => some n
  | .float x => x.integer?
  | _ => none

/-- Numbers and truth values are equal if they stand for the same number; a NaN equals nothing. -/
def sameNumber (v w : Value) : Bool :=
  match v.integral?, w.integral? with
  | some m, some n => m == n
  | none, none =>
    match v, w with
    | .float x, .float y => !x.isNaN && x == y
    | _, _ => false
  | _, _ => false

mutual

/-- Do two values say the same? The order of the entries of an object does not matter. -/
def same : Value → Value → Bool
  | .null, .null => true
  | .str s, .str t => s == t
  | .list vs, .list ws => sameList vs ws
  | .tuple vs, .tuple ws => sameList vs ws
  | .dict d, .dict e => d.length == e.length && sameEntries d e
  | .node r, .node q => r == q
  | .parameter r, .parameter q => r == q
  | .access r, .access q => r == q
  | .builder r, .builder q => r == q
  | .formula r, .formula q => r == q
  | .catalog r, .catalog q => r == q
  | .callback f, .callback g => f == g
  | .bool b, w => sameNumber (.bool b) w
  | .int n, w => sameNumber (.int n) w
  | .float x, w => sameNumber (.float x) w
  | _, _ => false

def sameList : List Value → List Value → Bool
  | [], [] => true
  | v :: vs, w :: ws => same v w && sameList vs ws
  | _, _ => false

/-- Is every entry of the first list the same in the second? -/
def sameEntries : List (Scalar × Value) → List (Scalar × Value) → Bool
  | [], _ => true
  | (k, v) :: d, e =>
    (match Dictionary.get? k e with
      | some w => same v w
      | none => false) && sameEntries d e

end

/-- Strings are equal if they are the same string. -/
@[simp] theorem same_str (s t : String) : same (.str s) (.str t) = (s == t) := by
  simp [same]

end Value

end ProcessGraph
