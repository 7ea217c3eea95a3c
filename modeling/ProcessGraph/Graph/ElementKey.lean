import ProcessGraph.Failure
import ProcessGraph.Text.Integer

/-!
# Keys of array elements

An element is accessed by its index or by its label. A number is an index, and so is a text that
writes one without leading zeros; every other text is a label.
-/

set_option autoImplicit false

namespace ProcessGraph

inductive ElementKey where
  | index (n : Nat)
  | label (s : String)
deriving DecidableEq, Inhabited

namespace ElementKey

/-- The characters before a line break at the end. -/
def withoutLineBreak (cs : List Char) : List Char :=
  if cs.getLast? = some '\n' then cs.dropLast else cs

/-- Is the text an index: a zero, or a digit from one to nine and more digits of any script? A line
break at the end does not matter. -/
def isIndex (s : String) : Bool :=
  match withoutLineBreak s.toList with
  | ['0'] => true
  | d :: ds => '1' ≤ d && d ≤ '9' && ds.all fun c => (Text.decimalDigit? c).isSome
  | [] => false

/-- The key that a text writes. -/
def ofText (s : String) : Except Failure ElementKey :=
  if isIndex s then
    match Text.readInteger? s with
    | some n => .ok (.index n.toNat)
    | none => .error .badText
  else .ok (.label s)

/-- The key that a value stands for. -/
def ofValue (objectName : Value → String) : Value → Except Failure ElementKey
  | .bool b => .ok (.label (if b then "true" else "false"))
  | .int n => if n < 0 then .error (.negativeIndex n) else .ok (.index n.toNat)
  | v => ofText (v.display objectName)

/-- The argument that carries the key. -/
def argument : ElementKey → String
  | index _ => "index"
  | label _ => "label"

def toValue : ElementKey → Value
  | index n => .int n
  | label s => .str s

end ElementKey

end ProcessGraph
