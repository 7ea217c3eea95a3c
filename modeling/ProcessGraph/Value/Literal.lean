import ProcessGraph.Value.Basic
import ProcessGraph.Number.Shortest

/-!
# Literal text

How messages write a value: texts in quotes, lists in square brackets, tuples in parentheses,
dictionaries in braces. Objects of a workspace are named by whoever knows them.
-/

set_option autoImplicit false

namespace ProcessGraph

def Scalar.literal : Scalar → String
  | .null => "None"
  | .bool true => "True"
  | .bool false => "False"
  | .int n => toString n
  | .float x => Binary64.text Binary64.plainNames x
  | .str s => Text.quoted s

namespace Value

variable (objectName : Value → String)

mutual

/-- The literal text of a value. -/
def literal : Value → String
  | .null => Scalar.literal .null
  | .bool b => Scalar.literal (.bool b)
  | .int n => Scalar.literal (.int n)
  | .float x => Scalar.literal (.float x)
  | .str s => Scalar.literal (.str s)
  | .list vs => "[" ++ ", ".intercalate (literals vs) ++ "]"
  | .tuple [v] => "(" ++ literal v ++ ",)"
  | .tuple vs => "(" ++ ", ".intercalate (literals vs) ++ ")"
  | .dict d => "\x7b" ++ ", ".intercalate (entryLiterals d) ++ "\x7d"
  | v => objectName v

def literals : List Value → List String
  | [] => []
  | v :: vs => literal v :: literals vs

def entryLiterals : List (Scalar × Value) → List String
  | [] => []
  | (k, v) :: d => (k.literal ++ ": " ++ literal v) :: entryLiterals d

end

/-- The text of a value in the middle of a message: a string as it is, others as literals. -/
def display : Value → String
  | .str s => s
  | v => literal objectName v

end Value

/-- The text of a scalar in the middle of a message. -/
def Scalar.display : Scalar → String
  | .str s => s
  | k => k.literal

end ProcessGraph
