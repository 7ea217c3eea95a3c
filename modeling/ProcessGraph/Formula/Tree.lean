import ProcessGraph.Value.Basic

/-!
# Formula trees

The structure of a formula. A group is a pair of parentheses, and the root of every parsed formula
is a group. Operators and signs are kept as they are written.
-/

set_option autoImplicit false

namespace ProcessGraph.Formula

inductive Tree where
  | number (value : Scalar)
  | identifier (name : String)
  | binary (op : String) (left right : Tree)
  | unary (op : String) (operand : Tree)
  | call (name : String) (arguments : List Tree)
  | group (inner : Tree)
deriving Inhabited

end ProcessGraph.Formula
