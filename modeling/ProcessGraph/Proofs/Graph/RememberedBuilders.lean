import ProcessGraph.Proofs.Graph.Frames
import ProcessGraph.Proofs.Graph.Reachability

/-!
# Builders that nodes remember

A node remembers the builders that were made for its callback arguments. Only making its document
changes that (`Documents.run_callbackBuilder`): no building step makes a node that is already there
remember another builder (`Build.Remembers`), whether it fails or not, and neither does rolling
back.
-/

set_option autoImplicit false

namespace ProcessGraph

namespace Workspace

/-- The nodes that were there remember the same builders. -/
structure Remembers (ws now : Workspace) : Prop where
  nodes : ws.nodes.size ≤ now.nodes.size
  same : ∀ n : NodeRef, n.index < ws.nodes.size →
    (now.node n).callbackBuilders = (ws.node n).callbackBuilders

namespace Remembers

variable {ws now after : Workspace}

theorem refl (ws : Workspace) : ws.Remembers ws := ⟨Nat.le_refl _, fun _ _ => rfl⟩

theorem trans (h : ws.Remembers now) (h' : now.Remembers after) : ws.Remembers after where
  nodes := Nat.le_trans h.nodes h'.nodes
  same n hn := (h'.same n (Nat.lt_of_lt_of_le hn h.nodes)).trans (h.same n hn)

theorem of_nodes_eq (e : now.nodes = ws.nodes) : ws.Remembers now where
  nodes := Nat.le_of_eq (congrArg Arena.size e.symm)
  same n _ := by
    unfold node
    rw [e]

theorem modifyNode (ws : Workspace) (n : NodeRef) {f : Node → Node}
    (hf : ∀ m, (f m).callbackBuilders = m.callbackBuilders) : ws.Remembers (ws.modifyNode n f) where
  nodes := by simp [Workspace.modifyNode]
  same m _ := by
    rw [node_modifyNode]
    split
    · exact hf _
    · rfl

theorem rollBack {before : Workspace} (h : before.Remembers now) (b : BuilderRef) :
    before.Remembers (before.rollBack b now) :=
  h.trans (.of_nodes_eq nodes_rollBack)

end Remembers

theorem frame_remembers : FullFrame Remembers where
  refl := .refl
  trans := .trans
  addRecord _ _ := .of_nodes_eq rfl
  pushParameter _ _ := .of_nodes_eq rfl
  pushAccess _ _ _ := .of_nodes_eq rfl
  pushNode ws n _ := {
    nodes := (ws.grows_newNode n).nodes
    same := fun _ hm => congrArg Node.callbackBuilders (Arena.get_push_of_lt hm n) }
  modifyBuilder _ _ _ _ := .of_nodes_eq rfl
  numbering _ _ _ _ := .of_nodes_eq rfl
  registration _ _ _ _ := .of_nodes_eq rfl
  modifyElements _ _ _ _ := .of_nodes_eq rfl
  pushFormula _ _ := .of_nodes_eq rfl
  modifyFormula _ _ _ := .of_nodes_eq rfl
  rollBack b h := h.rollBack b

end Workspace

namespace Build

open Workspace

/-- The step makes no node that is there remember other builders. -/
def Remembers {α : Type} (step : Build α) : Prop := ∀ ws : Workspace, ws.Remembers (step.run ws).2

/-! ## Parameters -/

theorem remembers_newParameter (p : Parameter) : Remembers (newParameter p) :=
  fun _ => .of_nodes_eq rfl

theorem remembers_callbackParameter (b : BuilderRef) (name : Value) :
    Remembers (callbackParameter b name) := frame_remembers.keeps_callbackParameter b name

theorem remembers_parentParameters (b : BuilderRef) : Remembers (parentParameters b) :=
  frame_remembers.keeps_parentParameters b

theorem remembers_addParameter (b : BuilderRef) (declaration : Value.Entries) (onRoot : Bool) :
    Remembers (addParameter b declaration onRoot) :=
  frame_remembers.keeps_addParameter b declaration onRoot

/-! ## Calls -/

theorem remembers_generateId (b : BuilderRef) (name : String) : Remembers (generateId b name) :=
  frame_remembers.keeps_generateId frame_remembers.numbering b name

theorem remembers_invoke (b : BuilderRef) (process : String) (arguments description : Value)
    (space : Option String) : Remembers (invoke b process arguments description space) :=
  frame_remembers.keeps_invoke b process arguments description space

theorem remembers_callShortcut (b : BuilderRef) (process : String) (spec : Specification)
    (arguments : List Value) (named : Value.Entries) :
    Remembers (callShortcut b process spec arguments named) :=
  frame_remembers.keeps_callShortcut frame_remembers.numbering frame_remembers.registration b
    process spec arguments named

theorem remembers_elementAt (a : AccessRef) (key : Value) : Remembers (elementAt a key) :=
  frame_remembers.keeps_elementAt a key

/-! ## Formulas -/

theorem remembers_createFormula (text : String) : Remembers (createFormula text) :=
  frame_remembers.keeps_createFormula text

theorem remembers_setFormulaBuilder (f : FormulaRef) (b : BuilderRef) :
    Remembers (setFormulaBuilder f b) := fun _ => .of_nodes_eq rfl

theorem remembers_setResult (n : NodeRef) (v : Value) : Remembers (setResult n v) :=
  fun ws => .modifyNode ws n fun _ => rfl

theorem remembers_generate (f : FormulaRef) (asResult : Bool) :
    Remembers (generate f asResult) :=
  frame_remembers.keeps_generate (fun _ n => remembers_setResult n _) f

theorem remembers_compile (b : BuilderRef) (text : String) (asResult : Bool) :
    Remembers (compile b text asResult) :=
  frame_remembers.keeps_compile (fun _ n => remembers_setResult n _) b text

end Build

/-! ## Builders of callbacks -/

namespace Workspace

variable (ws : Workspace) (n : NodeRef) (argument : Scalar)

/-- The builder of an argument of a node, before it gets any nodes. -/
def newChild : Builder where
  catalog := (ws.builder (ws.node n).builder).catalog
  settings := (ws.builder (ws.node n).builder).settings
  parent := some (ws.node n).builder
  parentNode := some n
  parentParameter := argument

/-- There is a new builder for an argument of a node, and the node remembers it. -/
def withChild : Workspace :=
  { ws with
    builders := ws.builders.push (ws.newChild n argument)
    nodes := ws.nodes.modify n.index fun node =>
      { node with
        callbackBuilders := Dictionary.insert argument ⟨ws.builders.size⟩ node.callbackBuilders } }

theorem builder_withChild_self :
    (ws.withChild n argument).builder ⟨ws.builders.size⟩ = ws.newChild n argument :=
  Arena.get_push_size ..

variable {ws n}

theorem builder_withChild {b : BuilderRef} (hb : b.index < ws.builders.size) :
    (ws.withChild n argument).builder b = ws.builder b := Arena.get_push_of_lt hb _

theorem callbackBuilders_withChild_self (hn : n.index < ws.nodes.size) :
    Dictionary.get? argument ((ws.withChild n argument).node n).callbackBuilders =
      some ⟨ws.builders.size⟩ := by
  unfold withChild node
  rw [Arena.get_modify_self hn]
  exact Dictionary.get?_insert_self ..

theorem callbackBuilders_withChild {m : NodeRef} (h : m ≠ n) :
    ((ws.withChild n argument).node m).callbackBuilders = (ws.node m).callbackBuilders := by
  have other : n.index ≠ m.index := fun e => h (congrArg NodeRef.mk e.symm)
  unfold withChild node
  rw [Arena.get_modify_of_ne other]

end Workspace

namespace Documents

theorem run_callbackBuilder (n : NodeRef) (argument : Scalar) (ws : Workspace) :
    (callbackBuilder n argument).run ws =
      (.ok ⟨ws.builders.size⟩, ws.withChild n argument) := rfl

end Documents

end ProcessGraph
