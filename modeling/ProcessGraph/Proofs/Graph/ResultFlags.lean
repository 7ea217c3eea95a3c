import ProcessGraph.Proofs.Graph.ConfinedWork

/-!
# Result flags

A node is made without a flag (`Workspace.frame_sameResults`), and few operations set flags: setting
one, and adding a formula as the result. `ws.Flagless now`: from `ws` to `now` there were only
other operations (`FlaglessOperation`), documents that flagged nothing but nodes of newer builders,
and blocks that were undone. So the nodes that builders have got in between are not flagged, and all
others have the flags that they had (`Flagless.keepsFlags`).
-/

set_option autoImplicit false

namespace ProcessGraph

namespace Workspace

/-- The node is flagged as the result of its graph. -/
def Flagged (ws : Workspace) (n : NodeRef) : Prop := (ws.node n).result.isTruthy = true

/-- Nodes have the flags that they had, and the nodes that builders have got have none. -/
structure KeepsFlags (ws now : Workspace) : Prop where
  old : ∀ n : NodeRef, n.index < ws.nodes.size → (now.Flagged n ↔ ws.Flagged n)
  new : ∀ n : NodeRef, ws.NewNode n → n.index < now.nodes.size →
    (now.node n).builder.index < ws.builders.size → ¬ now.Flagged n

/-- No result has been set. -/
structure SameResults (ws now : Workspace) : Prop where
  nodes : ws.nodes.size ≤ now.nodes.size
  old : ∀ n : NodeRef, n.index < ws.nodes.size → (now.node n).result = (ws.node n).result
  new : ∀ n : NodeRef, ws.NewNode n → n.index < now.nodes.size →
    (now.node n).result = .bool false

/-- An operation that sets no flag. -/
inductive FlaglessOperation (ws : Workspace) : Workspace → Prop where
  | own {b : BuilderRef} (hb : b.index < ws.builders.size) {now : Workspace}
      (op : ws.OwnOperation b now) : FlaglessOperation ws now
  | catalogs (catalogs : Arena Catalog) : FlaglessOperation ws { ws with catalogs }
  | callbackNames (names : Dictionary String CallbackNames) :
      FlaglessOperation ws { ws with callbackNames := names }
  | records (log : List Log.Record) (warnings : List String) :
      FlaglessOperation ws { ws with log, warnings }
  | createBuilder (processes id : Value) (settings : Option Settings)
      (parent : Option BuilderRef) (env : Environment)
      (hp : ∀ p ∈ parent, p.index < ws.builders.size) :
      FlaglessOperation ws ((Build.createBuilder processes id settings parent env).run ws).2
  | createChild {b : BuilderRef} (hb : b.index < ws.builders.size) {n : NodeRef}
      (hn : n.index < ws.nodes.size) (argument : Scalar) :
      FlaglessOperation ws ((Build.createChild b n argument).run ws).2
  | setParent (b : BuilderRef) {n : NodeRef} (hn : n.index < ws.nodes.size) (argument : Scalar) :
      FlaglessOperation ws ((Build.setParent b n argument).run ws).2
  | setMetadata (b : BuilderRef) (name : String) (v : Value) :
      FlaglessOperation ws (ws.modifyBuilder b fun builder =>
        { builder with metadata := builder.metadata.set name v })
  | setFormulaBuilder (f : FormulaRef) {b : BuilderRef} (hb : b.index < ws.builders.size) :
      FlaglessOperation ws ((Build.setFormulaBuilder f b).run ws).2
  | generate (f : FormulaRef) (hb : ∀ b ∈ (ws.formula f).builder, b.index < ws.builders.size) :
      FlaglessOperation ws ((Build.generate f false).run ws).2
  | setDescription (n : NodeRef) (description : Value) :
      FlaglessOperation ws (ws.modifyNode n fun node => { node with description })

inductive Flagless : Workspace → Workspace → Prop where
  | refl (ws : Workspace) : Flagless ws ws
  | operation {ws now after : Workspace} (h : Flagless ws now) (op : now.FlaglessOperation after) :
      Flagless ws after
  /-- Documents flag nodes of new builders, and none of the builders that are there. -/
  | documents {ws now after : Workspace} (h : Flagless ws now) (steps : now.Steps after)
      (keeps : now.KeepsFlags after) : Flagless ws after
  /-- A block that began in `before` and failed in `now`. -/
  | rollBack {ws before now : Workspace} (h : Flagless ws before) (h' : Flagless before now)
      {b : BuilderRef} (hb : b.index < before.builders.size) : Flagless ws (before.rollBack b now)

/-! ## Results -/

namespace SameResults

variable {ws now after : Workspace}

theorem trans (h : ws.SameResults now) (h' : now.SameResults after) : ws.SameResults after where
  nodes := Nat.le_trans h.nodes h'.nodes
  old n hn := (h'.old n (Nat.lt_of_lt_of_le hn h.nodes)).trans (h.old n hn)
  new n hn hlt := by
    by_cases old : n.index < now.nodes.size
    · exact (h'.old n old).trans (h.new n hn old)
    · exact h'.new n (Nat.not_lt.1 old) hlt

theorem of_nodes_eq (e : now.nodes = ws.nodes) : ws.SameResults now where
  nodes := Nat.le_of_eq (congrArg Arena.size e.symm)
  old n _ := by
    unfold node
    rw [e]
  new n hn hlt := by
    rw [e] at hlt
    exact absurd hlt (Nat.not_lt.2 hn)

theorem refl (ws : Workspace) : ws.SameResults ws := .of_nodes_eq rfl

theorem modifyNode (ws : Workspace) (n : NodeRef) {f : Node → Node}
    (hf : ∀ m, (f m).result = m.result) : ws.SameResults (ws.modifyNode n f) where
  nodes := by simp [Workspace.modifyNode]
  old m _ := by
    rw [node_modifyNode]
    split
    · exact hf _
    · rfl
  new m hm hlt := by
    have hlt : m.index < ws.nodes.size := by simpa [Workspace.modifyNode] using hlt
    exact absurd hlt (Nat.not_lt.2 hm)

theorem keepsFlags (h : ws.SameResults now) : ws.KeepsFlags now where
  old n hn := by
    unfold Flagged
    rw [h.old n hn]
  new n hn hlt _ := by
    unfold Flagged
    rw [h.new n hn hlt]
    simp [Value.isTruthy]

end SameResults

/-- Nodes are made without a flag. -/
theorem frame_sameResults : FullFrame SameResults where
  refl := .refl
  trans := .trans
  addRecord _ _ := .of_nodes_eq rfl
  pushParameter _ _ := .of_nodes_eq rfl
  pushAccess _ _ _ := .of_nodes_eq rfl
  pushNode ws n hn := {
    nodes := (ws.grows_newNode n).nodes
    old := fun _ hm => congrArg Node.result (Arena.get_push_of_lt hm n)
    new := fun m hm hlt => by
      have hlt : m.index < ws.nodes.size + 1 := by simpa using hlt
      have last : m.index = ws.nodes.size := Nat.le_antisymm (Nat.le_of_lt_succ hlt) hm
      show ((ws.nodes.push n).get m.index).result = .bool false
      rw [last, Arena.get_push_size, hn] }
  modifyBuilder _ _ _ _ := .of_nodes_eq rfl
  numbering _ _ _ _ := .of_nodes_eq rfl
  registration _ _ _ _ := .of_nodes_eq rfl
  modifyElements _ _ _ _ := .of_nodes_eq rfl
  pushFormula _ _ := .of_nodes_eq rfl
  modifyFormula _ _ _ := .of_nodes_eq rfl
  rollBack _ h := h.trans (.of_nodes_eq nodes_rollBack)

/-- A new builder has no nodes. -/
theorem sameResults_createBuilder (processes id : Value) (settings : Option Settings)
    (parent : Option BuilderRef) (env : Environment) :
    Build.Keeps SameResults (Build.createBuilder processes id settings parent env) := by
  have F := frame_sameResults
  rw [Build.createBuilder_eq]
  refine F.keeps_bind ?_ fun catalog => F.keeps_get_bind fun ws => ?_
  · unfold Build.catalogFor
    split
    · exact F.keeps_pure _
    · exact F.keeps_bind (fun _ => .of_nodes_eq rfl) fun _ =>
        F.keeps_bind (F.keeps_ofExcept _) fun _ _ => .of_nodes_eq rfl
  · have make : Build.Keeps SameResults (do
        let settings ← Build.settingsFor ws env settings parent
        Build.newBuilder { catalog, settings, parent, metadata.id := id }) := by
      refine F.keeps_bind ?_ fun _ _ => .of_nodes_eq rfl
      unfold Build.settingsFor
      split
      · exact F.keeps_pure _
      · exact F.keeps_pure _
      · exact F.keeps_ofExcept _
    split
    · exact F.keeps_bind (F.keeps_throw _) fun _ => make
    · exact make

/-! ## Operations -/

namespace FlaglessOperation

variable {ws now : Workspace}

theorem operation (op : ws.FlaglessOperation now) (wf : ws.WellFormed) : ws.Operation now := by
  cases op with
  | own hb op => exact op.operation wf hb
  | catalogs catalogs => exact .catalogs catalogs
  | callbackNames names => exact .callbackNames names
  | records log warnings => exact .records log warnings
  | createBuilder processes id settings parent env hp =>
    exact .createBuilder processes id settings parent env hp
  | createChild hb hn argument => exact .createChild hb hn argument
  | setParent b hn argument => exact .setParent b hn argument
  | setMetadata b name v => exact .setMetadata b name v
  | setFormulaBuilder f hb => exact .setFormulaBuilder f hb
  | generate f hb => exact .generate f hb false
  | setDescription n description => exact .setDescription n description

theorem sameResults (op : ws.FlaglessOperation now) : ws.SameResults now := by
  have F := frame_sameResults
  have unset (n : NodeRef) (e : false = true) :
      Build.Keeps SameResults (Build.setResult n (.bool true)) := nomatch e
  cases op with
  | own hb op =>
    cases op with
    | newParameter p => exact .of_nodes_eq rfl
    | createFormula text => exact F.keeps_createFormula text ws
    | callbackParameter name => exact F.keeps_callbackParameter _ name ws
    | parentParameters => exact F.keeps_parentParameters _ ws
    | invoke process _ description space => exact F.keeps_invoke _ process _ description space ws
    | shortcut process spec =>
      exact F.keeps_callShortcut F.numbering F.registration _ process spec _ _ ws
    | math text => exact F.keeps_compile (fun e n => unset n e) _ text ws
    | element _ _ key => exact F.keeps_elementAt _ key ws
    | generateId name => exact F.keeps_generateId F.numbering _ name ws
    | addParameter declaration => exact F.keeps_addParameter _ declaration true ws
    | addRootParameter declaration => exact F.keeps_addParameter _ declaration true ws
  | catalogs | callbackNames | records | createChild | setParent | setMetadata
  | setFormulaBuilder => exact .of_nodes_eq rfl
  | createBuilder processes id settings parent env =>
    exact sameResults_createBuilder processes id settings parent env ws
  | generate f => exact F.keeps_generate (fun e n => unset n e) f ws
  | setDescription n description => exact .modifyNode ws n fun _ => rfl

end FlaglessOperation

/-! ## Flags -/

namespace KeepsFlags

variable {ws now after : Workspace}

theorem refl (ws : Workspace) : ws.KeepsFlags ws := (SameResults.refl ws).keepsFlags

theorem trans (h : ws.KeepsFlags now) (h' : now.KeepsFlags after) (g : ws.Grows now)
    (g' : now.Grows after) : ws.KeepsFlags after where
  old n hn := (h'.old n (Nat.lt_of_lt_of_le hn g.nodes)).trans (h.old n hn)
  new n hn hlt hb := by
    by_cases old : n.index < now.nodes.size
    · rw [h'.old n old]
      exact h.new n hn old ((g'.node n old).builder ▸ hb)
    · exact h'.new n (Nat.not_lt.1 old) hlt (Nat.lt_of_lt_of_le hb g.builders)

theorem rollBack {before : Workspace} (h : before.KeepsFlags now) (b : BuilderRef) :
    before.KeepsFlags (before.rollBack b now) where
  old n hn := by
    unfold Flagged
    rw [node_rollBack]
    exact h.old n hn
  new n hn hlt hb := by
    rw [nodes_rollBack] at hlt
    unfold Flagged
    rw [node_rollBack] at hb ⊢
    exact h.new n hn hlt hb

end KeepsFlags

namespace Flagless

variable {ws now after : Workspace}

theorem trans (h : ws.Flagless now) (h' : now.Flagless after) : ws.Flagless after := by
  induction h' with
  | refl => exact h
  | operation _ op ih => exact .operation (ih h) op
  | documents _ steps keeps ih => exact .documents (ih h) steps keeps
  | rollBack _ h'' hb ih => exact .rollBack (ih h) h'' hb

theorem steps (h : ws.Flagless now) (wf : ws.WellFormed) : ws.Steps now := by
  induction h with
  | refl => exact .refl _
  | operation _ op ih =>
    have steps := ih wf
    exact .operation steps (op.operation (steps.appends wf).wellFormed)
  | documents _ steps _ ih => exact (ih wf).trans steps
  | rollBack _ _ hb ih ih' =>
    have steps := ih wf
    exact .rollBack steps (ih' (steps.appends wf).wellFormed) hb

/-- Without operations that set flags, nodes keep theirs and new ones have none. -/
theorem keepsFlags (h : ws.Flagless now) (wf : ws.WellFormed) : ws.KeepsFlags now := by
  induction h with
  | refl => exact .refl _
  | operation h op ih =>
    have appends := (h.steps wf).appends wf
    exact (ih wf).trans op.sameResults.keepsFlags appends.grows
      ((op.operation appends.wellFormed).appends appends.wellFormed).grows
  | documents h steps keeps ih =>
    have appends := (h.steps wf).appends wf
    exact (ih wf).trans keeps appends.grows (steps.appends appends.wellFormed).grows
  | rollBack h h' hb ih ih' =>
    have appends := (h.steps wf).appends wf
    have wf' := appends.wellFormed
    have undone : Steps _ _ := .rollBack (.refl _) (h'.steps wf') hb
    exact (ih wf).trans ((ih' wf').rollBack _) appends.grows (undone.appends wf').grows

end Flagless

end Workspace

end ProcessGraph
