import Mathlib.Data.List.Nodup
import ProcessGraph.Proofs.Graph.Embeddings
import ProcessGraph.Proofs.Graph.FormulaNodes
import ProcessGraph.Proofs.Graph.ResultFlags

/-!
# Results of embedded graphs

When the builder of a lowering has got its nodes, one of them is flagged (`Workspace.OneFlag`): the
node that the function has returned, the array made of a list that it has returned, or the last node
of the formula. No node of the builder was there before, so there is no older flag among them, and
the operations that fill the builder flag nothing (`Workspace.FlaglessOperation`) but this node at
the end.

The document is written after that. While a node is exported its arguments are lowered, and
functions in them are called. As long as these leave the flags alone, the document shows the flags
that were there (`Lowers.isResult_iff`), and so it has one result (`Documents.results_unique`). A
function in an argument can flag a node of the outer graph, which then has two
(`Documents.results_doubled`).
-/

set_option autoImplicit false

namespace ProcessGraph

variable {σ : Type}

/-- The only entry of a dictionary is the last one. -/
theorem Dictionary.getLast?_of_length_le_one {α β : Type} [DecidableEq α] {d : Dictionary α β}
    {k : α} {v : β} (few : d.length ≤ 1) (found : get? k d = some v) :
    d.getLast? = some (k, v) := by
  have mem := mem_of_get? found
  obtain ⟨p, rfl⟩ := List.length_eq_one_iff.1 (Nat.le_antisymm few (List.length_pos_of_mem mem))
  rw [List.mem_singleton.1 mem]
  rfl

/-! ## Documents of flagged nodes -/

/-- The document is one of a node that is flagged. -/
def Value.isResult (document : Value) : Bool :=
  match field? "result" document.entries with
  | some (.bool true) => true
  | _ => false

theorem Documents.isResult_describe (node now : Node) (arguments : List (Scalar × Value)) :
    (describe node now arguments).isResult = now.result.isTruthy := by
  unfold describe Value.isResult Value.object Value.entries Value.field?
  cases node.space <;> cases now.description <;> cases now.result.isTruthy <;>
    simp [Dictionary.get?]

/-! ## Calls and what they return -/

/-- The call changes no flags of nodes that were there. -/
def Call.KeepsOldFlags (c : Call σ) : Prop :=
  ∀ n : NodeRef, n.index < c.before.workspace.nodes.size →
    (c.after.workspace.Flagged n ↔ c.before.workspace.Flagged n)

/-- The call sets no flags, and does not return a node that has been rolled back. -/
structure Call.Behaves (c : Call σ) : Prop where
  flagless : c.before.workspace.Flagless c.after.workspace
  registered : ∀ n, c.value = .node n → Dictionary.get? (c.after.workspace.node n).id
    (c.after.workspace.builder (c.after.workspace.node n).builder).nodes = some n

namespace Documents

section
variable {ws now : Workspace} {b : BuilderRef} {v : Value} {n : NodeRef}

theorem keeps_wrapList (b : BuilderRef) (v : Value) :
    Build.Keeps Workspace.SameResults (wrapList b v) := by
  have F := Workspace.frame_sameResults
  have wrapped (process : String) (vs : List Value) : Build.Keeps Workspace.SameResults
      (do return .node (← Build.invoke b process (.list [.list vs])) : Build Value) :=
    F.keeps_bind (F.keeps_invoke b process _ _ _) fun _ => F.keeps_pure _
  refine F.keeps_get_bind fun ws => ?_
  dsimp only
  split
  · split
    · exact wrapped _ _
    · exact F.keeps_pure _
  · split
    · exact wrapped _ _
    · exact F.keeps_pure _
  · exact F.keeps_pure _

/-- The result of a function is the node that it returns, or that of the list that it returns. -/
theorem wrapList_eq_ok (run : (wrapList b v).run ws = (.ok (.node n), now)) :
    (v = .node n ∧ now = ws) ∨ ∃ vs, (v = .list vs ∨ v = .tuple vs) ∧
      (Build.invoke b (ws.builder b).settings.arrayCreateProcess (.list [.list vs])).run ws =
        (.ok n, now) := by
  have wrapped {vs : List Value} (run : (do
      return .node (← Build.invoke b (ws.builder b).settings.arrayCreateProcess
        (.list [.list vs])) : Build Value).run ws = (.ok (.node n), now)) :
      (Build.invoke b (ws.builder b).settings.arrayCreateProcess (.list [.list vs])).run ws =
        (.ok n, now) := by
    obtain ⟨m, made, invoked, run⟩ := run_bind_eq_ok run
    cases run
    exact invoked
  unfold wrapList at run
  rw [Build.run_get_bind] at run
  dsimp only at run
  split at run
  · split at run
    · exact .inr ⟨_, .inl rfl, wrapped run⟩
    · cases run
  · split at run
    · exact .inr ⟨_, .inr rfl, wrapped run⟩
    · cases run
  · cases run
    exact .inl ⟨rfl, rfl⟩

theorem resultNode_eq_ok {argument : Scalar} {process : String}
    (run : (resultNode b argument process v).run ws = (.ok n, now)) :
    v = .node n ∧ (ws.node n).builder = b ∧ now = ws := by
  unfold resultNode at run
  split at run
  · rw [Build.run_get_bind] at run
    split at run
    · rename_i own
      cases run
      exact ⟨rfl, own, rfl⟩
    · cases run
  · cases run

end

end Documents

/-! ## Final nodes of formulas -/

section
variable {ws now : Workspace} {b : BuilderRef} (h : ws.WellFormed)
  (hb : b.index < ws.builders.size)
include h hb

/-- A call gives the builder its last node. -/
theorem invoke_last {process : String} {arguments : Value} {n : NodeRef}
    (hv : arguments.Within ws)
    (run : (Build.invoke b process arguments).run ws = (.ok n, now)) :
    (now.builder b).nodes = (ws.builder b).nodes ++ [((now.node n).id, n)] := by
  obtain ⟨-, -, -, -, -, nodes, -⟩ := (Build.ensures_invoke (h.extends _ _)
    (Workspace.open_of_within hb) process hv .null none).of_run run
  exact nodes

theorem addOperator_last {op : String} {left right : Value} {n : NodeRef}
    (hl : left.Within ws) (hr : right.Within ws)
    (run : (Build.addOperator b op left right).run ws = (.ok n, now)) :
    (now.builder b).nodes = (ws.builder b).nodes ++ [((now.node n).id, n)] := by
  obtain ⟨process, spec, entries, -, -, bound, run⟩ := addOperator_eq_invoke run
  refine invoke_last h hb (Value.within_dict.2 fun p hp => ?_) run
  rcases mem_of_operatorArguments bound hp with e | e
  · exact e ▸ hl
  · exact e ▸ hr

omit h hb in
/-- In a builder without nodes, the node that a formula is lowered to is the last one. -/
theorem lower_last {ws : Workspace} (h : ws.WellFormed) (hb : b.index < ws.builders.size)
    (none_yet : (ws.builder b).nodes = []) : (t : Formula.Tree) → {n : NodeRef} →
    {now : Workspace} → (Build.lower b t).run ws = (.ok (.node n), now) →
    (now.builder b).nodes.getLast? = some ((now.node n).id, n)
  | .number value, n, now, run => by
    unfold Build.lower at run
    cases value <;> cases run
  | .identifier name, n, now, run => by
    unfold Build.lower at run
    obtain ⟨added, registered⟩ := Workspace.AddsNodes.resolve h hb run
    have found := added.wellFormed.get?_of_registeredIn
      (Nat.lt_of_lt_of_le hb added.grows.builders) registered
    obtain ⟨more, nodes, made⟩ := added.added
    -- It is one node at most, an element of a callback parameter.
    have few : more.length ≤ 1 := by
      rw [← made.length_eq]
      unfold Formula.Tree.additions
      split
      · split <;> simp
      · simp
    rw [nodes, none_yet, List.nil_append] at found ⊢
    exact Dictionary.getLast?_of_length_le_one few found
  | .binary op left right, n, now, run => by
    unfold Build.lower at run
    obtain ⟨l, w₁, hl, run⟩ := run_bind_eq_ok run
    obtain ⟨r, w₂, hr, run⟩ := run_bind_eq_ok run
    obtain ⟨m, w₃, hadd, run⟩ := run_bind_eq_ok run
    cases run
    obtain ⟨c₁, ownedLeft, -⟩ := lower_eq_ok h hb hl
    obtain ⟨c₂, ownedRight, -⟩ := lower_eq_ok c₁.wellFormed (c₁.within hb) hr
    rw [addOperator_last c₂.wellFormed (c₂.within (c₁.within hb)) (ownedLeft.grow c₂.grows).1
      ownedRight.1 hadd, List.getLast?_concat]
  | .unary op operand, n, now, run => by
    unfold Build.lower at run
    obtain ⟨u, w₁, hu, run⟩ := run_bind_eq_ok run
    obtain ⟨c₁, owned, -⟩ := lower_eq_ok h hb hu
    rcases applySign_eq_ok run with ⟨-, rfl, rfl⟩ | ⟨-, s, -, e, -⟩ | ⟨-, -, m, e, hadd⟩
    · exact lower_last h hb none_yet operand hu
    · cases s <;> cases e
    · cases e
      rw [addOperator_last c₁.wellFormed (c₁.within hb) (Value.within_of_refs_eq_nil rfl) owned.1
        hadd, List.getLast?_concat]
  | .call name arguments, n, now, run => by
    unfold Build.lower at run
    obtain ⟨vs, w₁, hvs, run⟩ := run_bind_eq_ok run
    obtain ⟨m, w₂, hinvoke, run⟩ := run_bind_eq_ok run
    cases run
    obtain ⟨c₁, within⟩ := lowerAll_eq_ok h hb hvs
    rw [invoke_last c₁.wellFormed (c₁.within hb) (Value.within_list.2 within) hinvoke,
      List.getLast?_concat]
  | .group inner, n, now, run => by
    unfold Build.lower at run
    exact lower_last h hb none_yet inner run

end

/-! ## Lowerings -/

/-- Of the nodes of the builder, which has `n`, that one is flagged and no other. -/
structure Workspace.OneFlag (ws : Workspace) (b : BuilderRef) (n : NodeRef) : Prop where
  registered : Dictionary.get? (ws.node n).id (ws.builder b).nodes = some n
  only : ∀ p ∈ (ws.builder b).nodes, (ws.Flagged p.2 ↔ p.2 = n)

/-- In `ws` the builder of the lowering, which was made after `w`, has got its nodes, and nothing
is missing but the flag of the result. -/
structure Lowering.FlaggedFrom (w : World σ) (x : Lowering σ) (ws : Workspace) : Prop where
  wellFormed : ws.WellFormed
  grows : w.workspace.Grows ws
  child : x.child = ⟨w.workspace.builders.size⟩
  within : x.result.index < ws.nodes.size
  owner : (ws.node x.result).builder = x.child
  nodes : x.filled.workspace.nodes =
    ((Build.setResult x.result (.bool true)).run ws).2.nodes
  builders : x.filled.workspace.builders = ws.builders

namespace Lowering.FlaggedFrom

variable {w : World σ} {x : Lowering σ} {ws start : Workspace}

theorem node (h : x.FlaggedFrom w ws) (n : NodeRef) : x.filled.workspace.node n =
    if n = x.result then { ws.node n with result := .bool true } else ws.node n := by
  have same : x.filled.workspace.node n =
      (ws.modifyNode x.result fun node => { node with result := .bool true }).node n := by
    unfold Workspace.node
    rw [h.nodes]
    rfl
  rw [same, Workspace.node_modifyNode]
  simp [h.within]

theorem builder (h : x.FlaggedFrom w ws) (b : BuilderRef) :
    x.filled.workspace.builder b = ws.builder b := by
  unfold Workspace.builder
  rw [h.builders]

/-- Nodes of a builder that was made after `w` were made after it, too. -/
theorem new (h : x.FlaggedFrom w ws) (wf : w.workspace.WellFormed) {n : NodeRef}
    (own : (ws.node n).builder = x.child) : w.workspace.nodes.size ≤ n.index := by
  refine Nat.not_lt.1 fun old => ?_
  have owner := (wf.node n old).owner
  rw [← (h.grows.node n old).builder, own, h.child] at owner
  exact Nat.lt_irrefl _ owner

/-- The flag is not one of an older node. -/
theorem old_flagged (h : x.FlaggedFrom w ws) (wf : w.workspace.WellFormed) {n : NodeRef}
    (hn : n.index < w.workspace.nodes.size) :
    x.filled.workspace.Flagged n ↔ ws.Flagged n := by
  have other : n ≠ x.result := by
    rintro rfl
    exact Nat.not_lt.2 (h.new wf h.owner) hn
  unfold Workspace.Flagged
  rw [h.node, if_neg other]

/-- If no flag is set while the builder gets its nodes, then in the end one is. -/
theorem oneFlag (h : x.FlaggedFrom w ws) (wf : w.workspace.WellFormed)
    (size : start.nodes.size = w.workspace.nodes.size)
    (hc : x.child.index < start.builders.size) (keeps : start.KeepsFlags ws)
    (registered : Dictionary.get? (ws.node x.result).id (ws.builder x.child).nodes =
      some x.result) : x.filled.workspace.OneFlag x.child x.result := by
  refine ⟨?_, fun p hp => ?_⟩
  · rw [h.builder, h.node, if_pos rfl]
    exact registered
  · rw [h.builder] at hp
    have lt : x.child.index < ws.builders.size :=
      h.owner ▸ (h.wellFormed.node x.result h.within).owner
    obtain ⟨within, own, -⟩ := (h.wellFormed.builder x.child lt).nodes p.1 p.2 hp
    have new : start.NewNode p.2 := Nat.le_trans (Nat.le_of_eq size) (h.new wf own)
    have unflagged := keeps.new p.2 new within (own ▸ hc)
    unfold Workspace.Flagged at unflagged ⊢
    rw [h.node]
    split
    · rename_i e
      simp [e, Value.isTruthy]
    · rename_i e
      simp [e, unflagged]

end Lowering.FlaggedFrom

section
variable {call : Documents σ → Callback → List Value → Run σ Value} {w now : World σ}
  {x : Lowering σ} (wf : w.workspace.WellFormed) (hn : x.node.index < w.workspace.nodes.size)
include wf hn

theorem FillsByCall.flaggedFrom
    (hcall : ∀ depth, Calls.Operate (call (Documents.within call depth))) {f : Callback}
    {c : Call σ} (h : FillsByCall call w f x c) : ∃ ws, x.FlaggedFrom w ws ∧
      (Documents.wrapList x.child c.value).run c.after.workspace = (.ok (.node x.result), ws) := by
  obtain ⟨names, begin⟩ := h.begin wf hn
  obtain ⟨called, within⟩ := h.called wf hn hcall
  obtain ⟨v, ws, process, now, wrapped, found, filled⟩ := h.ends
  obtain ⟨rfl, own, rfl⟩ := Documents.resultNode_eq_ok found
  have wf₁ := (begin.steps.appends wf).wellFormed
  have wf₂ := (called.appends wf₁).wellFormed
  have hc : x.child.index < c.after.workspace.builders.size :=
    Nat.lt_of_lt_of_le (h.child_eq ▸ begin.child_lt) (called.appends wf₁).grows.builders
  obtain ⟨steps, -, hv⟩ := (Documents.ensures_wrapList wf₂ (.refl _) hc within).of_run wrapped
  have made := ((begin.steps.trans called).trans steps).appends wf
  refine ⟨_, ⟨made.wellFormed, made.grows, h.child, Value.within_node.1 hv, own, ?_, ?_⟩, wrapped⟩
  · rw [filled]
  · rw [filled]
    rfl

/-- Where a formula is lowered. -/
def Lowering.formulaStart (w : World σ) (x : Lowering σ) (f : FormulaRef) : Workspace :=
  (w.workspace.withChild x.node x.argument).modifyFormula f fun formula =>
    { formula with builder := some x.child }

theorem FillsByFormula.flaggedFrom {f : FormulaRef} (h : FillsByFormula w f x)
    (hx : x.source.Within w.workspace) : ∃ ws, x.FlaggedFrom w ws ∧
      w.workspace.Steps (x.formulaStart w f) ∧
      (Build.lower x.child (w.workspace.formula f).tree).run (x.formulaStart w f) =
        (.ok (.node x.result), ws) := by
  obtain ⟨last, run, filled⟩ := h.runs
  rw [h.source] at hx
  have hf : f.index < w.workspace.formulas.size := Value.within_formula.1 hx
  have steps := Workspace.Steps.withChild wf hn x.argument
  have hc : x.child.index < (w.workspace.withChild x.node x.argument).builders.size := by
    rw [h.child]
    show _ < (w.workspace.builders.push _).size
    simp
  have started : w.workspace.Steps (x.formulaStart w f) :=
    .operation steps (.setFormulaBuilder f hc)
  obtain ⟨⟨⟩, set, hset, generated⟩ := run_bind_eq_ok run
  cases hset
  have formula : (x.formulaStart w f).formula f =
      { w.workspace.formula f with builder := some x.child } := by
    unfold Lowering.formulaStart
    rw [Workspace.formula_modifyFormula, if_pos ⟨rfl, hf⟩]
    rfl
  obtain ⟨ws, r, lowered, made⟩ := generate_eq_ok (congrArg Formula.builder formula) generated
  rw [formula] at lowered
  have wf₁ := (started.appends wf).wellFormed
  obtain ⟨continues, owned, -⟩ := lower_eq_ok wf₁ hc lowered
  refine ⟨ws, ⟨continues.wellFormed, (started.appends wf).grows.trans continues.grows, h.child,
    Value.within_node.1 owned.1, owned.2 _ rfl, ?_, ?_⟩, started, lowered⟩
  · rw [filled, made]
    rfl
  · rw [filled, made]
    rfl

end

/-! ## Flags of other nodes -/

namespace Workspace

variable (ws : Workspace) (n : NodeRef) (argument : Scalar)

theorem sameResults_withChild : ws.SameResults (ws.withChild n argument) :=
  let remember (node : Node) : Node := { node with
    callbackBuilders := Dictionary.insert argument ⟨ws.builders.size⟩ node.callbackBuilders }
  have same : ws.SameResults (ws.modifyNode n remember) := .modifyNode ws n fun _ => rfl
  same.trans (.of_nodes_eq rfl)

theorem size_nodes_withChild : (ws.withChild n argument).nodes.size = ws.nodes.size :=
  Arena.size_modify ..

end Workspace

section
variable {call : Documents σ → Callback → List Value → Run σ Value} {w now : World σ}
  {x : Lowering σ}

theorem Call.Begins.sameResults {names : List Value} {c : Call σ}
    (h : c.Begins w x.node x.argument names) : w.workspace.SameResults c.before.workspace :=
  (w.workspace.sameResults_withChild x.node x.argument).trans (.of_nodes_eq h.nodes)

theorem Call.Begins.size_nodes {names : List Value} {c : Call σ}
    (h : c.Begins w x.node x.argument names) :
    c.before.workspace.nodes.size = w.workspace.nodes.size := by
  rw [h.nodes, Workspace.size_nodes_withChild]

theorem Workspace.sameResults_formulaStart (w : World σ) (x : Lowering σ) (f : FormulaRef) :
    w.workspace.SameResults (x.formulaStart w f) :=
  (w.workspace.sameResults_withChild x.node x.argument).trans (.of_nodes_eq rfl)

/-- Filling a builder leaves the flags of older nodes alone, if the function does. -/
theorem Fills.old_flagged (wf : w.workspace.WellFormed)
    (hn : x.node.index < w.workspace.nodes.size)
    (hcall : ∀ depth, Calls.Operate (call (Documents.within call depth)))
    (h : Fills call w x) (hx : x.source.Within w.workspace)
    (keeps : ∀ c, x.call = some c → c.KeepsOldFlags) {n : NodeRef}
    (old : n.index < w.workspace.nodes.size) :
    x.filled.workspace.Flagged n ↔ w.workspace.Flagged n := by
  cases h with
  | @call f c h =>
    obtain ⟨names, begin⟩ := h.begin wf hn
    obtain ⟨ws, flagged, wrapped⟩ := h.flaggedFrom wf hn hcall
    have before : n.index < c.before.workspace.nodes.size := begin.size_nodes ▸ old
    have called := ((h.called wf hn hcall).1.appends (begin.steps.appends wf).wellFormed).grows
    have same := ((Documents.keeps_wrapList x.child c.value).of_run wrapped).keepsFlags
    rw [flagged.old_flagged wf old, same.old n (Nat.lt_of_lt_of_le before called.nodes),
      keeps c h.call_eq n before, begin.sameResults.keepsFlags.old n old]
  | @formula f h =>
    obtain ⟨ws, flagged, -, lowered⟩ := h.flaggedFrom wf hn hx
    have start := Workspace.sameResults_formulaStart w x f
    have same := start.trans ((Workspace.frame_sameResults.keeps_lower _ _).of_run lowered)
    rw [flagged.old_flagged wf old, same.keepsFlags.old n old]

theorem Lowers.old_flagged (hcall : ∀ depth, Calls.Operate (call (Documents.within call depth)))
    {tasks : List Task} {xs : List (Lowering σ)} (h : Lowers call w tasks xs now)
    (wf : w.workspace.WellFormed) (within : ∀ t ∈ tasks, t.Within w.workspace)
    (keeps : ∀ c ∈ xs.filterMap (·.call), c.KeepsOldFlags) :
    ∀ n : NodeRef, n.index < w.workspace.nodes.size →
      (now.workspace.Flagged n ↔ w.workspace.Flagged n) := by
  refine (h.induction hcall (P := fun w xs now => (∀ c ∈ xs.filterMap (·.call), c.KeepsOldFlags) →
    ∀ n : NodeRef, n.index < w.workspace.nodes.size →
      (now.workspace.Flagged n ↔ w.workspace.Flagged n))
    (fun _ _ _ _ => .rfl) ?append ?lowering wf within).2 keeps
  case append =>
    intro w now last xs ys wf steps _ first rest keeps n hn
    rw [List.filterMap_append] at keeps
    have grown := Nat.lt_of_lt_of_le hn (steps.appends wf).grows.nodes
    rw [rest (fun c hc => keeps c (List.mem_append_right _ hc)) n grown,
      first (fun c hc => keeps c (List.mem_append_left _ hc)) n hn]
  case lowering =>
    intro w now x inner wf hnode hx fills filled _ _ _ nested keeps n hn
    have grown := Nat.lt_of_lt_of_le hn (filled.appends wf).grows.nodes
    rw [nested (fun c hc => keeps c ?_) n grown,
      fills.old_flagged wf hnode hcall hx (fun c hc => keeps c ?_) hn]
    · exact List.mem_filterMap.2 ⟨x, List.mem_cons_self, hc⟩
    · obtain ⟨y, hy, e⟩ := List.mem_filterMap.1 hc
      exact List.mem_filterMap.2 ⟨y, List.mem_cons_of_mem _ hy, e⟩

/-! ## Flags in the document -/

/-- If one node is flagged and flags stay, the document of that node says so, and no other. -/
theorem Lowers.isResult_iff (hcall : ∀ depth, Calls.Operate (call (Documents.within call depth)))
    {nodes : List (String × NodeRef)} {graph : List (Scalar × Value)} {xs : List (Lowering σ)}
    (h : Lowers call w (Task.ofNodes nodes graph) xs now) (wf : w.workspace.WellFormed)
    (within : ∀ p ∈ nodes, p.2.index < w.workspace.nodes.size)
    (keys : graph.map (·.1) = nodes.map fun p => .str p.1)
    (keeps : ∀ c ∈ xs.filterMap (·.call), c.KeepsOldFlags) {n : NodeRef}
    (only : ∀ p ∈ nodes, (w.workspace.Flagged p.2 ↔ p.2 = n)) :
    List.Forall₂ (fun p e => e.1 = .str p.1 ∧ (e.2.isResult = true ↔ p.2 = n)) nodes graph := by
  induction nodes generalizing graph w xs with
  | nil =>
    obtain rfl : graph = [] := List.map_eq_nil_iff.1 keys
    exact .nil
  | cons p nodes ih =>
    match graph, keys with
    | e :: graph, keys =>
      obtain ⟨key, keys⟩ := List.cons_eq_cons.1 keys
      obtain ⟨arguments, after, ys, zs, rfl, document, exported, rest⟩ := Lowers.node_cases h
      rw [List.filterMap_append] at keeps
      have hn := within p List.mem_cons_self
      have inside : ∀ t ∈ Task.ofNamed p.2 _ arguments, t.Within w.workspace :=
        Task.within_ofNamed hn fun r hr => ((wf.node p.2 hn).arguments r hr).1
      have old := exported.old_flagged hcall wf inside fun c hc =>
        keeps c (List.mem_append_left _ hc)
      have appends := (exported.steps hcall wf inside).appends wf
      have others := fun q hq => within q (List.mem_cons_of_mem _ hq)
      refine .cons ⟨key, ?_⟩ (ih rest appends.wellFormed (fun q hq => ?_) keys
        (fun c hc => keeps c (List.mem_append_right _ hc)) fun q hq => ?_)
      · rw [document, Documents.isResult_describe]
        exact (old p.2 hn).trans (only p List.mem_cons_self)
      · exact Nat.lt_of_lt_of_le (others q hq) appends.grows.nodes
      · exact (old q.2 (others q hq)).trans (only q (List.mem_cons_of_mem _ hq))

/-- Nothing is lowered for nodes whose arguments make no documents. -/
theorem Lowers.eq_nil {nodes : List (String × NodeRef)} {graph : List (Scalar × Value)}
    {xs : List (Lowering σ)} (h : Lowers call w (Task.ofNodes nodes graph) xs now)
    (shown : ∀ p ∈ nodes,
      ∀ r ∈ Value.refsInEntries (w.workspace.node p.2).arguments, r.Shown) : xs = [] := by
  induction nodes generalizing graph w xs with
  | nil =>
    cases h
    rfl
  | cons p nodes ih =>
    match graph with
    | [] =>
      cases h
      rfl
    | e :: graph =>
      obtain ⟨arguments, after, ys, zs, rfl, -, exported, rest⟩ := Lowers.node_cases h
      rw [Task.ofNamed_eq_nil (shown p List.mem_cons_self)] at exported
      cases exported
      exact ih rest fun q hq => shown q (List.mem_cons_of_mem _ hq)

end

/-! ## Results -/

/-- What has become the result of the builder that was made after `w`. -/
inductive Lowering.IsResult (w : World σ) (x : Lowering σ) : Prop
  /-- The node that the function has returned. -/
  | node {c : Call σ} (call : x.call = some c) (value : c.value = .node x.result)
  /-- A new last node that makes an array of the items that the function has returned. -/
  | items {c : Call σ} {vs : List Value} {name : Scalar} (call : x.call = some c)
      (value : c.value = .list vs ∨ c.value = .tuple vs)
      (process : ((x.filled.workspace.node x.result).process,
        (x.filled.workspace.node x.result).space) =
          splitProcessId (x.filled.workspace.builder x.child).settings.arrayCreateProcess)
      (arguments : (x.filled.workspace.node x.result).arguments = [(name, .list vs)])
      (last : (x.filled.workspace.builder x.child).nodes =
        (c.after.workspace.builder x.child).nodes ++
          [((x.filled.workspace.node x.result).id, x.result)])
  /-- The node that the formula is lowered to, which is the last one. -/
  | formula {f : FormulaRef} {ws : Workspace} (source : x.source = .formula f)
      (lowered : (Build.lower x.child (w.workspace.formula f).tree).run (x.formulaStart w f) =
        (.ok (.node x.result), ws))
      (last : (x.filled.workspace.builder x.child).nodes.getLast? =
        some ((x.filled.workspace.node x.result).id, x.result))

/-- The graph in the document is that of the builder and has one result. -/
structure Lowering.OneResult (w : World σ) (x : Lowering σ) (graph : List (Scalar × Value)) :
    Prop where
  document : ∃ metadata, x.document = Documents.assemble graph metadata
  keys : graph.map (·.1) = (x.filled.workspace.builder x.child).nodes.map fun p => .str p.1
  results : (graph.filter fun e => e.2.isResult).map (·.1) =
    [.str (x.filled.workspace.node x.result).id]
  registered : Dictionary.get? (x.filled.workspace.node x.result).id
    (x.filled.workspace.builder x.child).nodes = some x.result
  result : x.IsResult w

/-- A single argument is bound to the first parameter. -/
theorem Specification.bind_singleton {spec : Specification} {v : Value} {entries : Value.Entries}
    (h : spec.bind [v] = .ok entries) : ∃ name, entries = [(name, v)] := by
  obtain ⟨names, pairs, -, length, bound, rfl⟩ := Specification.bind_eq_ok h
  match names, bound with
  | [], _ => simp at length
  | name :: _, .cons (b := (key, _)) ⟨_, rfl⟩ rest =>
    rw [List.zipWith_nil_right] at rest
    cases rest
    exact ⟨_, Dictionary.ofEntries_of_nodup (List.nodup_singleton _)⟩

theorem Ref.Plain.shown {ws : Workspace} {b : BuilderRef} {r : Ref} (h : r.Plain ws b) :
    r.Shown := by
  cases r with
  | node | parameter => trivial
  | access | builder | formula | callback => exact h.elim

section
variable {call : Documents σ → Callback → List Value → Run σ Value} {w now : World σ}
  {x : Lowering σ} (wf : w.workspace.WellFormed) (hn : x.node.index < w.workspace.nodes.size)
include wf hn

/-- A function that sets no flags gets its builder one, for what it returns. -/
theorem FillsByCall.oneFlag (hcall : ∀ depth, Calls.Operate (call (Documents.within call depth)))
    {f : Callback} {c : Call σ} (h : FillsByCall call w f x c) (behaves : c.Behaves) :
    x.filled.workspace.OneFlag x.child x.result ∧ x.IsResult w := by
  obtain ⟨names, begin⟩ := h.begin wf hn
  obtain ⟨called, within⟩ := h.called wf hn hcall
  obtain ⟨ws, flagged, wrapped⟩ := h.flaggedFrom wf hn hcall
  have wf₁ := (begin.steps.appends wf).wellFormed
  have appends := called.appends wf₁
  have hc₁ : x.child.index < c.before.workspace.builders.size := h.child_eq ▸ begin.child_lt
  have hc : x.child.index < c.after.workspace.builders.size :=
    Nat.lt_of_lt_of_le hc₁ appends.grows.builders
  obtain ⟨-, g, -⟩ :=
    (Documents.ensures_wrapList appends.wellFormed (.refl _) hc within).of_run wrapped
  have same := (Documents.keeps_wrapList x.child c.value).of_run wrapped
  have keeps := (behaves.flagless.keepsFlags wf₁).trans same.keepsFlags appends.grows g
  rcases Documents.wrapList_eq_ok wrapped with ⟨value, rfl⟩ | ⟨vs, value, invoked⟩
  · have registered := behaves.registered _ value
    rw [flagged.owner] at registered
    exact ⟨flagged.oneFlag wf begin.size_nodes hc₁ keeps registered, .node h.call_eq value⟩
  · have items : (Value.list [.list vs]).Within c.after.workspace := by
      refine Value.within_list.2 fun v hv => ?_
      obtain rfl := List.mem_singleton.1 hv
      rcases value with value | value <;> rw [value] at within
      · exact within
      · exact Value.within_list.2 (Value.within_tuple.1 within)
    obtain ⟨-, -, is, -, -, nodes, registered⟩ :=
      (Build.ensures_invoke (appends.wellFormed.extends _ _)
        (Workspace.open_of_within hc) _ items .null none).of_run invoked
    obtain ⟨name, arguments⟩ := Specification.bind_singleton is.arguments
    refine ⟨flagged.oneFlag wf begin.size_nodes hc₁ keeps registered,
      .items h.call_eq value ?_ (?_ : _ = [(name, Value.list vs)]) ?_⟩
    · rw [flagged.node, if_pos rfl, flagged.builder, (g.builder x.child hc).2.1]
      exact is.process
    · rw [flagged.node, if_pos rfl]
      exact arguments
    · rw [flagged.node, if_pos rfl, flagged.builder]
      exact nodes

omit wf hn in
/-- The new builder is empty when the formula is lowered. -/
theorem FillsByFormula.child_eq {f : FormulaRef} (h : FillsByFormula w f x) :
    x.child.index < (x.formulaStart w f).builders.size ∧
      ((x.formulaStart w f).builder x.child).nodes = [] := by
  have size : (x.formulaStart w f).builders.size = w.workspace.builders.size + 1 :=
    Array.size_push ..
  have child : (x.formulaStart w f).builder x.child = w.workspace.newChild x.node x.argument := by
    rw [h.child]
    exact w.workspace.builder_withChild_self x.node x.argument
  rw [size, child, h.child]
  exact ⟨Nat.lt_succ_self _, rfl⟩

theorem FillsByFormula.oneFlag {f : FormulaRef} (h : FillsByFormula w f x)
    (hx : x.source.Within w.workspace) :
    x.filled.workspace.OneFlag x.child x.result ∧ x.IsResult w := by
  obtain ⟨ws, flagged, steps, lowered⟩ := h.flaggedFrom wf hn hx
  obtain ⟨hc, none_yet⟩ := h.child_eq
  have wf₁ := (steps.appends wf).wellFormed
  obtain ⟨-, registered⟩ := addsNodes_lower wf₁ hc _ (fun _ => .rfl) lowered
  have same := (Workspace.frame_sameResults.keeps_lower _ _).of_run lowered
  have last := lower_last wf₁ hc none_yet _ lowered
  have size : (x.formulaStart w f).nodes.size = w.workspace.nodes.size :=
    w.workspace.size_nodes_withChild x.node x.argument
  refine ⟨flagged.oneFlag wf size hc same.keepsFlags ?_, .formula h.source lowered ?_⟩
  · refine flagged.wellFormed.get?_of_registeredIn ?_ registered
    exact flagged.owner ▸ (flagged.wellFormed.node x.result flagged.within).owner
  · rw [flagged.node, if_pos rfl, flagged.builder]
    exact last

/-- The nodes of a formula have nothing in their arguments that makes a document. -/
theorem FillsByFormula.shown {f : FormulaRef} (h : FillsByFormula w f x)
    (hx : x.source.Within w.workspace) : ∀ p ∈ (x.filled.workspace.builder x.child).nodes,
      ∀ r ∈ Value.refsInEntries (x.filled.workspace.node p.2).arguments, r.Shown := by
  obtain ⟨ws, flagged, steps, lowered⟩ := h.flaggedFrom wf hn hx
  obtain ⟨hc, none_yet⟩ := h.child_eq
  have wf₁ := (steps.appends wf).wellFormed
  have start : (x.formulaStart w f).PlainNodes x.child := by
    intro p hp
    rw [none_yet] at hp
    exact nomatch hp
  have plain := plain_lower wf₁ hc start _ lowered
  intro p hp r hr
  rw [flagged.builder] at hp
  have arguments : (x.filled.workspace.node p.2).arguments = (ws.node p.2).arguments := by
    rw [flagged.node]
    split <;> rfl
  exact (plain p hp r (arguments ▸ hr)).shown

end

/-- A registered node is registered once. -/
theorem Builder.Ok.filter_eq_singleton {ws : Workspace} {b : BuilderRef} {builder : Builder}
    (h : builder.Ok ws b) {n : NodeRef}
    (registered : Dictionary.get? (ws.node n).id builder.nodes = some n) :
    builder.nodes.filter (fun p => p.2 = n) = [((ws.node n).id, n)] := by
  have mem := Dictionary.mem_of_get? registered
  have same : ∀ p ∈ builder.nodes,
      decide (p.2 = n) = decide (p = ((ws.node n).id, n)) := by
    rintro ⟨id, m⟩ hp
    have own := (h.nodes id m hp).2.2
    simp only [Prod.mk.injEq, decide_eq_decide]
    constructor
    · rintro rfl
      exact ⟨own.symm, rfl⟩
    · exact And.right
  rw [List.filter_congr same, List.filter_eq,
    List.count_eq_one_of_mem (List.Nodup.of_map _ h.nodup) mem]
  rfl

/-- The keys of documents that say that their nodes are results. -/
theorem keys_of_results {nodes : List (String × NodeRef)} {graph : List (Scalar × Value)}
    {n : NodeRef} (shows : List.Forall₂ (fun p e =>
      e.1 = .str p.1 ∧ (e.2.isResult = true ↔ p.2 = n)) nodes graph) :
    (graph.filter fun e => e.2.isResult).map (·.1) =
      (nodes.filter fun p => p.2 = n).map fun p => .str p.1 := by
  induction shows with
  | nil => rfl
  | @cons p e nodes graph first _ ih =>
    obtain ⟨key, is⟩ := first
    by_cases h : p.2 = n
    · simp [h, is.2 h, key, ih]
    · have other : e.2.isResult = false := by simpa using fun r => h (is.1 r)
      simp [h, other, ih]

/-- If one node of an embedded graph is flagged when its builder has got its nodes, and flags stay,
then the document shows that. -/
theorem Lowering.Runs.results {call : Documents σ → Callback → List Value → Run σ Value}
    (hcall : ∀ depth, Calls.Operate (call (Documents.within call depth))) {x : Lowering σ}
    {before last : World σ} {inner : List (Lowering σ)} (h : x.Runs call before inner last)
    (one : x.filled.workspace.OneFlag x.child x.result)
    (keeps : ∀ c ∈ x.inside, c.KeepsOldFlags) : ∃ graph metadata,
      x.document = Documents.assemble graph metadata ∧
      graph.map (·.1) = (x.filled.workspace.builder x.child).nodes.map (fun p => .str p.1) ∧
      (graph.filter fun e => e.2.isResult).map (·.1) =
        [.str (x.filled.workspace.node x.result).id] := by
  obtain ⟨graph, assembled, lowers⟩ := h.exports
  obtain ⟨steps, hc⟩ := h.fills.steps hcall h.wellFormed h.node h.source
  have wf := (steps.appends h.wellFormed).wellFormed
  have ok := wf.builder x.child hc
  rw [h.inside] at keeps
  have shows := lowers.isResult_iff hcall wf (fun p hp => (ok.nodes p.1 p.2 hp).1) assembled.keys
    keeps one.only
  refine ⟨graph, _, assembled.document, assembled.keys, ?_⟩
  rw [keys_of_results shows, ok.filter_eq_singleton one.registered]
  rfl

/-- **Embedded graphs have one result.** In every document that is made, each formula and each
function in the arguments of a node, at any depth and in the graphs of other functions, is embedded
as a graph with one result. For a function that is so if it sets no flags itself and returns no node
that it has rolled back, and if the functions that are called while its graph is exported leave
the flags of the nodes alone that are there. -/
theorem Documents.results_unique {call : Documents σ → Callback → List Value → Run σ Value}
    (hcall : ∀ depth, Calls.Operate (call (within call depth))) {w now : World σ}
    (h : w.workspace.Reachable) {b : BuilderRef} (hb : b.index < w.workspace.builders.size)
    {depth : Nat} {document : Value}
    (run : ((within call depth).builder b).run w = (.ok document, now)) :
    ∃ xs, Exports call w b document xs now ∧
      ∀ x ∈ xs, (∀ c, x.call = some c → c.Behaves ∧ ∀ c' ∈ x.inside, c'.KeepsOldFlags) →
        ∃ before graph, w.workspace.Steps before.workspace ∧ Fills call before x ∧
          x.OneResult before graph := by
  have wf := h.wellFormed
  obtain ⟨xs, exports⟩ := exports_within run
  refine ⟨xs, exports, fun x hx conduct => ?_⟩
  obtain ⟨graph, assembled, lowers⟩ := exports
  obtain ⟨before, inner, last, steps, runs⟩ :=
    lowers.runs hcall wf (Task.within_ofNodes wf hb graph) x hx
  have one : x.filled.workspace.OneFlag x.child x.result ∧ x.IsResult before ∧
      ∀ c ∈ x.inside, c.KeepsOldFlags := by
    cases runs.fills with
    | call fills =>
      obtain ⟨behaves, keeps⟩ := conduct _ fills.call_eq
      obtain ⟨one, result⟩ := fills.oneFlag runs.wellFormed runs.node hcall behaves
      exact ⟨one, result, keeps⟩
    | formula fills =>
      obtain ⟨one, result⟩ := fills.oneFlag runs.wellFormed runs.node runs.source
      obtain ⟨graph, assembled, lowers⟩ := runs.exports
      have nothing := lowers.eq_nil (fills.shown runs.wellFormed runs.node runs.source)
      refine ⟨one, result, fun c hc => ?_⟩
      rw [runs.inside, nothing] at hc
      exact nomatch hc
  obtain ⟨graph, metadata, document, keys, results⟩ := runs.results hcall one.1 one.2.2
  exact ⟨before, graph, steps, runs.fills, ⟨metadata, document⟩, keys, results, one.1.registered,
    one.2.1⟩

/-! ## Builders with one node -/

/-- The graph in a document. -/
def Value.graph (document : Value) : List (Scalar × Value) :=
  ((field? "process_graph" document.entries).getD .null).entries

/-- The arguments in the document of a node. -/
def Value.exported (document : Value) : List (Scalar × Value) :=
  ((field? "arguments" document.entries).getD .null).entries

@[simp] theorem Value.graph_assemble (graph : List (Scalar × Value)) (metadata : Metadata) :
    (Documents.assemble graph metadata).graph = graph := rfl

@[simp] theorem Value.exported_describe (node now : Node) (arguments : List (Scalar × Value)) :
    (Documents.describe node now arguments).exported = arguments := by
  unfold Documents.describe exported object entries field?
  cases node.space <;> simp [Dictionary.get?]

/-- The only node of a builder is what is exported first. -/
theorem Exports.only_node {call : Documents σ → Callback → List Value → Run σ Value}
    {w now : World σ} {b : BuilderRef} {document : Value} {xs : List (Lowering σ)} {id : String}
    {n : NodeRef} (h : Exports call w b document xs now)
    (nodes : (w.workspace.builder b).nodes = [(id, n)]) : ∃ after ys, ys ⊆ xs ∧
      Lowers call w (Task.ofNamed n (w.workspace.node n).arguments
        (document.graph.headD (.null, .null)).2.exported) ys after := by
  obtain ⟨graph, assembled, lowers⟩ := h
  have one : graph.length = 1 := by simpa [nodes] using congrArg List.length assembled.keys
  obtain ⟨entry, rfl⟩ := List.length_eq_one_iff.1 one
  rw [nodes] at lowers
  obtain ⟨exported, after, ys, zs, rfl, described, lowers, -⟩ := lowers.node_cases
  refine ⟨after, ys, List.subset_append_left .., ?_⟩
  rwa [assembled.document, Value.graph_assemble, List.headD_cons, described,
    Value.exported_describe]

/-! ## Sums of numbers -/

section
variable {ws now : Workspace} {b : BuilderRef} {process : String} {arguments : Value} {n : NodeRef}

/-- A call of a process flags nothing and registers its node. -/
theorem flagless_invoke (wf : ws.WellFormed) (hb : b.index < ws.builders.size)
    (hv : arguments.Within ws) (run : (Build.invoke b process arguments).run ws = (.ok n, now)) :
    ws.Flagless now ∧ (now.node n).builder = b ∧
      Dictionary.get? (now.node n).id (now.builder b).nodes = some n := by
  obtain ⟨-, -, is, -, -, -, registered⟩ := (Build.ensures_invoke (wf.extends _ _)
    (Workspace.open_of_within hb) process hv .null none).of_run run
  have op : ws.FlaglessOperation ((Build.invoke b process arguments).run ws).2 :=
    .own hb (.invoke process hv .null none)
  rw [run] at op
  exact ⟨.operation (.refl ws) op, is.builder, registered⟩

theorem Run.operates_invoke {w : World σ} (wf : w.workspace.WellFormed)
    (hb : b.index < w.workspace.builders.size) (process : String)
    (hv : arguments.Within w.workspace) :
    Run.Operates w (liftM (Build.invoke b process arguments)) fun n now =>
      (Value.node n).Within now.workspace :=
  Run.Ensures.lift ((Build.Ensures.operation (.refl _) (.invoke hb process hv .null none)
    (Build.ensures_invoke (wf.extends _ _) (Workspace.open_of_within hb) process hv .null
      none)).mono fun _ _ _ _ is => Value.within_node.2 is.1.within) fun _ => id

end

theorem within_numbers (x y : Int) (ws : Workspace) : (Value.list [.int x, .int y]).Within ws :=
  nofun

/-- All functions add numbers. -/
def addNumbers (_ : Documents Unit) (_ : Callback) : List Value → Run Unit Value
  | .builder b :: _ => do return .node (← Build.invoke b "add" (.list [.int 1, .int 2]))
  | _ => throw .wrongType

theorem operate_addNumbers (depth : Nat) :
    Calls.Operate (addNumbers (Documents.within addNumbers depth)) := by
  intro w f arguments wf given
  unfold addNumbers
  split
  · exact (Run.operates_invoke wf (Value.within_builder.1 (given _ List.mem_cons_self)) "add"
      (within_numbers 1 2 _)).bind fun _ _ steps _ within => .pure steps within
  · exact .throw (.refl _)

theorem Call.behaves_addNumbers {depth : Nat} {c : Call Unit}
    (wf : c.before.workspace.WellFormed) (given : ∀ v ∈ c.arguments, v.Within c.before.workspace)
    (run : (addNumbers (Documents.within addNumbers depth) c.function c.arguments).run c.before =
      (.ok c.value, c.after)) : c.Behaves := by
  unfold addNumbers at run
  generalize c.arguments = arguments at run given
  split at run
  · obtain ⟨n, ws, added, run⟩ := Run.run_lift_bind_eq_ok run
    obtain ⟨flagless, owner, registered⟩ := flagless_invoke wf
      (Value.within_builder.1 (given _ List.mem_cons_self)) (within_numbers 1 2 _) added
    have ended : c.value = .node n ∧ c.after.workspace = ws := by
      injection run with value after
      injection value with value
      exact ⟨value.symm, after ▸ rfl⟩
    refine ⟨ended.2 ▸ flagless, fun m hm => ?_⟩
    rw [ended.1] at hm
    cases hm
    rw [ended.2, owner]
    exact registered
  · cases run

theorem Lowering.Runs.behaves_addNumbers {x : Lowering Unit} {before last : World Unit}
    {inner : List (Lowering Unit)} (h : x.Runs addNumbers before inner last) {c : Call Unit}
    (hc : x.call = some c) : c.Behaves ∧ c.KeepsOldFlags := by
  cases h.fills with
  | formula fills =>
    rw [fills.call_eq] at hc
    cases hc
  | call fills =>
    rw [fills.call_eq] at hc
    cases hc
    obtain ⟨names, begin⟩ := fills.begin h.wellFormed h.node
    obtain ⟨depth, run⟩ := fills.runs
    rw [← fills.function] at run
    have wf := (begin.steps.appends h.wellFormed).wellFormed
    have behaves := Call.behaves_addNumbers wf begin.given run
    exact ⟨behaves, (behaves.flagless.keepsFlags wf).old⟩

/-- A node whose argument is a list of a function and a formula. -/
def Workspace.embedding : Workspace :=
  let ws := ((Build.createBuilder (.list [binaryProcess "add", callbackProcess "apply"]) .null none
    none []).run {}).2
  let ws := ((Build.createFormula "1 + 2").run ws).2
  ((Build.invoke ⟨0⟩ "apply"
    (.list [.int 1, .list [.callback ⟨0, 2, false⟩, .formula ⟨0⟩]])).run ws).2

theorem Workspace.reachable_embedding : Workspace.embedding.Reachable := by
  refine .operation (.operation (.operation (.refl _) (.createBuilder _ _ none none [] nofun))
    (.createFormula "1 + 2")) (.invoke (by decide +kernel) "apply" ?_ .null none)
  intro r hr
  simp [Value.refs, Value.refsInList] at hr
  rcases hr with rfl | rfl
  · trivial
  · show (0 : Nat) < _
    decide +kernel

/-- Both graphs have one result. -/
theorem Documents.results_unique_embedding : ∃ document now xs,
    ((within addNumbers 2).builder ⟨0⟩).run ⟨.embedding, ()⟩ = (.ok document, now) ∧
    Exports addNumbers ⟨.embedding, ()⟩ ⟨0⟩ document xs now ∧
    (∃ x ∈ xs, x.source = .callback ⟨0, 2, false⟩) ∧ (∃ x ∈ xs, x.source = .formula ⟨0⟩) ∧
    ∀ x ∈ xs, ∃ before graph, Fills addNumbers before x ∧ x.OneResult before graph := by
  have made : (((within addNumbers 2).builder ⟨0⟩).run ⟨Workspace.embedding, ()⟩).1.isOk := by
    decide +kernel
  have hb : (0 : Nat) < Workspace.embedding.builders.size := by decide +kernel
  have nodes : (Workspace.embedding.builder ⟨0⟩).nodes = [("apply1", ⟨0⟩)] := by decide +kernel
  have arguments : (Workspace.embedding.node ⟨0⟩).arguments =
      [(.str "data", .int 1),
        (.str "process", .list [.callback ⟨0, 2, false⟩, .formula ⟨0⟩])] := rfl
  have reachable := Workspace.reachable_embedding
  generalize Workspace.embedding = ws at *
  rcases run : ((within addNumbers 2).builder ⟨0⟩).run ⟨ws, ()⟩ with
    ⟨e | document, now⟩
  · rw [run] at made
    cases made
  obtain ⟨xs, exports, results⟩ :=
    results_unique operate_addNumbers reachable (b := ⟨0⟩) hb run
  obtain ⟨after, ys, sub, lowered⟩ := exports.only_node nodes
  rw [arguments] at lowered
  refine ⟨document, now, xs, rfl, exports, ?_, ?_, fun x hx => ?_⟩
  · obtain ⟨x, hx, -, -, source, -⟩ := lowered.exists_of_embed (List.mem_append_right _
      List.mem_cons_self) nofun
    exact ⟨x, sub hx, source⟩
  · obtain ⟨x, hx, -, -, source, -⟩ := lowered.exists_of_embed (List.mem_append_right _
      (List.mem_cons_of_mem _ List.mem_cons_self)) nofun
    exact ⟨x, sub hx, source⟩
  obtain ⟨graph, -, lowers⟩ := exports
  have wf := reachable.wellFormed
  obtain ⟨before, inner, last, -, runs⟩ := lowers.runs operate_addNumbers wf
    (Task.within_ofNodes wf hb graph) x hx
  obtain ⟨before', graph', -, fills, one⟩ := results x hx fun c hc => by
    refine ⟨(runs.behaves_addNumbers hc).1, fun c' hc' => ?_⟩
    rw [runs.inside] at hc'
    obtain ⟨y, hy, hyc⟩ := List.mem_filterMap.1 hc'
    obtain ⟨graph, -, lowers⟩ := runs.exports
    obtain ⟨steps, child⟩ := runs.fills.steps operate_addNumbers runs.wellFormed runs.node
      runs.source
    have wf := (steps.appends runs.wellFormed).wellFormed
    obtain ⟨_, _, _, -, nested⟩ := lowers.runs operate_addNumbers wf
      (Task.within_ofNodes wf child graph) y hy
    exact (nested.behaves_addNumbers hyc).2
  exact ⟨before', graph', fills, one⟩

/-! ## A flag that a nested function sets -/

/-- The first function applies the second one and adds numbers. The second one flags that sum. -/
def flagSum (_ : Documents Unit) (f : Callback) : List Value → Run Unit Value
  | .builder b :: _ => do
    if f.handle = 0 then
      let n ← Build.invoke b "apply" (.list [.int 1, .callback ⟨1, 2, false⟩])
      let _ ← Build.invoke b "add" (.list [.int 1, .int 2])
      return .node n
    else
      let ws ← Run.workspace
      let sum := (ws.builder b).parent.bind fun p => Dictionary.get? "add1" (ws.builder p).nodes
      Build.setResult (sum.getD ⟨0⟩) (.bool true)
      return .node (← Build.invoke b "add" (.list [.int 3, .int 4]))
  | _ => throw .wrongType

/-- A node that applies the first function. -/
def Workspace.flagging : Workspace :=
  let ws := ((Build.createBuilder (.list [binaryProcess "add", callbackProcess "apply"]) .null none
    none []).run {}).2
  ((Build.invoke ⟨0⟩ "apply" (.list [.int 1, .callback ⟨0, 2, false⟩])).run ws).2

theorem within_applied (f : Callback) (ws : Workspace) :
    (Value.list [.int 1, .callback f]).Within ws := by
  intro r hr
  cases List.mem_singleton.1 hr
  trivial

theorem operate_flagSum (depth : Nat) :
    Calls.Operate (flagSum (Documents.within flagSum depth)) := by
  intro w f arguments wf given
  unfold flagSum
  split
  · rename_i b rest
    have hb := Value.within_builder.1 (given _ List.mem_cons_self)
    refine .ite (fun _ => ?_) fun _ => .workspace_bind ?_
    · refine (Run.operates_invoke wf hb "apply" (within_applied _ _)).bind
        fun n w₁ steps g within => ?_
      have wf₁ := (steps.appends wf).wellFormed
      have hb₁ := Nat.lt_of_lt_of_le hb g.builders
      exact ((Run.operates_invoke wf₁ hb₁ "add" (within_numbers 1 2 _)).after steps).bind
        fun _ _ steps g _ => .pure steps (g.value_within within)
    · refine (Run.Ensures.lift (Documents.ensures_setResult _ _ (.refl _)) fun _ => id).bind
        fun _ w₁ steps g _ => ?_
      have wf₁ := (steps.appends wf).wellFormed
      have hb₁ := Nat.lt_of_lt_of_le hb g.builders
      exact ((Run.operates_invoke wf₁ hb₁ "add" (within_numbers 3 4 _)).after steps).bind
        fun _ _ steps _ within => .pure steps within
  · exact .throw (.refl _)

/-- The first function sets no flags itself. -/
theorem Call.behaves_flagSum {depth : Nat} {c : Call Unit} (first : c.function.handle = 0)
    (wf : c.before.workspace.WellFormed) (given : ∀ v ∈ c.arguments, v.Within c.before.workspace)
    (run : (flagSum (Documents.within flagSum depth) c.function c.arguments).run c.before =
      (.ok c.value, c.after)) : c.Behaves := by
  unfold flagSum at run
  generalize c.arguments = arguments at run given
  split at run
  · rename_i b rest
    have hb := Value.within_builder.1 (given _ List.mem_cons_self)
    rw [if_pos first] at run
    obtain ⟨n, ws₁, applied, run⟩ := Run.run_lift_bind_eq_ok run
    obtain ⟨m, ws₂, added, run⟩ := Run.run_lift_bind_eq_ok run
    obtain ⟨flagless, owner, registered⟩ := flagless_invoke wf hb (within_applied _ _) applied
    have appends := (flagless.steps wf).appends wf
    have hb₁ := Nat.lt_of_lt_of_le hb appends.grows.builders
    obtain ⟨flagless₂, -⟩ := flagless_invoke appends.wellFormed hb₁ (within_numbers 1 2 _) added
    have appends₂ := (flagless₂.steps appends.wellFormed).appends appends.wellFormed
    have old : n.index < ws₁.nodes.size :=
      ((appends.wellFormed.builder b hb₁).nodes _ n (Dictionary.mem_of_get? registered)).1
    have same := appends₂.grows.node n old
    have ended : c.value = .node n ∧ c.after.workspace = ws₂ := by
      injection run with value after
      injection value with value
      exact ⟨value.symm, after ▸ rfl⟩
    refine ⟨?_, fun k hk => ?_⟩
    · exact ended.2 ▸ flagless.trans flagless₂
    · rw [ended.1] at hk
      cases hk
      rw [ended.2, same.builder, owner, same.id]
      exact (appends₂.nodes b hb₁).get? registered
  · cases run

/-- The graph of the first function has two results: its sum is flagged, too. -/
theorem Documents.results_doubled : ∃ document now,
    ((within flagSum 3).builder ⟨0⟩).run ⟨.flagging, ()⟩ = (.ok document, now) ∧
    ∀ xs, Exports flagSum ⟨.flagging, ()⟩ ⟨0⟩ document xs now → ∃ x ∈ xs,
      (∀ c, x.call = some c → c.Behaves) ∧ ∃ graph metadata, x.document = assemble graph metadata ∧
        (graph.filter fun e => e.2.isResult).map (·.1) = [.str "apply1", .str "add1"] := by
  have found : (((within flagSum 3).builder ⟨0⟩).run ⟨Workspace.flagging, ()⟩).1.toOption.map
      (fun document => (((document.graph.headD (.null, .null)).2.exported.tail.headD
        (.null, .null)).2.graph.filter fun e => e.2.isResult).map (·.1)) =
      some [.str "apply1", .str "add1"] := by decide +kernel
  have nodes : (Workspace.flagging.builder ⟨0⟩).nodes = [("apply1", ⟨0⟩)] := by decide +kernel
  have arguments : (Workspace.flagging.node ⟨0⟩).arguments =
      [(.str "data", .int 1), (.str "process", .callback ⟨0, 2, false⟩)] := rfl
  have reachable : Workspace.flagging.Reachable :=
    .operation (.operation (.refl _) (.createBuilder _ _ none none [] nofun))
      (.invoke (by decide +kernel) "apply" (within_applied _ _) .null none)
  have hb : (0 : Nat) < Workspace.flagging.builders.size := by decide +kernel
  generalize Workspace.flagging = ws at *
  have wf := reachable.wellFormed
  rcases run : ((within flagSum 3).builder ⟨0⟩).run ⟨ws, ()⟩ with ⟨e | document, now⟩
  · rw [run] at found
    cases found
  rw [run] at found
  refine ⟨document, now, rfl, fun xs exports => ?_⟩
  obtain ⟨after, ys, sub, lowered⟩ := exports.only_node nodes
  rw [arguments] at lowered
  obtain ⟨x, hx, -, -, source, shown⟩ := lowered.exists_of_embed (List.mem_append_right _
    List.mem_cons_self) nofun
  obtain ⟨graph, assembled, lowers⟩ := exports
  obtain ⟨before, inner, last, -, runs⟩ :=
    lowers.runs operate_flagSum wf (Task.within_ofNodes wf hb graph) x (sub hx)
  obtain ⟨nested, embedded, -⟩ := runs.exports
  refine ⟨x, sub hx, fun c hc => ?_, nested, _, embedded.document, ?_⟩
  · cases runs.fills with
    | formula fills => exact absurd (fills.call_eq.symm.trans hc) nofun
    | call fills =>
      obtain rfl : _ = c := Option.some.inj (fills.call_eq.symm.trans hc)
      obtain ⟨names, begin⟩ := fills.begin runs.wellFormed runs.node
      obtain ⟨depth, run⟩ := fills.runs
      have first : Value.callback _ = .callback _ := fills.source.symm.trans source
      rw [← fills.function] at run first
      injection first with first
      exact Call.behaves_flagSum (by rw [first])
        (begin.steps.appends runs.wellFormed).wellFormed begin.given run
  · have two := Option.some.inj found
    beta_reduce at two
    rwa [← shown, embedded.document, Value.graph_assemble] at two

end ProcessGraph
