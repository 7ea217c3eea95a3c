import ProcessGraph.Proofs.Graph.FormulaDeclarations

/-!
# Declarations that come back

A node keeps the parameters that it was called with. When another node takes it as an argument, they
are declared again, as they were then. So what has been declared for a name since is merged with the
older declaration: a call merges the declarations of all parameters of that name that its arguments
reach, in the order in which they are found (`declaration?_invoke`).

Main statement: a declaration survives calls on nodes as long as none of the nodes reaches a
parameter of its name with other entries (`calls_redeclare`). Otherwise entries of it get lost.
-/

set_option autoImplicit false

namespace ProcessGraph

namespace Workspace

/-- Calls in a builder, one after the other, with arguments that refer to nodes only. -/
inductive NodeCalls (b : BuilderRef) : Workspace → Workspace → Prop where
  | refl (ws : Workspace) : NodeCalls b ws ws
  | call {ws now after : Workspace} (h : NodeCalls b ws now) {process : String}
      {arguments description : Value} {space : Option String} {n : NodeRef}
      (nodes : ∀ x ∈ arguments.refs, ∃ m : NodeRef, x = .node m ∧ m.index < now.nodes.size)
      (run : (Build.invoke b process arguments description space).run now = (.ok n, after)) :
      NodeCalls b ws after

/-- Whatever a node reaches under the name has been merged into the declaration. -/
def UpToDate (ws : Workspace) (b : BuilderRef) (s : String) (d : Value.Entries) : Prop :=
  ∀ n : NodeRef, n.index < ws.nodes.size →
    ws.Confines b (fun p => p.name = .str s → Dictionary.insertAll d p.declaration = d) (.node n)

end Workspace

/-! ## Calls -/

section
variable {ws now : Workspace} {b : BuilderRef} (h : ws.WellFormed)
  (hb : b.index < ws.builders.size)
include h hb

section
variable {process : String} {arguments description : Value} {space : Option String} {n : NodeRef}
  (run : (Build.invoke b process arguments description space).run ws = (.ok n, now))
include run

theorem declaration?_invoke (hv : arguments.Within ws) (s : String) :
    now.declaration? b s = Value.merged s (ws.declaration? b s)
      ((ws.reached b (now.node n).arguments).map Parameter.declaration) := by
  obtain ⟨-, g, -⟩ := (Build.ensures_invoke (h.extends (fun _ => True) fun _ => True)
    (Workspace.open_of_within hb) process hv description space).of_run run
  exact (redeclares_call h hb hv run).declaration?_eq (h.root_eq g hb) s

omit hb in
/-- A call makes one node. -/
theorem size_nodes_invoke (hb : b.index < ws.builders.size) :
    now.nodes.size = ws.nodes.size + 1 := by
  obtain ⟨made, r, hmade, rfl⟩ := Build.invoke_eq_makeNode run
  obtain ⟨spec, entries, id, w₁, w₂, -, -, numbered, declared, pushed⟩ := Build.makeNode_eq_ok hmade
  obtain ⟨c₁, g₁, same₁, -⟩ := (Build.ensures_generateId (h.extends (fun _ => True) fun _ => True)
    (Workspace.open_of_within hb) _).of_run numbered
  obtain ⟨-, -, same₂⟩ := (Build.ensures_declareAll (c₁.wellFormed.extends (fun _ => True)
    fun _ => True) (Workspace.open_of_within (Nat.lt_of_lt_of_le hb g₁.builders)) _).of_run declared
  cases pushed
  show (w₂.nodes.push _).size = _
  rw [Arena.size_push, same₂.nodes, same₁.nodes]

variable {s : String} {d : Value.Entries} (current : ws.UpToDate b s d)
  (nodes : ∀ x ∈ arguments.refs, ∃ m : NodeRef, x = .node m ∧ m.index < ws.nodes.size)
include current nodes

/-- Nodes with nothing but up-to-date parameters give nodes of this kind. -/
theorem Workspace.UpToDate.invoke : now.UpToDate b s d := by
  have hv : arguments.Within ws := fun x hx => by
    obtain ⟨m, rfl, hm⟩ := nodes x hx
    exact hm
  obtain ⟨c, g, is, -⟩ := (Build.ensures_invoke (h.extends (fun _ => True) fun _ => True)
    (Workspace.open_of_within hb) process hv description space).of_run run
  have old (m : NodeRef) (hm : m.index < ws.nodes.size) := (current m hm).grow h g
    (c.kept.parentNames h hb) (Value.within_node.2 hm)
  intro m hm
  by_cases before : m.index < ws.nodes.size
  · exact old m before
  · have size := size_nodes_invoke h run hb
    have new : ws.nodes.size ≤ n.index := is.new
    have last := is.within
    have same : m = n := by
      obtain ⟨i⟩ := m
      obtain ⟨j⟩ := n
      simp only [NodeRef.mk.injEq] at *
      omega
    subst same
    refine confines_node fun x hx => ?_
    obtain ⟨k, rfl, hk⟩ := nodes x (Specification.refs_of_bindArguments is.arguments x hx)
    exact old k hk _ List.mem_cons_self

/-- They declare nothing new. -/
theorem Workspace.UpToDate.declaration?_invoke (declared : ws.declaration? b s = some d) :
    now.declaration? b s = some d := by
  have hv : arguments.Within ws := fun x hx => by
    obtain ⟨m, rfl, hm⟩ := nodes x hx
    exact hm
  obtain ⟨-, -, is, -⟩ := (Build.ensures_invoke (h.extends (fun _ => True) fun _ => True)
    (Workspace.open_of_within hb) process hv description space).of_run run
  rw [ProcessGraph.declaration?_invoke h hb run hv, declared]
  refine Value.merged_eq_self fun e he called => ?_
  obtain ⟨p, hp, rfl⟩ := List.mem_map.1 he
  obtain ⟨declares, x, hx, r, reached, rfl⟩ :=
    h.reaches_of_mem_reached (fun x hx => (hv.entries is.arguments x hx).2) hp
  obtain ⟨m, rfl, hm⟩ := nodes x (Specification.refs_of_bindArguments is.arguments x hx)
  exact current m hm _ List.mem_cons_self r reached declares called

end

end

/-! ## Sequences of calls -/

section
variable {ws now : Workspace} {b : BuilderRef} {s : String} {d : Value.Entries}

theorem Workspace.NodeCalls.upToDate (calls : ws.NodeCalls b now) (h : ws.WellFormed)
    (hb : b.index < ws.builders.size) (current : ws.UpToDate b s d)
    (declared : ws.declaration? b s = some d) :
    now.WellFormed ∧ b.index < now.builders.size ∧ now.UpToDate b s d ∧
      now.declaration? b s = some d := by
  induction calls with
  | refl => exact ⟨h, hb, current, declared⟩
  | @call now after calls process arguments description space n nodes run ih =>
    obtain ⟨h₁, hb₁, current₁, declared₁⟩ := ih
    have hv : arguments.Within now := fun x hx => by
      obtain ⟨m, rfl, hm⟩ := nodes x hx
      exact hm
    obtain ⟨c, g, -⟩ := (Build.ensures_invoke (h₁.extends (fun _ => True) fun _ => True)
      (open_of_within hb₁) process hv description space).of_run run
    exact ⟨c.wellFormed, Nat.lt_of_lt_of_le hb₁ g.builders, current₁.invoke h₁ hb₁ run nodes,
      current₁.declaration?_invoke h₁ hb₁ run nodes declared₁⟩

/-- **What becomes of a declaration.** A call merges into it the declarations of all parameters of
its name that the arguments reach, in the order in which they are found. So it survives calls on
nodes if whatever these reach under the name has been merged into it before. -/
theorem calls_redeclare (h : ws.Reachable) (hb : b.index < ws.builders.size) (s : String) :
    (∀ {process : String} {arguments description : Value} {space : Option String} {n : NodeRef}
        {now : Workspace}, arguments.Within ws →
      (Build.invoke b process arguments description space).run ws = (.ok n, now) →
      now.declaration? b s = Value.merged s (ws.declaration? b s)
        ((ws.reached b (now.node n).arguments).map Parameter.declaration)) ∧
    ∀ {d : Value.Entries} {now : Workspace}, ws.UpToDate b s d → ws.declaration? b s = some d →
      ws.NodeCalls b now → now.declaration? b s = some d :=
  ⟨fun hv run => declaration?_invoke h.wellFormed hb run hv s, fun current declared calls =>
    (calls.upToDate h.wellFormed hb current declared).2.2.2⟩

end

/-! ## An offset that is documented later -/

/-- The number 1, unless another one is given. -/
def draftOffset : Parameter :=
  ⟨.str "offset", .object [("type", .str "number")], .str "Draft", some (.int 1)⟩

/-- A builder with the node `offset + 2`. -/
def Workspace.drafted : Workspace :=
  let ws := ((Build.newParameter draftOffset).run .arithmetic).2
  ((Build.invoke ⟨0⟩ "add" (.list [.parameter ⟨0⟩, .int 2])).run ws).2

/-- The parameter has been declared again since. -/
def Workspace.redrafted : Workspace :=
  ((Build.addParameter ⟨0⟩ documentedOffset.declaration).run .drafted).2

/-- To add 3 to the node changes nothing at first, but takes the later declaration back. -/
theorem calls_redeclare_offset :
    (∃ n now, (Build.invoke ⟨0⟩ "add" (.list [.node ⟨0⟩, .int 3])).run .drafted = (.ok n, now) ∧
      now.declaration? ⟨0⟩ "offset" = some draftOffset.declaration) ∧
    Workspace.redrafted.declaration? ⟨0⟩ "offset" = some documentedOffset.declaration ∧
    ∃ n now, (Build.invoke ⟨0⟩ "add" (.list [.node ⟨0⟩, .int 3])).run .redrafted = (.ok n, now) ∧
      now.declaration? ⟨0⟩ "offset" = some draftOffset.declaration := by
  have parameter (ws : Workspace) (h : 0 < ws.parameters.size) :
      (Value.list [.parameter ⟨0⟩, .int 2]).Within ws := fun r hr => by
    cases List.mem_singleton.1 hr
    exact h
  have nodes (ws : Workspace) (h : 0 < ws.nodes.size) :
      ∀ x ∈ (Value.list [.node ⟨0⟩, .int 3]).refs,
        ∃ m : NodeRef, x = .node m ∧ m.index < ws.nodes.size := fun x hx =>
    ⟨⟨0⟩, List.mem_singleton.1 hx, h⟩
  have drafted : Workspace.drafted.Reachable :=
    .operation (.operation (.operation (.refl _) (.createBuilder _ _ none none [] nofun))
      (.newParameter _)) (.invoke (by decide +kernel) "add" (parameter _ (by decide +kernel)) .null
        none)
  have redrafted : Workspace.redrafted.Reachable :=
    .operation drafted (.addParameter (by decide +kernel) _ true)
  refine ⟨?_, by rfl, ?_⟩
  · have current : Workspace.drafted.UpToDate ⟨0⟩ "offset" draftOffset.declaration := by
      rintro ⟨i⟩ hi x hx r reached - -
      have size : Workspace.drafted.nodes.size = 1 := by decide +kernel
      obtain rfl : i = 0 := by
        have hi : i < Workspace.drafted.nodes.size := hi
        omega
      cases List.mem_singleton.1 hx
      cases reached with
      | node hx reached =>
        have arguments : (Workspace.drafted.node ⟨0⟩).arguments =
            [(.str "x", .parameter ⟨0⟩), (.str "y", .int 2)] := by rfl
        rw [arguments] at hx
        cases List.mem_singleton.1 hx
        cases reached
        rfl
    have result : ((Build.invoke ⟨0⟩ "add" (.list [.node ⟨0⟩, .int 3])).run .drafted).1.toOption =
        some ⟨1⟩ := by decide +kernel
    rcases run : (Build.invoke ⟨0⟩ "add" (.list [.node ⟨0⟩, .int 3])).run .drafted with ⟨e | n, now⟩
    · rw [run] at result
      cases result
    · exact ⟨n, now, rfl, (calls_redeclare drafted (by decide +kernel) "offset").2 current
        (by rfl) (.call (.refl _) (nodes _ (by decide +kernel)) run)⟩
  · have result : ((Build.invoke ⟨0⟩ "add" (.list [.node ⟨0⟩, .int 3])).run .redrafted).1.toOption =
        some ⟨1⟩ := by decide +kernel
    have arguments : (((Build.invoke ⟨0⟩ "add" (.list [.node ⟨0⟩, .int 3])).run .redrafted).2.node
        ⟨1⟩).arguments = [(.str "x", .node ⟨0⟩), (.str "y", .int 3)] := by rfl
    rcases run : (Build.invoke ⟨0⟩ "add" (.list [.node ⟨0⟩, .int 3])).run .redrafted with
      ⟨e | n, now⟩
    · rw [run] at result
      cases result
    · rw [run] at result arguments
      obtain rfl := Option.some.inj result
      refine ⟨_, now, rfl, ?_⟩
      rw [(calls_redeclare redrafted (by decide +kernel) "offset").1 (fun x hx => by
        obtain ⟨m, rfl, hm⟩ := nodes .redrafted (by decide +kernel) x hx
        exact hm) run, arguments]
      rfl

end ProcessGraph
