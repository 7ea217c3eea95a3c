import ProcessGraph.Proofs.Graph.ResolvedReferences

/-!
# Nodes of other builders

A document refers to nodes by their ids, which say nothing about the builder that a node belongs to.
So an argument that holds a node of another builder, at any depth, has no document: whatever
functions and formulas do besides, neither the node with the argument nor its builder gets one.

If there are no functions, formulas and builders in the arguments, this is all that can go wrong.
The document is then what is written for the arguments (`Workspace.written`), or else the failure
names the first such node, in the order of registration and of the arguments
(`Documents.run_ofBuilder_shown`). Both together are `foreignNodes_fail`.
-/

set_option autoImplicit false

namespace ProcessGraph

variable {σ : Type}

/-! ## What is written for arguments -/

/-- Objects that are shown as they are: nodes and parameters, but nothing that makes a document. -/
def Ref.Shown : Ref → Prop
  | node _ | parameter _ | access _ => True
  | _ => False

namespace Workspace

variable (ws : Workspace)

mutual

/-- What stands for a value in a document: nodes and parameters are referred to, and tuples become
lists. -/
def written : Value → Value
  | .node m => .object [("from_node", .str (ws.node m).id)]
  | .parameter p => (ws.parameter p).reference
  | .access a => (ws.accessParameter a).reference
  | .list vs => .list (writtenList vs)
  | .tuple vs => .list (writtenList vs)
  | .dict d => .dict (writtenEntries d)
  | v => v

def writtenList : List Value → List Value
  | [] => []
  | v :: vs => written v :: writtenList vs

def writtenEntries : List (Scalar × Value) → List (Scalar × Value)
  | [] => []
  | (k, v) :: d => (k, written v) :: writtenEntries d

end

/-- The first node among references that does not belong to the builder of the node. -/
def foreign? (n : NodeRef) (rs : List Ref) : Option NodeRef :=
  rs.findSome? fun
    | .node m => if (ws.node m).builder = (ws.node n).builder then none else some m
    | _ => none

/-- The first of the nodes with a foreign node in its arguments, and the first such node there. -/
def firstForeign? (nodes : List (String × NodeRef)) : Option (NodeRef × NodeRef) :=
  nodes.findSome? fun p =>
    (ws.foreign? p.2 (Value.refsInEntries (ws.node p.2).arguments)).map fun m => (p.2, m)

end Workspace

namespace Documents

/-- The document of a node with its exported arguments. -/
def describe (node now : Node) (arguments : List (Scalar × Value)) : Value :=
  .object ([("process_id", .str node.process)] ++
    (match node.space with
      | some s => [("namespace", .str s)]
      | none => []) ++
    [("arguments", .dict arguments)] ++
    (match now.description with
      | .null => []
      | d => [("description", d)]) ++
    if now.result.isTruthy then [("result", .bool true)] else [])

/-- The call of a process as it was made, with the description and the flag that the node has by the
time that its arguments are exported. -/
theorem run_ofNode (call : Callback → List Value → Run σ Value) (inner : BuilderRef → Run σ Value)
    (n : NodeRef) (w : World σ) :
    (ofNode call inner n).run w =
      match (ofNamed call inner n (w.workspace.node n).arguments).run w with
      | (.ok arguments, now) =>
        (.ok (describe (w.workspace.node n) (now.workspace.node n) arguments), now)
      | (.error e, now) => (.error e, now) := by
  unfold ofNode
  refine (run_bind_state (ofNamed call inner n (w.workspace.node n).arguments) _ w).trans ?_
  generalize (ofNamed call inner n (w.workspace.node n).arguments).run w = result
  obtain ⟨e | arguments, now⟩ := result
  · rfl
  · rfl

/-- The document of a node whose arguments only have to be written. -/
def written (ws : Workspace) (n : NodeRef) : Value :=
  describe (ws.node n) (ws.node n) (ws.writtenEntries (ws.node n).arguments)

/-! ## Exported arguments -/

/-- The failure for a node in an argument of another node. -/
def foreignFailure (ws : Workspace) (n m : NodeRef) : Failure :=
  .foreignNode (ws.node m).id (ws.node n).process

/-- What comes of references: a value, unless one of them is to a foreign node. -/
def outcome {α : Type} (ws : Workspace) (n : NodeRef) (rs : List Ref) (a : α) : Except Failure α :=
  match ws.foreign? n rs with
  | some m => .error (foreignFailure ws n m)
  | none => .ok a

section
variable {α β : Type} {w : World σ} {n : NodeRef} {rs rs' : List Ref}

/-- References are looked at one after the other, and nothing else happens. -/
theorem run_bind_outcome {step : Run σ α} {f : α → Run σ β} {a : α} {b : β}
    (h : step.run w = (outcome w.workspace n rs a, w))
    (hf : (f a).run w = (outcome w.workspace n rs' b, w)) :
    (step >>= f).run w = (outcome w.workspace n (rs ++ rs') b, w) := by
  rw [run_bind_state, h]
  unfold outcome Workspace.foreign? at *
  rw [List.findSome?_append]
  cases rs.findSome? _ with
  | some m => rfl
  | none => exact hf

theorem outcome_node {m : NodeRef} (ws : Workspace) (a : α) :
    outcome ws n [.node m] a = if (ws.node m).builder = (ws.node n).builder then .ok a
      else .error (foreignFailure ws n m) := by
  unfold outcome Workspace.foreign?
  by_cases same : (ws.node m).builder = (ws.node n).builder <;> simp [same]

theorem run_map_outcome {step : Run σ α} {a : α} (f : α → β)
    (h : step.run w = (outcome w.workspace n rs a, w)) :
    (do return f (← step) : Run σ β).run w = (outcome w.workspace n rs (f a), w) := by
  have last : (pure (f a) : Run σ β).run w = (outcome w.workspace n [] (f a), w) := rfl
  have all := run_bind_outcome (f := fun a => pure (f a)) h last
  rwa [List.append_nil] at all

end

section
variable {call : Callback → List Value → Run σ Value} {inner : BuilderRef → Run σ Value}
  {w : World σ}

variable (call inner w)

mutual

theorem run_ofArgument_shown (n : NodeRef) (argument : Scalar) : ∀ v : Value,
    (∀ r ∈ v.refs, r.Shown) → (ofArgument call inner n argument v).run w =
      (outcome w.workspace n v.refs (w.workspace.written v), w)
  | .list vs, hv => by
    unfold ofArgument
    exact run_map_outcome Value.list (run_ofArguments_shown n argument vs hv)
  | .tuple vs, hv => by
    unfold ofArgument
    exact run_map_outcome Value.list (run_ofArguments_shown n argument vs hv)
  | .dict d, hv => by
    unfold ofArgument
    exact run_map_outcome Value.dict (run_ofEntries_shown n argument d hv)
  | .node m, _ => by
    unfold ofArgument ofObject
    show ((if (w.workspace.node m).builder = (w.workspace.node n).builder then _ else _ :
      Run σ Value)).run w = _
    rw [Value.refs, outcome_node]
    by_cases same : (w.workspace.node m).builder = (w.workspace.node n).builder
    · rw [if_pos same, if_pos same]
      rfl
    · rw [if_neg same, if_neg same]
      rfl
  | .parameter _, _ | .access _, _ | .catalog _, _ | .null, _ | .bool _, _ | .int _, _
  | .float _, _ | .str _, _ => by
    unfold ofArgument
    rfl
  | .builder b, hv => (hv (.builder b) List.mem_cons_self).elim
  | .formula f, hv => (hv (.formula f) List.mem_cons_self).elim
  | .callback f, hv => (hv (.callback f.handle) List.mem_cons_self).elim

theorem run_ofArguments_shown (n : NodeRef) (argument : Scalar) : ∀ vs : List Value,
    (∀ r ∈ Value.refsInList vs, r.Shown) → (ofArguments call inner n argument vs).run w =
      (outcome w.workspace n (Value.refsInList vs) (w.workspace.writtenList vs), w)
  | [], _ => rfl
  | v :: vs, hv => by
    unfold ofArguments
    exact run_bind_outcome
      (run_ofArgument_shown n argument v fun r hr => hv r (List.mem_append_left _ hr))
      (run_map_outcome (w.workspace.written v :: ·)
        (run_ofArguments_shown n argument vs fun r hr => hv r (List.mem_append_right _ hr)))

theorem run_ofEntries_shown (n : NodeRef) (argument : Scalar) : ∀ d : List (Scalar × Value),
    (∀ r ∈ Value.refsInEntries d, r.Shown) → (ofEntries call inner n argument d).run w =
      (outcome w.workspace n (Value.refsInEntries d) (w.workspace.writtenEntries d), w)
  | [], _ => rfl
  | (k, v) :: d, hd => by
    unfold ofEntries
    exact run_bind_outcome
      (run_ofArgument_shown n argument v fun r hr => hd r (List.mem_append_left _ hr))
      (run_map_outcome ((k, w.workspace.written v) :: ·)
        (run_ofEntries_shown n argument d fun r hr => hd r (List.mem_append_right _ hr)))

end

theorem run_ofNamed_shown (n : NodeRef) : ∀ d : List (Scalar × Value),
    (∀ r ∈ Value.refsInEntries d, r.Shown) → (ofNamed call inner n d).run w =
      (outcome w.workspace n (Value.refsInEntries d) (w.workspace.writtenEntries d), w)
  | [], _ => rfl
  | (name, v) :: d, hd => by
    unfold ofNamed
    exact run_bind_outcome
      (run_ofArgument_shown call inner w n name v fun r hr => hd r (List.mem_append_left _ hr))
      (run_map_outcome ((name, w.workspace.written v) :: ·)
        (run_ofNamed_shown n d fun r hr => hd r (List.mem_append_right _ hr)))

theorem run_ofNode_shown (n : NodeRef)
    (hn : ∀ r ∈ Value.refsInEntries (w.workspace.node n).arguments, r.Shown) :
    (ofNode call inner n).run w = (outcome w.workspace n
      (Value.refsInEntries (w.workspace.node n).arguments) (written w.workspace n), w) := by
  rw [run_ofNode, run_ofNamed_shown call inner w n _ hn]
  unfold outcome
  cases w.workspace.foreign? n _ with
  | some m => rfl
  | none => rfl

theorem run_ofNodes_shown : ∀ nodes : List (String × NodeRef),
    (∀ p ∈ nodes, ∀ r ∈ Value.refsInEntries (w.workspace.node p.2).arguments, r.Shown) →
    (ofNodes call inner nodes).run w =
      (match w.workspace.firstForeign? nodes with
        | some (n, m) => .error (foreignFailure w.workspace n m)
        | none => .ok (nodes.map fun p => (.str p.1, written w.workspace p.2)), w)
  | [], _ => rfl
  | (id, n) :: rest, h => by
    have first := run_ofNode_shown call inner w n (h (id, n) List.mem_cons_self)
    have others := run_ofNodes_shown rest fun p hp => h p (List.mem_cons_of_mem _ hp)
    unfold ofNodes
    rw [run_bind_state, first]
    unfold outcome Workspace.firstForeign?
    rw [List.findSome?_cons]
    cases w.workspace.foreign? n (Value.refsInEntries (w.workspace.node n).arguments) with
    | some m => rfl
    | none =>
      dsimp only [Option.map_none]
      rw [run_bind_state, others]
      unfold Workspace.firstForeign?
      cases List.findSome? _ rest with
      | some p => rfl
      | none => rfl

/-- The document of a builder without functions, formulas and builders in arguments. -/
theorem run_ofBuilder_shown (b : BuilderRef)
    (h : ∀ p ∈ (w.workspace.builder b).nodes,
      ∀ r ∈ Value.refsInEntries (w.workspace.node p.2).arguments, r.Shown) :
    (ofBuilder call inner b).run w =
      (match w.workspace.firstForeign? (w.workspace.builder b).nodes with
        | some (n, m) => .error (foreignFailure w.workspace n m)
        | none => .ok (assemble ((w.workspace.builder b).nodes.map fun p =>
            (.str p.1, written w.workspace p.2)) (w.workspace.builder b).metadata), w) := by
  rw [run_ofBuilder, run_ofNodes_shown call inner w _ h]
  cases w.workspace.firstForeign? (w.workspace.builder b).nodes with
  | some p => rfl
  | none => rfl

end

end Documents

/-! ## Failures -/

namespace Workspace

theorem foreign?_eq_none_iff {ws : Workspace} {n : NodeRef} {rs : List Ref} :
    ws.foreign? n rs = none ↔ ws.Native n rs := by
  unfold foreign? Native
  rw [List.findSome?_eq_none_iff]
  constructor
  · intro h m hm
    have none := h _ hm
    dsimp only at none
    by_contra other
    rw [if_neg other] at none
    cases none
  · intro h r hr
    cases r with
    | node m => exact if_pos (h m hr)
    | _ => rfl

theorem firstForeign?_eq_none_iff {ws : Workspace} {nodes : List (String × NodeRef)} :
    ws.firstForeign? nodes = none ↔ ∀ p ∈ nodes, ws.NativeNode p.2 := by
  unfold firstForeign?
  rw [List.findSome?_eq_none_iff]
  refine forall₂_congr fun p _ => ?_
  rw [Option.map_eq_none_iff, foreign?_eq_none_iff]
  rfl

end Workspace

/-- **Foreign nodes are never exported.** If the arguments of a registered node hold a node of
another builder, neither the node nor its builder gets a document. If the arguments of a builder
hold no functions, formulas and builders, its document fails only for that reason and names the
first such node, or it has what is written for each node. Either way the world stays as it is. -/
theorem Documents.foreignNodes_fail {call : Documents σ → Callback → List Value → Run σ Value}
    (hcall : ∀ n, Calls.Operate (call (within call n))) {w : World σ}
    (h : w.workspace.Reachable) {b : BuilderRef} (hb : b.index < w.workspace.builders.size)
    (depth : Nat) :
    (∀ p ∈ (w.workspace.builder b).nodes,
      ∀ m, Ref.node m ∈ Value.refsInEntries (w.workspace.node p.2).arguments →
        (w.workspace.node m).builder ≠ b →
        (∃ e now, ((within call depth).node p.2).run w = (.error e, now)) ∧
        ∃ e now, ((within call depth).builder b).run w = (.error e, now)) ∧
    ((∀ p ∈ (w.workspace.builder b).nodes,
      ∀ r ∈ Value.refsInEntries (w.workspace.node p.2).arguments, r.Shown) →
      ((within call (depth + 1)).builder b).run w =
        (match w.workspace.firstForeign? (w.workspace.builder b).nodes with
          | some (n, m) =>
            .error (.foreignNode (w.workspace.node m).id (w.workspace.node n).process)
          | none => .ok (assemble ((w.workspace.builder b).nodes.map fun p =>
              (.str p.1, written w.workspace p.2)) (w.workspace.builder b).metadata), w) ∧
      (w.workspace.firstForeign? (w.workspace.builder b).nodes = none ↔
        ∀ p ∈ (w.workspace.builder b).nodes,
          ∀ m, Ref.node m ∈ Value.refsInEntries (w.workspace.node p.2).arguments →
            (w.workspace.node m).builder = b)) := by
  have wf := h.wellFormed
  have own : ∀ p ∈ (w.workspace.builder b).nodes, (w.workspace.node p.2).builder = b :=
    fun p hp => ((wf.builder b hb).nodes p.1 p.2 hp).2.1
  obtain ⟨builders, nodes⟩ := operates_within hcall depth wf
  constructor
  · intro p hp m hm other
    have foreign : ¬ w.workspace.NativeNode p.2 := fun native =>
      other ((native m hm).trans (own p hp))
    constructor
    · have made := (nodes p.2 ((wf.builder b hb).nodes p.1 p.2 hp).1).2.2
      rcases run : ((within call depth).node p.2).run w with ⟨e | v, now⟩
      · exact ⟨e, now, rfl⟩
      · rw [run] at made
        exact absurd (made v rfl) foreign
    · have made := (builders b hb).2.2
      rcases run : ((within call depth).builder b).run w with ⟨e | v, now⟩
      · exact ⟨e, now, rfl⟩
      · rw [run] at made
        exact absurd (made v rfl p hp) foreign
  · intro shown
    refine ⟨run_ofBuilder_shown _ _ w b shown, ?_⟩
    rw [Workspace.firstForeign?_eq_none_iff]
    refine forall₂_congr fun p hp => forall₂_congr fun m _ => ?_
    rw [own p hp]

/-! ## A node of another root -/

/-- Two builders, the second of which has a sum with the sum of the first in a list. -/
def Workspace.crossed : Workspace :=
  let ws := ((Build.createBuilder (.list [binaryProcess "add"]) .null none none []).run {}).2
  let ws := ((Build.invoke ⟨0⟩ "add" (.list [.int 1, .int 2])).run ws).2
  let ws := ((Build.createBuilder (.list [binaryProcess "add"]) .null none none []).run ws).2
  ((Build.invoke ⟨1⟩ "add" (.list [.list [.tuple [.node ⟨0⟩]], .int 2])).run ws).2

/-- A host without functions. -/
def noFunctions (_ : Documents Unit) (_ : Callback) (_ : List Value) : Run Unit Value :=
  throw .tooDeep

/-- Both nodes are called `add1`, but the document of the second builder does not mix them up. -/
theorem Documents.foreignNodes_fail_crossed :
    (∃ e now, ((within noFunctions 3).node ⟨1⟩).run ⟨.crossed, ()⟩ = (.error e, now)) ∧
    ((within noFunctions 3).builder ⟨1⟩).run ⟨.crossed, ()⟩ =
      (.error (.foreignNode "add1" "add"), ⟨.crossed, ()⟩) := by
  have operate : ∀ n, Calls.Operate (noFunctions (within noFunctions n)) :=
    fun _ _ _ _ _ _ => .throw (.refl _)
  have numbers (ws : Workspace) : (Value.list [.int 1, .int 2]).Within ws := nofun
  have reachable : Workspace.crossed.Reachable := by
    refine .operation (.operation (.operation (.operation (.refl _)
      (.createBuilder _ _ none none [] nofun))
      (.invoke (by decide +kernel) "add" (numbers _) .null none))
      (.createBuilder _ _ none none [] nofun)) (.invoke (by decide +kernel) "add" ?_ .null none)
    intro r hr
    cases List.mem_singleton.1 hr
    show (⟨0⟩ : NodeRef).index < _
    decide +kernel
  have nodes : (Workspace.crossed.builder ⟨1⟩).nodes = [("add1", ⟨1⟩)] := by decide +kernel
  have refs : Value.refsInEntries (Workspace.crossed.node ⟨1⟩).arguments = [.node ⟨0⟩] := by
    decide +kernel
  have offender : Workspace.crossed.firstForeign? [("add1", ⟨1⟩)] = some (⟨1⟩, ⟨0⟩) := by
    decide +kernel
  have names : (Workspace.crossed.node ⟨0⟩).id = "add1" ∧
      (Workspace.crossed.node ⟨1⟩).process = "add" := by decide +kernel
  have fails (depth : Nat) := foreignNodes_fail operate (w := ⟨.crossed, ()⟩) reachable
    (b := ⟨1⟩) (by decide +kernel) depth
  constructor
  · refine ((fails 3).1 ("add1", ⟨1⟩) (nodes ▸ List.mem_cons_self) ⟨0⟩ ?_ ?_).1
    · exact refs ▸ List.mem_cons_self
    · decide +kernel
  · have shown := ((fails 2).2 (fun p hp r hr => ?_)).1
    · rw [nodes, offender] at shown
      dsimp only at shown
      rw [names.1, names.2] at shown
      exact shown
    · rw [nodes] at hp
      cases List.mem_singleton.1 hp
      rw [refs] at hr
      cases List.mem_singleton.1 hr
      trivial

end ProcessGraph
