import ProcessGraph.Proofs.Graph.Reference

/-!
# Exports

To make a document is to export what stands in the arguments of its nodes, one after the other
(`Workspace.exports`). `Makes w xs step` says that the step does this for `xs`, and fails only if
one of the exports fails, when those before it have succeeded. That is so for arguments, at any
depth of lists, tuples and dictionaries, and for nodes (`Documents.makes_ofNode`). So what a
document does follows from what each export does (`Passage.through_of_makes`, `Makes.reads`).
-/

set_option autoImplicit false

namespace ProcessGraph

variable {σ : Type}

/-! ## What is to be exported -/

namespace Value

mutual

/-- What stands in an argument outside of lists, tuples and dictionaries, from left to right. -/
def leaves : Value → List Value
  | .list vs => leavesInList vs
  | .tuple vs => leavesInList vs
  | .dict d => leavesInEntries d
  | v => [v]

def leavesInList : List Value → List Value
  | [] => []
  | v :: vs => leaves v ++ leavesInList vs

def leavesInEntries : List (Scalar × Value) → List Value
  | [] => []
  | (_, v) :: d => leaves v ++ leavesInEntries d

end

mutual

/-- An argument refers to what its leaves refer to. -/
theorem flatMap_leaves : ∀ v : Value, v.leaves.flatMap refs = v.refs
  | .list vs => flatMap_leavesInList vs
  | .tuple vs => flatMap_leavesInList vs
  | .dict d => flatMap_leavesInEntries d
  | .node _ | .parameter _ | .access _ | .builder _ | .formula _ | .callback _ => rfl
  | .catalog _ | .null | .bool _ | .int _ | .float _ | .str _ => rfl

theorem flatMap_leavesInList : ∀ vs : List Value, (leavesInList vs).flatMap refs = refsInList vs
  | [] => rfl
  | v :: vs => by
    rw [leavesInList, List.flatMap_append, flatMap_leaves, flatMap_leavesInList, refsInList]

theorem flatMap_leavesInEntries : ∀ d : List (Scalar × Value),
    (leavesInEntries d).flatMap refs = refsInEntries d
  | [] => rfl
  | (_, v) :: d => by
    rw [leavesInEntries, List.flatMap_append, flatMap_leaves, flatMap_leavesInEntries,
      refsInEntries]

end

end Value

/-- Something is exported as an argument of a node, or in one. -/
structure Export where
  node : NodeRef
  argument : Scalar
  source : Value

namespace Export

def ofValue (n : NodeRef) (argument : Scalar) (v : Value) : List Export :=
  v.leaves.map fun source => ⟨n, argument, source⟩

/-- What is to be exported for a node. -/
def ofNamed (n : NodeRef) (arguments : List (Scalar × Value)) : List Export :=
  arguments.flatMap fun p => ofValue n p.1 p.2

theorem refs_of_mem_ofNamed {n : NodeRef} {arguments : List (Scalar × Value)} {x : Export}
    (hx : x ∈ ofNamed n arguments) :
    x.node = n ∧ ∀ r ∈ x.source.refs, r ∈ Value.refsInEntries arguments := by
  obtain ⟨p, hp, hx⟩ := List.mem_flatMap.1 hx
  obtain ⟨source, hs, rfl⟩ := List.mem_map.1 hx
  refine ⟨rfl, fun r hr => Value.mem_refsInEntries.2 ⟨p, hp, ?_⟩⟩
  rw [← p.2.flatMap_leaves]
  exact List.mem_flatMap_of_mem hs hr

end Export

/-- What is to be exported for the document of a builder, in this order. -/
def Workspace.exports (ws : Workspace) (b : BuilderRef) : List Export :=
  (ws.builder b).nodes.flatMap fun p => Export.ofNamed p.2 (ws.node p.2).arguments

/-! ## Exports -/

section
variable (call : Callback → List Value → Run σ Value) (inner : BuilderRef → Run σ Value)

def Export.make (x : Export) : Run σ Value :=
  Documents.ofObject call inner x.node x.argument x.source

/-- The exports succeed, one after the other. -/
inductive Exported : World σ → List Export → World σ → Prop
  | nil (w : World σ) : Exported w [] w
  | cons {w now last : World σ} {x : Export} {xs : List Export} {document : Value}
      (first : (x.make call inner).run w = (.ok document, now)) (rest : Exported now xs last) :
      Exported w (x :: xs) last

/-- One of the exports fails, when all before it have succeeded. -/
structure StopsAt (w : World σ) (done : List Export) (x : Export) (mid : World σ) (e : Failure)
    (now : World σ) : Prop where
  exported : Exported call inner w done mid
  failed : (x.make call inner).run mid = (.error e, now)

/-- The step makes the exports in this order, and fails only if one of them does. -/
structure Makes {α : Type} (w : World σ) (xs : List Export) (step : Run σ α) : Prop where
  made : ∀ a now, step.run w = (.ok a, now) → Exported call inner w xs now
  stops : ∀ e now, step.run w = (.error e, now) → ∃ done x rest mid, xs = done ++ x :: rest ∧
    StopsAt call inner w done x mid e now

end

section
variable {call : Callback → List Value → Run σ Value} {inner : BuilderRef → Run σ Value}
  {w now last : World σ} {xs ys : List Export}

theorem Exported.append (h : Exported call inner w xs now) (h' : Exported call inner now ys last) :
    Exported call inner w (xs ++ ys) last := by
  induction h with
  | nil => exact h'
  | cons first _ ih => exact .cons first (ih h')

/-- What leaves no trace one by one leaves none in a row. -/
theorem Exported.eq_of_quiet (h : Exported call inner w xs now)
    (quiet : ∀ x ∈ xs, ∀ document now, (x.make call inner).run w = (.ok document, now) → now = w) :
    now = w := by
  induction h with
  | nil => rfl
  | @cons w now last x xs document first _ ih =>
    obtain rfl := quiet x List.mem_cons_self document now first
    exact ih fun y hy => quiet y (List.mem_cons_of_mem _ hy)

namespace Makes

variable {α β : Type}

theorem pure (a : α) : Makes call inner w [] (pure a : Run σ α) where
  made _ _ run := by
    cases run
    exact .nil w
  stops _ _ run := by cases run

theorem make (x : Export) : Makes call inner w [x] (x.make call inner) where
  made _ _ run := .cons run (.nil _)
  stops _ _ run := ⟨[], x, [], w, rfl, .nil w, run⟩

theorem bind {step : Run σ α} {f : α → Run σ β} (h : Makes call inner w xs step)
    (hf : ∀ a now, Exported call inner w xs now → Makes call inner now ys (f a)) :
    Makes call inner w (xs ++ ys) (step >>= f) where
  made b last run := by
    obtain ⟨a, now, first, rest⟩ := run_bind_eq_ok run
    have exported := h.made a now first
    exact exported.append ((hf a now exported).made b last rest)
  stops e last run := by
    rw [run_bind_state] at run
    rcases first : step.run w with ⟨e' | a, now⟩ <;> rw [first] at run
    · cases run
      obtain ⟨done, x, rest, mid, rfl, stop⟩ := h.stops e last first
      exact ⟨done, x, rest ++ ys, mid, by rw [List.append_assoc, List.cons_append], stop⟩
    · have exported := h.made a now first
      obtain ⟨done, x, rest, mid, rfl, stop⟩ := (hf a now exported).stops e last run
      exact ⟨xs ++ done, x, rest, mid, (List.append_assoc ..).symm,
        exported.append stop.exported, stop.failed⟩

/-- What follows exports nothing more. -/
theorem bind_nil {step : Run σ α} {f : α → Run σ β} (h : Makes call inner w xs step)
    (hf : ∀ a now, Makes call inner now [] (f a)) : Makes call inner w xs (step >>= f) := by
  have made : Makes call inner w (xs ++ []) (step >>= f) := h.bind fun a now _ => hf a now
  rwa [List.append_nil] at made

theorem workspace_bind {f : Workspace → Run σ α} (h : Makes call inner w xs (f w.workspace)) :
    Makes call inner w xs (Run.workspace >>= f) := ⟨h.1, h.2⟩

end Makes

namespace Documents

mutual

theorem makes_ofArgument (n : NodeRef) (argument : Scalar) : ∀ (v : Value) {w : World σ},
    Makes call inner w (Export.ofValue n argument v) (ofArgument call inner n argument v)
  | .list vs, w => by
    unfold ofArgument
    exact (makes_ofArguments n argument vs).bind_nil fun _ _ => .pure _
  | .tuple vs, w => by
    unfold ofArgument
    exact (makes_ofArguments n argument vs).bind_nil fun _ _ => .pure _
  | .dict d, w => by
    unfold ofArgument
    exact (makes_ofEntries n argument d).bind_nil fun _ _ => .pure _
  | .node _, _ | .parameter _, _ | .access _, _ | .builder _, _ | .formula _, _ | .catalog _, _
  | .callback _, _ | .null, _ | .bool _, _ | .int _, _ | .float _, _ | .str _, _ => by
    unfold ofArgument
    exact .make ⟨n, argument, _⟩

theorem makes_ofArguments (n : NodeRef) (argument : Scalar) : ∀ (vs : List Value) {w : World σ},
    Makes call inner w (Export.ofValue n argument (.list vs)) (ofArguments call inner n argument vs)
  | [], _ => .pure _
  | v :: vs, w => by
    have split : Export.ofValue n argument (.list (v :: vs)) =
        Export.ofValue n argument v ++ Export.ofValue n argument (.list vs) := List.map_append
    rw [split]
    unfold ofArguments
    exact (makes_ofArgument n argument v).bind fun _ _ _ =>
      (makes_ofArguments n argument vs).bind_nil fun _ _ => .pure _

theorem makes_ofEntries (n : NodeRef) (argument : Scalar) :
    ∀ (d : List (Scalar × Value)) {w : World σ},
      Makes call inner w (Export.ofValue n argument (.dict d)) (ofEntries call inner n argument d)
  | [], _ => .pure _
  | (k, v) :: d, w => by
    have split : Export.ofValue n argument (.dict ((k, v) :: d)) =
        Export.ofValue n argument v ++ Export.ofValue n argument (.dict d) := List.map_append
    rw [split]
    unfold ofEntries
    exact (makes_ofArgument n argument v).bind fun _ _ _ =>
      (makes_ofEntries n argument d).bind_nil fun _ _ => .pure _

end

theorem makes_ofNamed (n : NodeRef) : ∀ (d : List (Scalar × Value)) {w : World σ},
    Makes call inner w (Export.ofNamed n d) (ofNamed call inner n d)
  | [], _ => .pure _
  | (name, v) :: d, w => by
    have split : Export.ofNamed n ((name, v) :: d) =
        Export.ofValue n name v ++ Export.ofNamed n d := rfl
    rw [split]
    unfold ofNamed
    exact (makes_ofArgument n name v).bind fun _ _ _ =>
      (makes_ofNamed n d).bind_nil fun _ _ => .pure _

theorem makes_ofNode (n : NodeRef) : Makes call inner w
    (Export.ofNamed n (w.workspace.node n).arguments) (ofNode call inner n) := by
  unfold ofNode
  exact .workspace_bind ((makes_ofNamed n _).bind_nil fun _ _ => .workspace_bind (.pure _))

end Documents

end

end ProcessGraph
