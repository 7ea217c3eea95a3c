import ProcessGraph.Proofs.Graph.Runs

/-!
# Traced documents

A document alone does not say where a `from_parameter` entry in it comes from: it may have been
written for a parameter, or the client may have given an object with such an entry. The traced
documents are made in the same way as the documents themselves (`Traced.within_eq`), and beside each
document stand the references that were written for parameters and callback parameters, each with
the names that the callback arguments around it pass.
-/

set_option autoImplicit false

namespace ProcessGraph

variable {σ : Type}

/-- A reference that was written for a parameter or a callback parameter. -/
structure Written where
  name : Value
  /-- The names of the callback parameters that the enclosing callback arguments pass. -/
  enclosing : List Value := []

/-- The reference as part of a callback argument that passes names. -/
def Written.under (names : List Value) (r : Written) : Written :=
  { r with enclosing := r.enclosing ++ names }

/-- Something that was made, and the references that were written into it. -/
abbrev Traced (α : Type) := α × List Written

/-- The names of the callback parameters that a builder receives. -/
def Workspace.passed (ws : Workspace) (b : BuilderRef) : List Value :=
  (ws.parentNames b).toOption.getD []

namespace Traced

/-- Everything in a callback argument that passes names. -/
def under {α : Type} (names : List Value) (t : Traced α) : Traced α :=
  (t.1, t.2.map (.under names))

variable (call : Callback → List Value → Run σ Value) (inner : BuilderRef → Run σ (Traced Value))

def ofCallback (n : NodeRef) (argument : Scalar) (f : Callback) : Run σ (Traced Value) := do
  let child ← Documents.callbackBuilder n argument
  let parameters ← Build.parentParameters child
  let ws ← Run.workspace
  let names := parameters.map fun a => (ws.accessParameter a).name
  Build.log (.debug Log.nodeLogger ("Lowering callback for " ++ (ws.node n).id ++ "." ++
    argument.display ++ " with parameters " ++ ws.literal (.list names)))
  Run.atomically child do
    let v ← call f (f.accepted (.builder child :: parameters.map .access))
    let v ← Documents.wrapList child v
    let result ← Documents.resultNode child argument (ws.node n).process v
    Build.setResult result (.bool true)
    let document ← inner child
    return document.under (ws.passed child)

def ofFormula (n : NodeRef) (argument : Scalar) (f : FormulaRef) : Run σ (Traced Value) := do
  let child ← Documents.callbackBuilder n argument
  Build.setFormulaBuilder f child
  let ws ← Run.workspace
  let _ ← Build.generate f true
  let document ← inner child
  return document.under (ws.passed child)

/-- The name of a parameter or callback parameter is written; everything else that is no callback
argument has no reference in it. -/
def ofObject (n : NodeRef) (argument : Scalar) : Value → Run σ (Traced Value)
  | .parameter p => do
    let parameter := (← Run.workspace).parameter p
    return (parameter.reference, [⟨parameter.name, []⟩])
  | .access a => do
    let parameter := (← Run.workspace).accessParameter a
    return (parameter.reference, [⟨parameter.name, []⟩])
  | .formula f => ofFormula inner n argument f
  | .builder b => inner b
  | .callback f => ofCallback call inner n argument f
  | v => do
    return (← Documents.ofObject call (fun b => Prod.fst <$> inner b) n argument v, [])

mutual

def ofArgument (n : NodeRef) (argument : Scalar) : Value → Run σ (Traced Value)
  | .list vs => do
    let (ws, written) ← ofArguments n argument vs
    return (.list ws, written)
  | .tuple vs => do
    let (ws, written) ← ofArguments n argument vs
    return (.list ws, written)
  | .dict d => do
    let (e, written) ← ofEntries n argument d
    return (.dict e, written)
  | v => ofObject call inner n argument v

def ofArguments (n : NodeRef) (argument : Scalar) : List Value → Run σ (Traced (List Value))
  | [] => return ([], [])
  | v :: vs => do
    let (w, written) ← ofArgument n argument v
    let (ws, more) ← ofArguments n argument vs
    return (w :: ws, written ++ more)

def ofEntries (n : NodeRef) (argument : Scalar) :
    List (Scalar × Value) → Run σ (Traced (List (Scalar × Value)))
  | [] => return ([], [])
  | (k, v) :: d => do
    let (w, written) ← ofArgument n argument v
    let (e, more) ← ofEntries n argument d
    return ((k, w) :: e, written ++ more)

end

def ofNamed (n : NodeRef) : List (Scalar × Value) → Run σ (Traced (List (Scalar × Value)))
  | [] => return ([], [])
  | (name, v) :: d => do
    let (w, written) ← ofArgument call inner n name v
    let (e, more) ← ofNamed n d
    return ((name, w) :: e, written ++ more)

def ofNode (n : NodeRef) : Run σ (Traced Value) := do
  let node := (← Run.workspace).node n
  let (arguments, written) ← ofNamed call inner n node.arguments
  let now := (← Run.workspace).node n
  let space := match node.space with
    | some s => [("namespace", Value.str s)]
    | none => []
  let description := match now.description with
    | .null => []
    | d => [("description", d)]
  let result := if now.result.isTruthy then [("result", .bool true)] else []
  return (.object ([("process_id", .str node.process)] ++ space ++
    [("arguments", .dict arguments)] ++ description ++ result), written)

def ofNodes : List (String × NodeRef) → Run σ (Traced (List (Scalar × Value)))
  | [] => return ([], [])
  | (id, n) :: rest => do
    let (v, written) ← ofNode call inner n
    let (vs, more) ← ofNodes rest
    return ((.str id, v) :: vs, written ++ more)

def ofBuilder (b : BuilderRef) : Run σ (Traced Value) := do
  let (graph, written) ← ofNodes call inner ((← Run.workspace).builder b).nodes
  return (Documents.assemble graph ((← Run.workspace).builder b).metadata, written)

/-- The traced documents of builders, with callbacks nested at most so deep. -/
def within (call : Documents σ → Callback → List Value → Run σ Value) :
    Nat → BuilderRef → Run σ (Traced Value)
  | 0 => fun _ => throw .tooDeep
  | n + 1 => ofBuilder (call (Documents.within call n)) (within call n)

/-! ## Without the trace -/

theorem map_atomically {α β : Type} (f : α → β) (b : BuilderRef) (body : Run σ α) :
    f <$> Run.atomically b body = Run.atomically b (f <$> body) := by
  funext w
  show (f <$> Run.atomically b body).run w = (Run.atomically b (f <$> body)).run w
  simp only [map_eq_pure_bind, run_bind_state, Run.run_atomically]
  rcases body.run w with ⟨e | a, now⟩ <;> rfl

variable {call inner}

theorem ofCallback_eq (n : NodeRef) (argument : Scalar) (f : Callback) :
    Prod.fst <$> ofCallback call inner n argument f =
      Documents.ofCallback call (fun b => Prod.fst <$> inner b) n argument f := by
  simp only [ofCallback, Documents.ofCallback, bind_pure_comp, map_bind, map_atomically,
    Functor.map_map, under]

theorem ofFormula_eq (n : NodeRef) (argument : Scalar) (f : FormulaRef) :
    Prod.fst <$> ofFormula inner n argument f =
      Documents.ofFormula (fun b => Prod.fst <$> inner b) n argument f := by
  simp only [ofFormula, Documents.ofFormula, bind_pure_comp, map_bind, Functor.map_map, under]
  rfl

theorem ofObject_eq (n : NodeRef) (argument : Scalar) (v : Value) :
    Prod.fst <$> ofObject call inner n argument v =
      Documents.ofObject call (fun b => Prod.fst <$> inner b) n argument v := by
  unfold ofObject
  split
  · rfl
  · rfl
  · exact ofFormula_eq n argument _
  · rfl
  · exact ofCallback_eq n argument _
  · simp only [map_bind, map_pure, bind_pure]

mutual

theorem ofArgument_eq (n : NodeRef) (argument : Scalar) : ∀ v : Value,
    Prod.fst <$> ofArgument call inner n argument v =
      Documents.ofArgument call (fun b => Prod.fst <$> inner b) n argument v
  | .list vs | .tuple vs => by
    simp only [ofArgument, Documents.ofArgument, ← ofArguments_eq n argument vs, map_bind, map_pure,
      bind_map_left]
  | .dict d => by
    simp only [ofArgument, Documents.ofArgument, ← ofEntries_eq n argument d, map_bind, map_pure,
      bind_map_left]
  | .node _ | .parameter _ | .access _ | .builder _ | .formula _ | .catalog _ | .callback _ | .null
  | .bool _ | .int _ | .float _ | .str _ => by
    unfold ofArgument Documents.ofArgument
    exact ofObject_eq n argument _

theorem ofArguments_eq (n : NodeRef) (argument : Scalar) : ∀ vs : List Value,
    Prod.fst <$> ofArguments call inner n argument vs =
      Documents.ofArguments call (fun b => Prod.fst <$> inner b) n argument vs
  | [] => by simp only [ofArguments, Documents.ofArguments, map_pure]
  | v :: vs => by
    simp only [ofArguments, Documents.ofArguments, ← ofArgument_eq n argument v,
      ← ofArguments_eq n argument vs, map_bind, map_pure, bind_map_left]

theorem ofEntries_eq (n : NodeRef) (argument : Scalar) : ∀ d : List (Scalar × Value),
    Prod.fst <$> ofEntries call inner n argument d =
      Documents.ofEntries call (fun b => Prod.fst <$> inner b) n argument d
  | [] => by simp only [ofEntries, Documents.ofEntries, map_pure]
  | (k, v) :: d => by
    simp only [ofEntries, Documents.ofEntries, ← ofArgument_eq n argument v,
      ← ofEntries_eq n argument d, map_bind, map_pure, bind_map_left]

end

theorem ofNamed_eq (n : NodeRef) : ∀ d : List (Scalar × Value),
    Prod.fst <$> ofNamed call inner n d =
      Documents.ofNamed call (fun b => Prod.fst <$> inner b) n d
  | [] => by simp only [ofNamed, Documents.ofNamed, map_pure]
  | (name, v) :: d => by
    simp only [ofNamed, Documents.ofNamed, ← ofArgument_eq n name v, ← ofNamed_eq n d, map_bind,
      map_pure, bind_map_left]

theorem ofNode_eq (n : NodeRef) : Prod.fst <$> ofNode call inner n =
    Documents.ofNode call (fun b => Prod.fst <$> inner b) n := by
  unfold ofNode Documents.ofNode
  rw [map_bind]
  refine bind_congr fun ws => ?_
  dsimp only
  rw [map_bind, ← ofNamed_eq, bind_map_left]
  refine bind_congr fun arguments => ?_
  rw [map_bind]
  exact bind_congr fun now => map_pure ..

theorem ofNodes_eq : ∀ nodes : List (String × NodeRef), Prod.fst <$> ofNodes call inner nodes =
    Documents.ofNodes call (fun b => Prod.fst <$> inner b) nodes
  | [] => by simp only [ofNodes, Documents.ofNodes, map_pure]
  | (id, n) :: rest => by
    simp only [ofNodes, Documents.ofNodes, ← ofNode_eq n, ← ofNodes_eq rest, map_bind, map_pure,
      bind_map_left]

theorem ofBuilder_eq (b : BuilderRef) : Prod.fst <$> ofBuilder call inner b =
    Documents.ofBuilder call (fun b => Prod.fst <$> inner b) b := by
  simp only [ofBuilder, Documents.ofBuilder, ← ofNodes_eq, map_bind, map_pure, bind_map_left]
  rfl

/-- Tracing does not change the documents. -/
theorem within_eq (call : Documents σ → Callback → List Value → Run σ Value) (n : Nat)
    (b : BuilderRef) : Prod.fst <$> within call n b = (Documents.within call n).builder b := by
  induction n generalizing b with
  | zero => rfl
  | succ n ih =>
    have inner : (fun b => Prod.fst <$> within call n b) = (Documents.within call n).builder :=
      funext ih
    simp only [within, Documents.within, ofBuilder_eq, inner]

end Traced

end ProcessGraph
