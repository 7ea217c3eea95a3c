import ProcessGraph.Proofs.Graph.ConfinedWork
import ProcessGraph.Proofs.Graph.ForeignNodes

/-!
# Embedded graphs

A document is made by going through the arguments of the nodes of a builder. Each function, formula
and builder in them has a document of its own, which stands in its place (`Value.embedded`). What is
done for functions and formulas is a list of `Lowering`s: which child builder was made, how the
function was called, which node became the result, and when the nodes of the child were complete.

`Lowers call w tasks xs now`: from `w` to `now` the tasks were done one after the other, each once,
and `xs` is what was lowered on the way, including what is nested in it, which comes right behind.
Every document that is made has such a list (`Documents.exports_within`). Each step of it begins in
a workspace that has come from the first one by operations (`Lowers.runs`).
-/

set_option autoImplicit false

namespace ProcessGraph

variable {σ : Type}

/-! ## What is embedded -/

namespace Value

/-- The items of a list. -/
def listed : Value → List Value
  | .list vs => vs
  | _ => []

/-- The entries of an object. -/
def entries : Value → List (Scalar × Value)
  | .dict d => d
  | _ => []

mutual

/-- The functions, formulas and builders in an argument, in their order, each with what stands in
its place in the exported argument. -/
def embedded : Value → Value → List (Value × Value)
  | .list vs, document => embeddedInList vs document.listed
  | .tuple vs, document => embeddedInList vs document.listed
  | .dict d, document => embeddedInEntries d document.entries
  | .callback f, document => [(.callback f, document)]
  | .formula f, document => [(.formula f, document)]
  | .builder b, document => [(.builder b, document)]
  | _, _ => []

def embeddedInList : List Value → List Value → List (Value × Value)
  | [], _ => []
  | v :: vs, documents =>
    embedded v (documents.headD .null) ++ embeddedInList vs documents.tail

def embeddedInEntries : List (Scalar × Value) → List (Scalar × Value) → List (Value × Value)
  | [], _ => []
  | (_, v) :: d, documents =>
    embedded v (documents.headD (.null, .null)).2 ++ embeddedInEntries d documents.tail

end

end Value

/-- What is to be done for a document. -/
inductive Task where
  | node (n : NodeRef) (document : Value)
  /-- Something in an argument of the node has a document of its own. -/
  | embed (n : NodeRef) (argument : Scalar) (source document : Value)

namespace Task

/-- What is embedded in the arguments of a node, given the exported ones. -/
def ofNamed (n : NodeRef) : List (Scalar × Value) → List (Scalar × Value) → List Task
  | [], _ => []
  | (name, v) :: arguments, documents =>
    (v.embedded (documents.headD (.null, .null)).2).map (fun e => embed n name e.1 e.2) ++
      ofNamed n arguments documents.tail

/-- The nodes of a builder, given their documents. -/
def ofNodes (nodes : List (String × NodeRef)) (graph : List (Scalar × Value)) : List Task :=
  List.zipWith (fun p e => .node p.2 e.2) nodes graph

end Task

/-! ## Lowerings -/

/-- A call of a function with the builder made for it and the callback parameters, as far as it
takes them. -/
structure Call (σ : Type) where
  function : Callback
  child : BuilderRef
  parameters : List AccessRef
  before : World σ
  value : Value
  after : World σ

/-- What the function is given. -/
def Call.arguments (c : Call σ) : List Value :=
  c.function.accepted (.builder c.child :: c.parameters.map .access)

/-- A function or formula in an argument of a node, and what has become of it. -/
structure Lowering (σ : Type) where
  node : NodeRef
  argument : Scalar
  source : Value
  child : BuilderRef
  /-- The call of the function; there is none for a formula. -/
  call : Option (Call σ)
  result : NodeRef
  /-- When the child builder has got its nodes, and the result is marked. -/
  filled : World σ
  /-- The calls that are made while the child builder is exported. -/
  inside : List (Call σ)
  document : Value

section
variable (call : Documents σ → Callback → List Value → Run σ Value)

/-- From `w` on, a new builder is made for the argument, and a function fills it. -/
structure FillsByCall (w : World σ) (f : Callback) (x : Lowering σ) (c : Call σ) : Prop where
  source : x.source = .callback f
  child : x.child = ⟨w.workspace.builders.size⟩
  call_eq : x.call = some c
  function : c.function = f
  child_eq : c.child = x.child
  begins : ∃ ws, (Build.parentParameters x.child).run (w.workspace.withChild x.node x.argument) =
    (.ok c.parameters, ws) ∧ ∃ r, c.before = ⟨ws.addRecord r, w.host⟩
  runs : ∃ depth, (call (Documents.within call depth) f c.arguments).run c.before =
    (.ok c.value, c.after)
  ends : ∃ v ws process now,
    (Documents.wrapList x.child c.value).run c.after.workspace = (.ok v, ws) ∧
    (Documents.resultNode x.child x.argument process v).run ws = (.ok x.result, now) ∧
    x.filled = ⟨((Build.setResult x.result (.bool true)).run now).2, c.after.host⟩

/-- From `w` on, a new builder is made for the argument, and a formula fills it. -/
structure FillsByFormula (w : World σ) (f : FormulaRef) (x : Lowering σ) : Prop where
  source : x.source = .formula f
  child : x.child = ⟨w.workspace.builders.size⟩
  call_eq : x.call = none
  runs : ∃ ws, (do Build.setFormulaBuilder f x.child; Build.generate f true : Build NodeRef).run
    (w.workspace.withChild x.node x.argument) = (.ok x.result, ws) ∧ x.filled = ⟨ws, w.host⟩

inductive Fills (w : World σ) (x : Lowering σ) : Prop
  | call {f : Callback} {c : Call σ} (h : FillsByCall call w f x c) : Fills w x
  | formula {f : FormulaRef} (h : FillsByFormula w f x) : Fills w x

/-- The document of the builder that has the nodes `nodes` when it is begun. -/
structure IsAssembled (nodes : List (String × NodeRef)) (b : BuilderRef) (now : World σ)
    (graph : List (Scalar × Value)) (document : Value) : Prop where
  keys : graph.map (·.1) = nodes.map fun p => .str p.1
  document : document = Documents.assemble graph (now.workspace.builder b).metadata

inductive Lowers : World σ → List Task → List (Lowering σ) → World σ → Prop
  | nil {w : World σ} : Lowers w [] [] w
  /-- The document of a node is written when its arguments have been exported. -/
  | node {w now last : World σ} {n : NodeRef} {arguments : List (Scalar × Value)}
      {tasks : List Task} {xs ys : List (Lowering σ)}
      (exported : Lowers w (Task.ofNamed n (w.workspace.node n).arguments arguments) xs now)
      (rest : Lowers now tasks ys last) :
      Lowers w
        (.node n (Documents.describe (w.workspace.node n) (now.workspace.node n) arguments) ::
          tasks)
        (xs ++ ys) last
  /-- A function or formula fills its builder, which is then exported. -/
  | lowering {w now last : World σ} {x : Lowering σ} {graph : List (Scalar × Value)}
      {tasks : List Task} {inner ys : List (Lowering σ)} (fills : Fills call w x)
      (assembled :
        IsAssembled (x.filled.workspace.builder x.child).nodes x.child now graph x.document)
      (inside : x.inside = inner.filterMap (·.call))
      (exported : Lowers x.filled
        (Task.ofNodes (x.filled.workspace.builder x.child).nodes graph) inner now)
      (rest : Lowers now tasks ys last) :
      Lowers w (.embed x.node x.argument x.source x.document :: tasks) (x :: inner ++ ys) last
  | builder {w now last : World σ} {n : NodeRef} {argument : Scalar} {b : BuilderRef}
      {document : Value} {graph : List (Scalar × Value)} {tasks : List Task}
      {inner ys : List (Lowering σ)}
      (assembled : IsAssembled (w.workspace.builder b).nodes b now graph document)
      (exported : Lowers w (Task.ofNodes (w.workspace.builder b).nodes graph) inner now)
      (rest : Lowers now tasks ys last) :
      Lowers w (.embed n argument (.builder b) document :: tasks) (inner ++ ys) last

/-- From `w` to `now` the document of a builder was made, and `xs` is what was lowered for it. -/
def Exports (w : World σ) (b : BuilderRef) (document : Value) (xs : List (Lowering σ))
    (now : World σ) : Prop :=
  ∃ graph, IsAssembled (w.workspace.builder b).nodes b now graph document ∧
    Lowers call w (Task.ofNodes (w.workspace.builder b).nodes graph) xs now

end

namespace Lowers

variable {call : Documents σ → Callback → List Value → Run σ Value} {w now last : World σ}
  {tasks more : List Task} {xs ys : List (Lowering σ)}

theorem append (h : Lowers call w tasks xs now) (h' : Lowers call now more ys last) :
    Lowers call w (tasks ++ more) (xs ++ ys) last := by
  induction h with
  | nil => exact h'
  | node exported _ _ ih => rw [List.append_assoc]; exact .node exported (ih h')
  | lowering fills assembled inside exported _ _ ih =>
    rw [List.append_assoc]
    exact .lowering fills assembled inside exported (ih h')
  | builder assembled exported _ _ ih =>
    rw [List.append_assoc]
    exact .builder assembled exported (ih h')

/-- The first node is done first. -/
theorem node_cases {n : NodeRef} {document : Value}
    (h : Lowers call w (.node n document :: tasks) xs last) :
    ∃ arguments now ys zs, xs = ys ++ zs ∧
      document = Documents.describe (w.workspace.node n) (now.workspace.node n) arguments ∧
      Lowers call w (Task.ofNamed n (w.workspace.node n).arguments arguments) ys now ∧
      Lowers call now tasks zs last := by
  cases h with
  | node exported rest => exact ⟨_, _, _, _, rfl, rfl, exported, rest⟩

/-- A function or formula that is to be done is lowered. -/
theorem exists_of_embed {n : NodeRef} {argument : Scalar} {source document : Value}
    (h : Lowers call w tasks xs now) (ht : Task.embed n argument source document ∈ tasks)
    (other : ∀ b, source ≠ .builder b) : ∃ x ∈ xs, x.node = n ∧ x.argument = argument ∧
      x.source = source ∧ x.document = document := by
  induction h with
  | nil => cases ht
  | node _ _ _ ih =>
    rcases List.mem_cons.1 ht with e | ht
    · cases e
    · obtain ⟨x, hx, is⟩ := ih ht
      exact ⟨x, List.mem_append_right _ hx, is⟩
  | @lowering _ _ _ x _ _ _ _ _ _ _ _ _ _ ih =>
    rcases List.mem_cons.1 ht with e | ht
    · injection e with node argument source document
      exact ⟨x, List.mem_cons_self, node.symm, argument.symm, source.symm, document.symm⟩
    · obtain ⟨x, hx, is⟩ := ih ht
      exact ⟨x, List.mem_append_right _ hx, is⟩
  | builder _ _ _ _ ih =>
    rcases List.mem_cons.1 ht with e | ht
    · injection e with _ _ source
      exact absurd source (other _)
    · obtain ⟨x, hx, is⟩ := ih ht
      exact ⟨x, List.mem_append_right _ hx, is⟩

end Lowers

/-! ## Documents have such lists -/

namespace Run

variable {α β : Type} {w last : World σ}

theorem run_lift_bind_eq_ok {step : Build α} {f : α → Run σ β} {b : β}
    (h : (liftM step >>= f : Run σ β).run w = (.ok b, last)) :
    ∃ a ws, step.run w.workspace = (.ok a, ws) ∧ (f a).run ⟨ws, w.host⟩ = (.ok b, last) := by
  obtain ⟨a, now, run, rest⟩ := run_bind_eq_ok h
  rw [run_liftM, Prod.mk.injEq] at run
  obtain ⟨ran, rfl⟩ := run
  exact ⟨a, _, Prod.ext ran rfl, rest⟩

theorem run_atomically_eq_ok {b : BuilderRef} {body : Run σ α} {a : α}
    (h : (atomically b body).run w = (.ok a, last)) : body.run w = (.ok a, last) := by
  rw [run_atomically] at h
  rcases run : body.run w with ⟨e | a', now⟩ <;> rw [run] at h <;> cases h
  rfl

end Run

namespace Documents

variable {call : Documents σ → Callback → List Value → Run σ Value} {depth : Nat}
  {inner : BuilderRef → Run σ Value} {w now : World σ}

/-- Whatever document is made of a builder, there is a list of what was lowered for it. -/
def ListsLowered (call : Documents σ → Callback → List Value → Run σ Value)
    (inner : BuilderRef → Run σ Value) : Prop :=
  ∀ {w now : World σ} {b : BuilderRef} {document : Value},
    (inner b).run w = (.ok document, now) → ∃ xs, Exports call w b document xs now

section
variable (hinner : ListsLowered call inner)
include hinner

theorem lowers_ofFormula {n : NodeRef} {argument : Scalar} {f : FormulaRef} {document : Value}
    (run : (ofFormula inner n argument f).run w = (.ok document, now)) :
    ∃ xs, Lowers call w [.embed n argument (.formula f) document] xs now := by
  unfold ofFormula at run
  obtain ⟨child, ws, made, run⟩ := Run.run_lift_bind_eq_ok run
  rw [run_callbackBuilder] at made
  cases made
  obtain ⟨⟨⟩, ws₁, set, run⟩ := Run.run_lift_bind_eq_ok run
  obtain ⟨result, ws₂, generated, run⟩ := Run.run_lift_bind_eq_ok run
  obtain ⟨xs, graph, assembled, exported⟩ := hinner run
  let x : Lowering σ := {
    node := n, argument, source := .formula f, child := ⟨w.workspace.builders.size⟩, call := none
    result, filled := ⟨ws₂, w.host⟩, inside := xs.filterMap (·.call), document }
  have fills : FillsByFormula w f x :=
    ⟨rfl, rfl, rfl, ws₂, (run_bind_of_ok set).trans generated, rfl⟩
  exact ⟨_, .lowering (x := x) (.formula fills) assembled rfl exported .nil⟩

theorem lowers_ofCallback {n : NodeRef} {argument : Scalar} {f : Callback} {document : Value}
    (run : (ofCallback (call (within call depth)) inner n argument f).run w =
      (.ok document, now)) :
    ∃ xs, Lowers call w [.embed n argument (.callback f) document] xs now := by
  unfold ofCallback at run
  obtain ⟨child, ws, made, run⟩ := Run.run_lift_bind_eq_ok run
  rw [run_callbackBuilder] at made
  cases made
  obtain ⟨parameters, ws₁, passed, run⟩ := Run.run_lift_bind_eq_ok run
  obtain ⟨ws', now', seen, run⟩ := run_bind_eq_ok run
  cases seen
  obtain ⟨⟨⟩, ws₂, logged, run⟩ := Run.run_lift_bind_eq_ok run
  have recorded : ∃ r, ws₂ = ws₁.addRecord r := by
    cases logged
    exact ⟨_, rfl⟩
  replace run := Run.run_atomically_eq_ok run
  obtain ⟨value, after, called, run⟩ := run_bind_eq_ok run
  obtain ⟨v, ws₃, wrapped, run⟩ := Run.run_lift_bind_eq_ok run
  obtain ⟨result, ws₄, found, run⟩ := Run.run_lift_bind_eq_ok run
  obtain ⟨⟨⟩, ws₅, marked, run⟩ := Run.run_lift_bind_eq_ok run
  cases marked
  obtain ⟨xs, graph, assembled, exported⟩ := hinner run
  let c : Call σ := {
    function := f, child := ⟨w.workspace.builders.size⟩, parameters, before := ⟨ws₂, w.host⟩
    value, after }
  let x : Lowering σ := {
    node := n, argument, source := .callback f, child := ⟨w.workspace.builders.size⟩
    call := some c, result
    filled := ⟨((Build.setResult result (.bool true)).run ws₄).2, after.host⟩
    inside := xs.filterMap (·.call), document }
  have fills : FillsByCall call w f x c :=
    ⟨rfl, rfl, rfl, rfl, rfl, ⟨ws₁, passed, recorded.imp fun _ e => congrArg (World.mk · w.host) e⟩,
      ⟨depth, called⟩, v, ws₃, _, ws₄, wrapped, found, rfl⟩
  exact ⟨_, .lowering (x := x) (.call fills) assembled rfl exported .nil⟩

end

mutual

theorem lowers_ofArgument (hinner : ListsLowered call inner)
    {w now : World σ} {n : NodeRef} {argument : Scalar} :
    ∀ {v document : Value}, (ofArgument (call (within call depth)) inner n argument v).run w =
      (.ok document, now) →
    ∃ xs, Lowers call w ((v.embedded document).map fun e => .embed n argument e.1 e.2) xs now
  | .list vs, document, run => by
    unfold ofArgument at run
    obtain ⟨documents, last, exported, run⟩ := run_bind_eq_ok run
    cases run
    exact lowers_ofArguments hinner exported
  | .tuple vs, document, run => by
    unfold ofArgument at run
    obtain ⟨documents, last, exported, run⟩ := run_bind_eq_ok run
    cases run
    exact lowers_ofArguments hinner exported
  | .dict d, document, run => by
    unfold ofArgument at run
    obtain ⟨documents, last, exported, run⟩ := run_bind_eq_ok run
    cases run
    exact lowers_ofEntries hinner exported
  | .callback f, document, run => lowers_ofCallback hinner run
  | .formula f, document, run => lowers_ofFormula hinner run
  | .builder b, document, run => by
    obtain ⟨xs, graph, assembled, exported⟩ := hinner run
    exact ⟨_, .builder assembled exported .nil⟩
  | .node m, document, run => by
    unfold ofArgument ofObject at run
    obtain ⟨ws, _, seen, run⟩ := run_bind_eq_ok run
    cases seen
    split at run <;> cases run
    exact ⟨[], .nil⟩
  | .parameter _, _, run | .access _, _, run | .catalog _, _, run | .null, _, run
  | .bool _, _, run | .int _, _, run | .float _, _, run | .str _, _, run => by
    cases run
    exact ⟨[], .nil⟩

theorem lowers_ofArguments (hinner : ListsLowered call inner)
    {w now : World σ} {n : NodeRef} {argument : Scalar} :
    ∀ {vs documents : List Value},
      (ofArguments (call (within call depth)) inner n argument vs).run w =
        (.ok documents, now) →
      ∃ xs, Lowers call w ((Value.embeddedInList vs documents).map fun e =>
        .embed n argument e.1 e.2) xs now
  | [], _, run => by
    cases run
    exact ⟨[], .nil⟩
  | v :: vs, documents, run => by
    unfold ofArguments at run
    obtain ⟨document, next, first, run⟩ := run_bind_eq_ok run
    obtain ⟨others, last, rest, run⟩ := run_bind_eq_ok run
    cases run
    obtain ⟨xs, h⟩ := lowers_ofArgument hinner first
    obtain ⟨ys, h'⟩ := lowers_ofArguments hinner rest
    rw [Value.embeddedInList, List.map_append]
    exact ⟨_, h.append h'⟩

theorem lowers_ofEntries (hinner : ListsLowered call inner)
    {w now : World σ} {n : NodeRef} {argument : Scalar} :
    ∀ {d documents : List (Scalar × Value)},
      (ofEntries (call (within call depth)) inner n argument d).run w = (.ok documents, now) →
      ∃ xs, Lowers call w ((Value.embeddedInEntries d documents).map fun e =>
        .embed n argument e.1 e.2) xs now
  | [], _, run => by
    cases run
    exact ⟨[], .nil⟩
  | (_, v) :: d, documents, run => by
    unfold ofEntries at run
    obtain ⟨document, next, first, run⟩ := run_bind_eq_ok run
    obtain ⟨others, last, rest, run⟩ := run_bind_eq_ok run
    cases run
    obtain ⟨xs, h⟩ := lowers_ofArgument hinner first
    obtain ⟨ys, h'⟩ := lowers_ofEntries hinner rest
    rw [Value.embeddedInEntries, List.map_append]
    exact ⟨_, h.append h'⟩

end

section
variable (hinner : ListsLowered call inner)
include hinner

theorem lowers_ofNamed {n : NodeRef} : ∀ {d documents : List (Scalar × Value)} {w now : World σ},
    (ofNamed (call (within call depth)) inner n d).run w = (.ok documents, now) →
    ∃ xs, Lowers call w (Task.ofNamed n d documents) xs now
  | [], _, _, _, run => by
    cases run
    exact ⟨[], .nil⟩
  | (name, v) :: d, documents, w, now, run => by
    unfold ofNamed at run
    obtain ⟨document, next, first, run⟩ := run_bind_eq_ok run
    obtain ⟨others, last, rest, run⟩ := run_bind_eq_ok run
    cases run
    obtain ⟨xs, h⟩ := lowers_ofArgument hinner first
    obtain ⟨ys, h'⟩ := lowers_ofNamed rest
    exact ⟨_, h.append h'⟩

theorem lowers_ofNode {n : NodeRef} {document : Value}
    (run : (ofNode (call (within call depth)) inner n).run w = (.ok document, now)) :
    ∃ xs, Lowers call w [.node n document] xs now := by
  rw [run_ofNode] at run
  rcases exported : (ofNamed (call (within call depth)) inner n
    (w.workspace.node n).arguments).run w with ⟨e | arguments, last⟩ <;>
    rw [exported] at run <;> cases run
  obtain ⟨xs, h⟩ := lowers_ofNamed hinner exported
  exact ⟨_, .node h .nil⟩

theorem lowers_ofNodes : ∀ {nodes : List (String × NodeRef)} {graph : List (Scalar × Value)}
    {w now : World σ}, (ofNodes (call (within call depth)) inner nodes).run w = (.ok graph, now) →
    graph.map (·.1) = nodes.map (fun p => .str p.1) ∧
      ∃ xs, Lowers call w (Task.ofNodes nodes graph) xs now
  | [], _, _, _, run => by
    cases run
    exact ⟨rfl, [], .nil⟩
  | (id, n) :: nodes, graph, w, now, run => by
    unfold ofNodes at run
    obtain ⟨document, next, first, run⟩ := run_bind_eq_ok run
    obtain ⟨others, last, rest, run⟩ := run_bind_eq_ok run
    cases run
    obtain ⟨xs, h⟩ := lowers_ofNode hinner first
    obtain ⟨keys, ys, h'⟩ := lowers_ofNodes rest
    exact ⟨by simp [keys], _, h.append h'⟩

theorem exports_ofBuilder {b : BuilderRef} {document : Value}
    (run : (ofBuilder (call (within call depth)) inner b).run w = (.ok document, now)) :
    ∃ xs, Exports call w b document xs now := by
  rw [run_ofBuilder] at run
  rcases exported : (ofNodes (call (within call depth)) inner (w.workspace.builder b).nodes).run w
    with ⟨e | graph, last⟩ <;> rw [exported] at run <;> cases run
  obtain ⟨keys, xs, h⟩ := lowers_ofNodes hinner exported
  exact ⟨xs, graph, ⟨keys, rfl⟩, h⟩

end

/-- A document that is made has a list of what was lowered for it. -/
theorem exports_within {b : BuilderRef} {document : Value}
    (run : ((within call depth).builder b).run w = (.ok document, now)) :
    ∃ xs, Exports call w b document xs now := by
  induction depth generalizing w b document now with
  | zero => cases run
  | succ depth ih => exact exports_ofBuilder ih run

end Documents

/-! ## Where lowerings begin -/

namespace Value

mutual

/-- What is embedded is one of the objects that the argument refers to. -/
theorem mem_embedded : ∀ {v document : Value} {e : Value × Value}, e ∈ v.embedded document →
    ∃ r ∈ v.refs, e.1.refs = [r] ∧ ¬ r.Shown
  | .list vs, _, _, he => mem_embeddedInList he
  | .tuple vs, _, _, he => mem_embeddedInList he
  | .dict d, _, _, he => mem_embeddedInEntries he
  | .callback _, _, _, he | .formula _, _, _, he | .builder _, _, _, he => by
    obtain rfl := List.mem_singleton.1 he
    exact ⟨_, List.mem_singleton.2 rfl, rfl, id⟩
  | .node _, _, _, he | .parameter _, _, _, he | .access _, _, _, he | .catalog _, _, _, he
  | .null, _, _, he | .bool _, _, _, he | .int _, _, _, he | .float _, _, _, he
  | .str _, _, _, he => nomatch he

theorem mem_embeddedInList : ∀ {vs documents : List Value} {e : Value × Value},
    e ∈ embeddedInList vs documents → ∃ r ∈ refsInList vs, e.1.refs = [r] ∧ ¬ r.Shown
  | v :: vs, _, _, he => by
    rcases List.mem_append.1 he with he | he
    · obtain ⟨r, hr, is⟩ := mem_embedded he
      exact ⟨r, List.mem_append_left _ hr, is⟩
    · obtain ⟨r, hr, is⟩ := mem_embeddedInList he
      exact ⟨r, List.mem_append_right _ hr, is⟩

theorem mem_embeddedInEntries : ∀ {d documents : List (Scalar × Value)} {e : Value × Value},
    e ∈ embeddedInEntries d documents → ∃ r ∈ refsInEntries d, e.1.refs = [r] ∧ ¬ r.Shown
  | (_, v) :: d, _, _, he => by
    rcases List.mem_append.1 he with he | he
    · obtain ⟨r, hr, is⟩ := mem_embedded he
      exact ⟨r, List.mem_append_left _ hr, is⟩
    · obtain ⟨r, hr, is⟩ := mem_embeddedInEntries he
      exact ⟨r, List.mem_append_right _ hr, is⟩

end

end Value

/-- The objects that the task is about exist. -/
def Task.Within (ws : Workspace) : Task → Prop
  | node n _ => n.index < ws.nodes.size
  | embed n _ source _ => n.index < ws.nodes.size ∧ source.Within ws

namespace Task

variable {ws now : Workspace}

theorem Within.grow {t : Task} (h : t.Within ws) (g : ws.Grows now) : t.Within now := by
  cases t with
  | node n _ => exact Nat.lt_of_lt_of_le h g.nodes
  | embed n _ _ _ => exact ⟨Nat.lt_of_lt_of_le h.1 g.nodes, g.value_within h.2⟩

/-- The tasks that follow can still be done later. -/
theorem within_tail {t : Task} {tasks : List Task} (within : ∀ u ∈ t :: tasks, u.Within ws)
    (g : ws.Grows now) : ∀ u ∈ tasks, u.Within now :=
  fun u hu => (within u (List.mem_cons_of_mem _ hu)).grow g

theorem within_ofNamed {n : NodeRef} (hn : n.index < ws.nodes.size) :
    ∀ {d documents : List (Scalar × Value)}, (∀ r ∈ Value.refsInEntries d, r.Within ws) →
      ∀ t ∈ ofNamed n d documents, t.Within ws
  | [], _, _, _, ht => nomatch ht
  | (name, v) :: d, documents, hd, t, ht => by
    rcases List.mem_append.1 ht with ht | ht
    · obtain ⟨e, he, rfl⟩ := List.mem_map.1 ht
      obtain ⟨r, hr, refs, -⟩ := Value.mem_embedded he
      refine ⟨hn, fun r' hr' => ?_⟩
      rw [refs, List.mem_singleton] at hr'
      exact hr' ▸ hd r (List.mem_append_left _ hr)
    · exact within_ofNamed hn (fun r hr => hd r (List.mem_append_right _ hr)) t ht

/-- There is nothing to be done for arguments that make no documents. -/
theorem ofNamed_eq_nil {n : NodeRef} : ∀ {d documents : List (Scalar × Value)},
    (∀ r ∈ Value.refsInEntries d, r.Shown) → ofNamed n d documents = []
  | [], _, _ => rfl
  | (name, v) :: d, documents, shown => by
    have none_here : v.embedded (documents.headD (.null, .null)).2 = [] := by
      refine List.eq_nil_iff_forall_not_mem.2 fun e he => ?_
      obtain ⟨r, hr, -, hidden⟩ := Value.mem_embedded he
      exact hidden (shown r (List.mem_append_left _ hr))
    rw [ofNamed, none_here, ofNamed_eq_nil fun r hr => shown r (List.mem_append_right _ hr)]
    rfl

theorem within_ofNodes (wf : ws.WellFormed) {b : BuilderRef} (hb : b.index < ws.builders.size)
    (graph : List (Scalar × Value)) : ∀ t ∈ ofNodes (ws.builder b).nodes graph, t.Within ws := by
  intro t ht
  obtain ⟨i, hi, rfl⟩ := List.mem_iff_getElem.1 ht
  simp only [ofNodes, List.length_zipWith] at hi
  simp only [ofNodes, List.getElem_zipWith]
  exact ((wf.builder b hb).nodes _ _ (List.getElem_mem _)).1

end Task

section
variable {call : Documents σ → Callback → List Value → Run σ Value} {w now : World σ}
  {x : Lowering σ}

/-- What a function finds: a new builder that has nothing but its callback parameters. -/
structure Call.Begins (w : World σ) (n : NodeRef) (argument : Scalar) (names : List Value)
    (c : Call σ) : Prop where
  steps : w.workspace.Steps c.before.workspace
  host : c.before.host = w.host
  nodes : c.before.workspace.nodes = (w.workspace.withChild n argument).nodes
  builders : c.before.workspace.builders.size = w.workspace.builders.size + 1
  child : c.child = ⟨w.workspace.builders.size⟩
  empty : ∃ callbackParameters, c.before.workspace.builder c.child =
    { w.workspace.newChild n argument with callbackParameters }
  passed : c.before.workspace.parentNames c.child = .ok names
  parameters : List.Forall₂ (c.before.workspace.IsCallbackParameter c.child) names c.parameters

theorem FillsByCall.begin {f : Callback} {c : Call σ} (h : FillsByCall call w f x c)
    (wf : w.workspace.WellFormed) (hn : x.node.index < w.workspace.nodes.size) :
    ∃ names, c.Begins w x.node x.argument names := by
  obtain ⟨ws, passed, r, before⟩ := h.begins
  have child : c.child = ⟨w.workspace.builders.size⟩ := h.child_eq.trans h.child
  rw [h.child] at passed
  have steps := Workspace.Steps.withChild wf hn x.argument
  have wf₁ := (steps.appends wf).wellFormed
  have size : (w.workspace.withChild x.node x.argument).builders.size =
      w.workspace.builders.size + 1 := Array.size_push ..
  have hc : w.workspace.builders.size <
      (w.workspace.withChild x.node x.argument).builders.size := by omega
  have contents := Build.sameContents_parentParameters ⟨w.workspace.builders.size⟩
    (w.workspace.withChild x.node x.argument) ⟨w.workspace.builders.size⟩
  have counted := (Workspace.frame_builderCount.keeps_parentParameters _).of_run passed
  have asked := Build.ensures_parentParameters
    (wf₁.extends (fun _ => False) fun _ => False) (b := ⟨w.workspace.builders.size⟩) hc
  obtain ⟨ext, g, same, names, hnames, found⟩ := asked.of_run passed
  rw [passed, Workspace.builder_withChild_self] at contents
  have op : (w.workspace.withChild x.node x.argument).Operation ws := by
    have op := Workspace.Operation.parentParameters (b := ⟨w.workspace.builders.size⟩) hc
    rwa [passed] at op
  have kept := ext.kept.content ⟨w.workspace.builders.size⟩ hc
  have named : ws.parentNames ⟨w.workspace.builders.size⟩ = .ok names :=
    (Workspace.parentNames_of_same wf₁ g hc ext.kept.callbackNames kept.parentNode
      kept.parentParameter).trans hnames
  refine ⟨names, ?_⟩
  constructor
  · rw [before]
    exact .operation (.operation steps op) (.records _ _)
  · rw [before]
  · rw [before]
    exact same.nodes
  · rw [before]
    exact counted.trans size
  · exact child
  · rw [before, child]
    exact ⟨_, contents⟩
  · rw [before, child]
    exact named
  · rw [before, child]
    exact found.imp fun _ _ is => ⟨is.within, is.builder, is.parameter⟩

/-- A new builder is there when it is about to be filled. -/
theorem Call.Begins.child_lt {n : NodeRef} {argument : Scalar} {names : List Value} {c : Call σ}
    (h : c.Begins w n argument names) : c.child.index < c.before.workspace.builders.size := by
  rw [h.child, h.builders]
  exact Nat.lt_succ_self _

theorem Call.Begins.given {n : NodeRef} {argument : Scalar} {names : List Value} {c : Call σ}
    (h : c.Begins w n argument names) : ∀ v ∈ c.arguments, v.Within c.before.workspace := by
  intro v hv
  rcases List.mem_cons.1 (Callback.mem_of_mem_accepted hv) with rfl | hv
  · exact Value.within_builder.2 h.child_lt
  · obtain ⟨a, ha, rfl⟩ := List.mem_map.1 hv
    obtain ⟨_, _, is⟩ := exists_of_forall₂_of_mem h.parameters ha
    exact Value.within_access.2 is.within

/-! ## Lowerings are made of operations -/

section
variable (hcall : ∀ depth, Calls.Operate (call (Documents.within call depth)))
  (wf : w.workspace.WellFormed) (hn : x.node.index < w.workspace.nodes.size)
include wf hn

theorem FillsByCall.called (hcall : ∀ depth, Calls.Operate (call (Documents.within call depth)))
    {f : Callback} {c : Call σ} (h : FillsByCall call w f x c) :
    c.before.workspace.Steps c.after.workspace ∧ c.value.Within c.after.workspace := by
  obtain ⟨names, begin⟩ := h.begin wf hn
  obtain ⟨depth, run⟩ := h.runs
  have operates := hcall depth c.before f c.arguments (begin.steps.appends wf).wellFormed
    begin.given
  obtain ⟨steps, -, within⟩ := operates.of_run run
  exact ⟨steps, within⟩

include hcall

/-- What is returned becomes the result by operations, too. -/
theorem FillsByCall.steps {f : Callback} {c : Call σ} (h : FillsByCall call w f x c) :
    w.workspace.Steps x.filled.workspace ∧
      x.child.index < x.filled.workspace.builders.size := by
  obtain ⟨names, begin⟩ := h.begin wf hn
  obtain ⟨called, within⟩ := h.called wf hn hcall
  obtain ⟨v, ws, process, now, wrapped, found, filled⟩ := h.ends
  have wf₁ := (begin.steps.appends wf).wellFormed
  have wf₂ := (called.appends wf₁).wellFormed
  have hc : x.child.index < c.after.workspace.builders.size :=
    Nat.lt_of_lt_of_le (h.child_eq ▸ begin.child_lt) (called.appends wf₁).grows.builders
  obtain ⟨steps, g, hv⟩ := (Documents.ensures_wrapList wf₂ (.refl _) hc within).of_run wrapped
  obtain ⟨steps', g', -⟩ := (Documents.ensures_resultNode steps x.child x.argument process v).of_run
    found
  have last : c.after.workspace.Steps x.filled.workspace := by
    rw [filled]
    exact .operation steps' (.setResult _ _)
  exact ⟨(begin.steps.trans called).trans last,
    Nat.lt_of_lt_of_le hc (last.appends wf₂).grows.builders⟩

omit hcall in
theorem FillsByFormula.steps {f : FormulaRef} (h : FillsByFormula w f x)
    (hx : x.source.Within w.workspace) : w.workspace.Steps x.filled.workspace ∧
      x.child.index < x.filled.workspace.builders.size := by
  obtain ⟨ws, run, filled⟩ := h.runs
  rw [h.source] at hx
  have hf : f.index < w.workspace.formulas.size := Value.within_formula.1 hx
  rw [h.child] at run
  have steps := Workspace.Steps.withChild wf hn x.argument
  have hc : w.workspace.builders.size <
      (w.workspace.withChild x.node x.argument).builders.size := by
    show _ < (w.workspace.builders.push _).size
    simp
  have op : (w.workspace.withChild x.node x.argument).Operation _ :=
    .setFormulaBuilder f (b := ⟨w.workspace.builders.size⟩) hc
  obtain ⟨⟨⟩, set, hset, generated⟩ := run_bind_eq_ok run
  cases hset
  have inside : ∀ b ∈ ((w.workspace.withChild x.node x.argument).modifyFormula f fun formula =>
      { formula with builder := some ⟨w.workspace.builders.size⟩ }).formula f |>.builder,
      b.index < (w.workspace.withChild x.node x.argument).builders.size := by
    intro b hb
    rw [Workspace.formula_modifyFormula, if_pos ⟨rfl, hf⟩] at hb
    cases hb
    exact hc
  have last : (w.workspace.withChild x.node x.argument).Steps ws := by
    have op' := Workspace.Operation.generate f inside true
    rw [show (Build.generate f true).run _ = _ from generated] at op'
    exact .operation (.operation (.refl _) op) op'
  have wf₁ := (steps.appends wf).wellFormed
  rw [filled]
  refine ⟨steps.trans last, ?_⟩
  rw [h.child]
  exact Nat.lt_of_lt_of_le hc (last.appends wf₁).grows.builders

theorem Fills.steps (h : Fills call w x) (hx : x.source.Within w.workspace) :
    w.workspace.Steps x.filled.workspace ∧
      x.child.index < x.filled.workspace.builders.size := by
  cases h with
  | call h => exact h.steps hcall wf hn
  | formula h => exact h.steps wf hn hx

end

/-- What holds of lowerings one after the other if it holds of each, given what is nested in it. -/
theorem Lowers.induction (hcall : ∀ depth, Calls.Operate (call (Documents.within call depth)))
    {P : World σ → List (Lowering σ) → World σ → Prop} (nil : ∀ w, P w [] w)
    (append : ∀ {w now last : World σ} {xs ys : List (Lowering σ)},
      w.workspace.WellFormed → w.workspace.Steps now.workspace →
      now.workspace.Steps last.workspace → P w xs now → P now ys last → P w (xs ++ ys) last)
    (lowering : ∀ {w now : World σ} {x : Lowering σ} {inner : List (Lowering σ)},
      w.workspace.WellFormed → x.node.index < w.workspace.nodes.size →
      x.source.Within w.workspace → Fills call w x →
      w.workspace.Steps x.filled.workspace → x.filled.workspace.Steps now.workspace →
      x.inside = inner.filterMap (·.call) → Exports call x.filled x.child x.document inner now →
      P x.filled inner now → P w (x :: inner) now)
    {tasks : List Task} {xs : List (Lowering σ)} (h : Lowers call w tasks xs now)
    (wf : w.workspace.WellFormed) (within : ∀ t ∈ tasks, t.Within w.workspace) :
    w.workspace.Steps now.workspace ∧ P w xs now := by
  induction h with
  | nil => exact ⟨.refl _, nil _⟩
  | @node w now last n arguments tasks xs ys exported rest ih ih' =>
    have hn : n.index < w.workspace.nodes.size := within _ List.mem_cons_self
    obtain ⟨steps, done⟩ := ih wf (Task.within_ofNamed hn fun r hr =>
      ((wf.node n hn).arguments r hr).1)
    have appends := steps.appends wf
    obtain ⟨steps', done'⟩ := ih' appends.wellFormed (Task.within_tail within appends.grows)
    exact ⟨steps.trans steps', append wf steps steps' done done'⟩
  | @lowering w now last x graph tasks inner ys fills assembled inside exported rest ih ih' =>
    obtain ⟨hn, hx⟩ : x.node.index < w.workspace.nodes.size ∧ x.source.Within w.workspace :=
      within _ List.mem_cons_self
    obtain ⟨filled, hc⟩ := fills.steps hcall wf hn hx
    have wf₁ := (filled.appends wf).wellFormed
    obtain ⟨steps, done⟩ := ih wf₁ (Task.within_ofNodes wf₁ hc graph)
    have first := lowering wf hn hx fills filled steps inside ⟨graph, assembled, exported⟩ done
    have appends := (filled.trans steps).appends wf
    obtain ⟨steps', done'⟩ := ih' appends.wellFormed (Task.within_tail within appends.grows)
    exact ⟨(filled.trans steps).trans steps',
      append wf (filled.trans steps) steps' first done'⟩
  | @builder w now last n argument b document graph tasks inner ys assembled exported rest ih ih' =>
    obtain ⟨-, hb⟩ : n.index < w.workspace.nodes.size ∧ (Value.builder b).Within w.workspace :=
      within _ List.mem_cons_self
    obtain ⟨steps, done⟩ := ih wf (Task.within_ofNodes wf (Value.within_builder.1 hb) graph)
    have appends := steps.appends wf
    obtain ⟨steps', done'⟩ := ih' appends.wellFormed (Task.within_tail within appends.grows)
    exact ⟨steps.trans steps', append wf steps steps' done done'⟩

theorem Lowers.steps (hcall : ∀ depth, Calls.Operate (call (Documents.within call depth)))
    {tasks : List Task} {xs : List (Lowering σ)} (h : Lowers call w tasks xs now)
    (wf : w.workspace.WellFormed) (within : ∀ t ∈ tasks, t.Within w.workspace) :
    w.workspace.Steps now.workspace :=
  (h.induction hcall (P := fun _ _ _ => True) (fun _ => trivial) (fun _ _ _ _ _ => trivial)
    (fun _ _ _ _ _ _ _ _ _ => trivial) wf within).1

/-- The lowering begins in `before`, where its node and its argument exist; then its builder is
exported until `last`, and `inner` is what is nested in it. -/
structure Lowering.Runs (call : Documents σ → Callback → List Value → Run σ Value)
    (x : Lowering σ) (before : World σ) (inner : List (Lowering σ)) (last : World σ) : Prop where
  wellFormed : before.workspace.WellFormed
  node : x.node.index < before.workspace.nodes.size
  source : x.source.Within before.workspace
  fills : Fills call before x
  inside : x.inside = inner.filterMap (·.call)
  exports : Exports call x.filled x.child x.document inner last

/-- Each lowering begins where operations have led to. -/
theorem Lowers.runs (hcall : ∀ depth, Calls.Operate (call (Documents.within call depth)))
    {tasks : List Task} {xs : List (Lowering σ)} (h : Lowers call w tasks xs now)
    (wf : w.workspace.WellFormed) (within : ∀ t ∈ tasks, t.Within w.workspace) :
    ∀ x ∈ xs, ∃ before inner last, w.workspace.Steps before.workspace ∧
      x.Runs call before inner last := by
  refine (h.induction hcall (P := fun w xs _ => ∀ x ∈ xs, ∃ before inner last,
    w.workspace.Steps before.workspace ∧ x.Runs call before inner last)
    (fun _ => List.forall_mem_nil _) ?append ?lowering wf within).2
  case append =>
    intro w now last xs ys wf steps _ first rest x hx
    rcases List.mem_append.1 hx with hx | hx
    · exact first x hx
    · obtain ⟨before, inner, end_, steps', runs⟩ := rest x hx
      exact ⟨before, inner, end_, steps.trans steps', runs⟩
  case lowering =>
    intro w now x inner wf hn hsource fills filled _ inside exports nested y hy
    rcases List.mem_cons.1 hy with rfl | hy
    · exact ⟨w, inner, now, .refl _, wf, hn, hsource, fills, inside, exports⟩
    · obtain ⟨before, inner', end_, steps', runs⟩ := nested y hy
      exact ⟨before, inner', end_, filled.trans steps', runs⟩

end

end ProcessGraph
