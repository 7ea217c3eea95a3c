import ProcessGraph.Proofs.Graph.Embeddings

/-!
# The order of calls

The functions in the arguments of the nodes of a builder (`Workspace.occurrences`) are called one
after the other, each once, when the builder is exported (`Exports.callsEach`): in the order in
which the nodes have been registered, for each node in the order of its arguments, and from left to
right in an argument. The same holds of the builders that they get (`Lowers.callsEach_nested`),
which are new ones each time (`Lowers.new_children`).

An owner of the functions who keeps a record of their calls finds these calls in it, in this order,
and no others (`Lowers.recorded`).
-/

set_option autoImplicit false

namespace ProcessGraph

variable {σ : Type}

/-! ## Occurrences -/

namespace Value

mutual

/-- The functions in a value, from left to right. -/
def callbacks : Value → List Callback
  | .callback f => [f]
  | .list vs => callbacksInList vs
  | .tuple vs => callbacksInList vs
  | .dict d => callbacksInEntries d
  | _ => []

def callbacksInList : List Value → List Callback
  | [] => []
  | v :: vs => callbacks v ++ callbacksInList vs

def callbacksInEntries : List (Scalar × Value) → List Callback
  | [] => []
  | (_, v) :: d => callbacks v ++ callbacksInEntries d

end

/-- The function that the value is. -/
def callback? : Value → Option Callback
  | .callback f => some f
  | _ => none

mutual

/-- What is embedded in an argument are its functions, among others, in their order. -/
theorem filterMap_embedded : ∀ v document : Value,
    (v.embedded document).filterMap (fun e => e.1.callback?) = v.callbacks
  | .list vs, document => filterMap_embeddedInList vs document.listed
  | .tuple vs, document => filterMap_embeddedInList vs document.listed
  | .dict d, document => filterMap_embeddedInEntries d document.entries
  | .callback _, _ | .formula _, _ | .builder _, _ => rfl
  | .null, _ | .bool _, _ | .int _, _ | .float _, _ | .str _, _ => rfl
  | .node _, _ | .parameter _, _ | .access _, _ | .catalog _, _ => rfl

theorem filterMap_embeddedInList : ∀ vs documents : List Value,
    (embeddedInList vs documents).filterMap (fun e => e.1.callback?) = callbacksInList vs
  | [], _ => rfl
  | v :: vs, documents => by
    rw [embeddedInList, List.filterMap_append, filterMap_embedded, filterMap_embeddedInList,
      callbacksInList]

theorem filterMap_embeddedInEntries : ∀ d documents : List (Scalar × Value),
    (embeddedInEntries d documents).filterMap (fun e => e.1.callback?) = callbacksInEntries d
  | [], _ => rfl
  | (_, v) :: d, documents => by
    rw [embeddedInEntries, List.filterMap_append, filterMap_embedded,
      filterMap_embeddedInEntries, callbacksInEntries]

end

end Value

/-- A function in an argument of a node. -/
structure Occurrence where
  node : NodeRef
  argument : Scalar
  function : Callback

/-- The functions in the arguments of a node. -/
def occurrencesIn (n : NodeRef) (arguments : List (Scalar × Value)) : List Occurrence :=
  arguments.flatMap fun a => a.2.callbacks.map (Occurrence.mk n a.1)

namespace Workspace

/-- The functions in the arguments of the nodes of a builder, in the order of the nodes. -/
def occurrences (ws : Workspace) (b : BuilderRef) : List Occurrence :=
  (ws.builder b).nodes.flatMap fun p => occurrencesIn p.2 (ws.node p.2).arguments

end Workspace

/-- The functions that are called for a task itself. -/
def Task.occurrences (ws : Workspace) : Task → List Occurrence
  | node n _ => occurrencesIn n (ws.node n).arguments
  | embed n argument source _ => (source.callback?.map (Occurrence.mk n argument)).toList

/-- The function that is lowered. -/
def Lowering.occurrence? (x : Lowering σ) : Option Occurrence :=
  x.source.callback?.map (Occurrence.mk x.node x.argument)

namespace Task

variable {ws now : Workspace}

theorem occurrences_ofNamed (n : NodeRef) : ∀ d documents : List (Scalar × Value),
    (ofNamed n d documents).flatMap (occurrences ws) = occurrencesIn n d
  | [], _ => rfl
  | (name, v) :: d, documents => by
    have here (es : List (Value × Value)) :
        (es.map fun e => embed n name e.1 e.2).flatMap (occurrences ws) =
          (es.filterMap fun e => e.1.callback?).map (Occurrence.mk n name) := by
      induction es with
      | nil => rfl
      | cons e es ih =>
        rw [List.map_cons, List.flatMap_cons, ih, occurrences]
        cases h : e.1.callback? <;> simp [h]
    rw [ofNamed, List.flatMap_append, here, Value.filterMap_embedded, occurrences_ofNamed]
    rfl

theorem occurrences_ofNodes {nodes : List (String × NodeRef)} {graph : List (Scalar × Value)}
    (h : nodes.length = graph.length) : (ofNodes nodes graph).flatMap (occurrences ws) =
      nodes.flatMap fun p => occurrencesIn p.2 (ws.node p.2).arguments := by
  induction nodes generalizing graph with
  | nil => rfl
  | cons p nodes ih =>
    obtain ⟨e, graph, rfl⟩ := List.exists_cons_of_length_eq_add_one h.symm
    rw [List.flatMap_cons, ← ih (Nat.succ.inj h)]
    rfl

/-- The tasks that follow are for the same functions later, as the arguments of a node stay. -/
theorem occurrences_tail {t : Task} {tasks : List Task} (within : ∀ u ∈ t :: tasks, u.Within ws)
    (g : ws.Grows now) : tasks.flatMap (occurrences now) = tasks.flatMap (occurrences ws) := by
  rw [List.flatMap_def, List.flatMap_def]
  refine congrArg List.flatten (List.map_congr_left fun u hu => ?_)
  have here := within u (List.mem_cons_of_mem _ hu)
  cases u with
  | node n _ =>
    simp only [occurrences]
    rw [(g.node n here).arguments]
  | embed => rfl

end Task

/-! ## Each function is called -/

/-- Among the lowerings are those of the functions in the nodes of a builder, each once and in the
order of the functions. The others are nested in them. -/
def CallsEach (ws : Workspace) (b : BuilderRef) (xs : List (Lowering σ)) : Prop :=
  ∃ direct : List (Lowering σ), direct.Sublist xs ∧
    direct.map Lowering.occurrence? = (ws.occurrences b).map some

theorem CallsEach.mono {ws : Workspace} {b : BuilderRef} {xs ys : List (Lowering σ)}
    (h : CallsEach ws b xs) (sub : xs.Sublist ys) : CallsEach ws b ys := by
  obtain ⟨direct, hsub, same⟩ := h
  exact ⟨direct, hsub.trans sub, same⟩

section
variable {call : Documents σ → Callback → List Value → Run σ Value} {w now : World σ}
  (hcall : ∀ depth, Calls.Operate (call (Documents.within call depth)))
include hcall

/-- The lowerings for the functions of the tasks themselves come in the order of the tasks. -/
theorem Lowers.calls {tasks : List Task} {xs : List (Lowering σ)} (h : Lowers call w tasks xs now)
    (wf : w.workspace.WellFormed) (within : ∀ t ∈ tasks, t.Within w.workspace) :
    ∃ direct : List (Lowering σ), direct.Sublist xs ∧ direct.map Lowering.occurrence? =
      (tasks.flatMap (Task.occurrences w.workspace)).map some := by
  induction h with
  | nil => exact ⟨[], .slnil, rfl⟩
  | @node w now last n arguments tasks xs ys exported rest ih ih' =>
    have hn : n.index < w.workspace.nodes.size := within _ List.mem_cons_self
    have inside : ∀ t ∈ Task.ofNamed n _ arguments, t.Within w.workspace :=
      Task.within_ofNamed hn fun r hr => ((wf.node n hn).arguments r hr).1
    have appends := (exported.steps hcall wf inside).appends wf
    obtain ⟨direct, sub, same⟩ := ih wf inside
    obtain ⟨direct', sub', same'⟩ := ih' appends.wellFormed (Task.within_tail within appends.grows)
    refine ⟨direct ++ direct', sub.append sub', ?_⟩
    rw [List.map_append, same, same', Task.occurrences_ofNamed,
      Task.occurrences_tail within appends.grows, ← List.map_append]
    rfl
  | @lowering w now last x graph tasks inner ys fills assembled inside exported rest _ ih' =>
    obtain ⟨hn, hx⟩ : x.node.index < w.workspace.nodes.size ∧ x.source.Within w.workspace :=
      within _ List.mem_cons_self
    obtain ⟨filled, hc⟩ := fills.steps hcall wf hn hx
    have wf₁ := (filled.appends wf).wellFormed
    have steps := filled.trans (exported.steps hcall wf₁ (Task.within_ofNodes wf₁ hc graph))
    have appends := steps.appends wf
    obtain ⟨direct, sub, same⟩ := ih' appends.wellFormed (Task.within_tail within appends.grows)
    rw [Task.occurrences_tail within appends.grows] at same
    have nested : direct.Sublist (inner ++ ys) := sub.trans (List.sublist_append_right ..)
    rw [List.flatMap_cons, List.map_append, ← same, Task.occurrences]
    cases hf : x.source.callback? with
    | none => exact ⟨direct, .cons _ nested, rfl⟩
    | some f =>
      refine ⟨x :: direct, .cons_cons _ nested, ?_⟩
      rw [List.map_cons, Lowering.occurrence?, hf]
      rfl
  | @builder w now last n argument b document graph tasks inner ys assembled exported rest _ ih' =>
    obtain ⟨-, hb⟩ : n.index < w.workspace.nodes.size ∧ (Value.builder b).Within w.workspace :=
      within _ List.mem_cons_self
    have steps := exported.steps hcall wf
      (Task.within_ofNodes wf (Value.within_builder.1 hb) graph)
    have appends := steps.appends wf
    obtain ⟨direct, sub, same⟩ := ih' appends.wellFormed (Task.within_tail within appends.grows)
    rw [Task.occurrences_tail within appends.grows] at same
    exact ⟨direct, sub.trans (List.sublist_append_right ..), same⟩

/-- The functions in the nodes of a builder are called when it is exported. -/
theorem Exports.callsEach {b : BuilderRef} {document : Value} {xs : List (Lowering σ)}
    (h : Exports call w b document xs now) (wf : w.workspace.WellFormed)
    (hb : b.index < w.workspace.builders.size) : CallsEach w.workspace b xs := by
  obtain ⟨graph, assembled, lowers⟩ := h
  obtain ⟨direct, sub, same⟩ := lowers.calls hcall wf (Task.within_ofNodes wf hb graph)
  have length : (w.workspace.builder b).nodes.length = graph.length := by
    simpa using (congrArg List.length assembled.keys).symm
  rw [Task.occurrences_ofNodes length] at same
  exact ⟨direct, sub, same⟩

section
variable {tasks : List Task} {xs : List (Lowering σ)} (h : Lowers call w tasks xs now)
  (wf : w.workspace.WellFormed) (within : ∀ t ∈ tasks, t.Within w.workspace)
include h wf within

/-- So are those in the builders that other functions and formulas have filled. -/
theorem Lowers.callsEach_nested :
    ∀ x ∈ xs, CallsEach x.filled.workspace x.child xs := by
  refine (h.induction hcall (P := fun _ xs _ => ∀ x ∈ xs, CallsEach x.filled.workspace x.child xs)
    (fun _ => List.forall_mem_nil _) ?append ?lowering wf within).2
  case append =>
    intro w now last xs ys _ _ _ first rest x hx
    rcases List.mem_append.1 hx with hx | hx
    · exact (first x hx).mono (List.sublist_append_left ..)
    · exact (rest x hx).mono (List.sublist_append_right ..)
  case lowering =>
    intro w now x inner wf hn hsource fills filled _ _ exports nested y hy
    rcases List.mem_cons.1 hy with rfl | hy
    · have hc := (fills.steps hcall wf hn hsource).2
      exact (exports.callsEach hcall (filled.appends wf).wellFormed hc).mono
        (List.sublist_cons_self ..)
    · exact (nested y hy).mono (List.sublist_cons_self ..)

/-- Each lowering has its own builder, which is newer than those of the lowerings before it. -/
theorem Lowers.new_children : (∀ x ∈ xs, w.workspace.builders.size ≤ x.child.index) ∧
    xs.Pairwise fun x y => x.child.index < y.child.index := by
  have children := h.induction hcall (P := fun w xs now =>
    (∀ x ∈ xs, w.workspace.builders.size ≤ x.child.index ∧
      x.child.index < now.workspace.builders.size) ∧
    xs.Pairwise fun x y => x.child.index < y.child.index)
    (fun _ => ⟨List.forall_mem_nil _, .nil⟩) ?append ?lowering wf within
  · exact ⟨fun x hx => (children.2.1 x hx).1, children.2.2⟩
  case append =>
    intro w now last xs ys wf steps steps' ⟨first, inOrder⟩ ⟨rest, inOrder'⟩
    have g := (steps.appends wf).grows.builders
    have g' := (steps'.appends (steps.appends wf).wellFormed).grows.builders
    refine ⟨fun x hx => ?_, List.pairwise_append.2 ⟨inOrder, inOrder', fun x hx y hy => ?_⟩⟩
    · rcases List.mem_append.1 hx with hx | hx
      · have := first x hx
        omega
      · have := rest x hx
        omega
    · have := first x hx
      have := rest y hy
      omega
  case lowering =>
    intro w now x inner wf hn hsource fills filled steps _ _ ⟨nested, inOrder⟩
    have hc := (fills.steps hcall wf hn hsource).2
    have new : x.child.index = w.workspace.builders.size := by
      cases fills with
      | call fills => rw [fills.child]
      | formula fills => rw [fills.child]
    have g := (steps.appends (filled.appends wf).wellFormed).grows.builders
    refine ⟨fun y hy => ?_, .cons (fun y hy => ?_) inOrder⟩
    · rcases List.mem_cons.1 hy with rfl | hy
      · omega
      · have := nested y hy
        omega
    · have := nested y hy
      omega

end

end

/-! ## Records of calls -/

/-- The owner of the functions records each call that returns, and nothing else. -/
def Records (call : Documents σ → Callback → List Value → Run σ Value)
    (record : σ → List (Callback × List Value)) : Prop :=
  ∀ {depth : Nat} {f : Callback} {arguments : List Value} {w : World σ} {v : Value} {now : World σ},
    (call (Documents.within call depth) f arguments).run w = (.ok v, now) →
    record now.host = record w.host ++ [(f, arguments)]

/-- The call of a function as it is recorded. -/
def Lowering.recorded? (x : Lowering σ) : Option (Callback × List Value) :=
  x.call.map fun c => (c.function, c.arguments)

/-- The calls are made in the order of the lowerings, and no other ones. -/
theorem Lowers.recorded {call : Documents σ → Callback → List Value → Run σ Value}
    (hcall : ∀ depth, Calls.Operate (call (Documents.within call depth)))
    {record : σ → List (Callback × List Value)} (records : Records call record)
    {w now : World σ} {tasks : List Task} {xs : List (Lowering σ)}
    (h : Lowers call w tasks xs now) (wf : w.workspace.WellFormed)
    (within : ∀ t ∈ tasks, t.Within w.workspace) :
    record now.host = record w.host ++ xs.filterMap Lowering.recorded? := by
  refine (h.induction hcall (P := fun w xs now =>
    record now.host = record w.host ++ xs.filterMap Lowering.recorded?)
    (fun _ => (List.append_nil _).symm) ?append ?lowering wf within).2
  case append =>
    intro w now last xs ys _ _ _ first rest
    rw [rest, first, List.filterMap_append, List.append_assoc]
  case lowering =>
    intro w now x inner wf hn _ fills _ _ _ _ nested
    have here : record x.filled.host = record w.host ++ x.recorded?.toList := by
      cases fills with
      | @call f c fills =>
        obtain ⟨names, begin⟩ := fills.begin wf hn
        obtain ⟨depth, run⟩ := fills.runs
        obtain ⟨v, ws, process, now, -, -, filled⟩ := fills.ends
        rw [filled, records run, begin.host, Lowering.recorded?, fills.call_eq, ← fills.function]
        rfl
      | formula fills =>
        obtain ⟨ws, -, filled⟩ := fills.runs
        rw [filled, Lowering.recorded?, fills.call_eq]
        exact (List.append_nil _).symm
    rw [nested, here, List.append_assoc]
    cases hr : x.recorded? <;> simp [hr]

end ProcessGraph
