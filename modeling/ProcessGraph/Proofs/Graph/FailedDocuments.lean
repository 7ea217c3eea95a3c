import ProcessGraph.Proofs.Graph.FailedCallbacks
import ProcessGraph.Proofs.Graph.ForeignNodes
import ProcessGraph.Proofs.Graph.SimulatedFormulas

/-!
# Documents that fail

Whatever fails while a document is made, the builders that there were have got no nodes, and have
lost none (`Conduct.Governs.keeps_builders`). The parameters of the root are another matter:
functions and formulas declare them while their builders are filled, and are rolled back one by one.

A document that fails stops at one of its exports (`Conduct.makes_ofBuilder`). The export that fails
leaves no parameter behind: a function is rolled back to where it was called, a formula to where it
was lowered (`Conduct.parameters_of_failed`). Main statement: the root has the parameters that it
had when the export that fails was begun, which are those from before if nothing that makes a
document has been exported until then (`Documents.failedDocument_stops`).
-/

set_option autoImplicit false

namespace ProcessGraph

variable {σ : Type}

/-! ## What exports leave -/

/-- Nodes and parameters are exported without a trace. -/
theorem Exported.eq_of_shown {call : Callback → List Value → Run σ Value}
    {inner : BuilderRef → Run σ Value} {w now : World σ} {xs : List Export}
    (h : Exported call inner w xs now) (shown : ∀ x ∈ xs, ∀ r ∈ x.source.refs, r.Shown) :
    now = w := by
  refine h.eq_of_quiet fun x hx document now run => ?_
  have here := shown x hx
  rcases x with ⟨n, argument, v⟩
  change (Documents.ofObject call inner n argument v).run w = _ at run
  dsimp only at here
  cases v with
  | node m =>
    change (if _ then _ else _ : Run σ Value).run w = _ at run
    split at run <;> cases run
    rfl
  | builder _ | formula _ | callback _ => exact (here _ (List.mem_singleton.2 rfl)).elim
  | _ =>
    cases run
    rfl

namespace Documents

section
variable {inner : BuilderRef → Run σ Value}
  (reads : ∀ (w : World σ) (b : BuilderRef), w.workspace.WellFormed →
    b.index < w.workspace.builders.size → w.workspace.PlainNodes b → Run.Reads w (inner b))
  {w now : World σ} (wf : w.workspace.WellFormed) {e : Failure}
include reads wf

/-- A formula fails while it is lowered: then all nodes are plain, and can be exported. -/
theorem undone_of_lowerFormula {b : BuilderRef} (hb : b.index < w.workspace.builders.size)
    (plain : w.workspace.PlainNodes b) {f : FormulaRef}
    (hf : (w.workspace.formula f).builder = some b)
    (run : (do let _ ← Build.generate f true; inner b : Run σ Value).run w = (.error e, now)) :
    w.workspace.Undone now.workspace b := by
  have generates := Build.confined_generate wf ⟨hb, rfl⟩ plain hf true
  rw [run_bind_state, Run.run_liftM] at run
  rcases lowered : (Build.generate f true).run w.workspace with ⟨e' | m, ws⟩ <;>
    rw [lowered] at run
  · cases run
    exact Build.undone_of_generate wf hb hf lowered
  · obtain ⟨confined, g, plain'⟩ := generates.of_run lowered
    obtain ⟨document, made⟩ := reads ⟨ws, w.host⟩ b confined.wellFormed
      (Nat.lt_of_lt_of_le hb g.builders) plain'
    rw [show (inner b).run _ = _ from run] at made
    cases made

theorem undone_of_ofFormula {n : NodeRef} (hn : n.index < w.workspace.nodes.size) {f : FormulaRef}
    (hf : f.index < w.workspace.formulas.size) {argument : Scalar}
    (run : (ofFormula inner n argument f).run w = (.error e, now)) :
    (w.workspace.withChild n argument).Undone now.workspace ⟨w.workspace.builders.size⟩ := by
  have appends := (Workspace.Steps.withChild wf hn argument).appends wf
  have empty := w.workspace.builder_withChild_self n argument
  have hc : w.workspace.builders.size < (w.workspace.withChild n argument).builders.size := by
    show _ < (w.workspace.builders.push _).size
    simp
  -- That the formula is set to the new builder changes no builder.
  obtain ⟨ext, g, set⟩ := Build.ensures_setFormulaBuilder
    (appends.wellFormed.extends (fun _ => True) fun _ => True) f ⟨w.workspace.builders.size⟩
  obtain ⟨builders, hset⟩ := set () rfl
  have same (c : BuilderRef) := congrArg (Arena.get · c.index) builders
  have plain : Workspace.PlainNodes _ ⟨w.workspace.builders.size⟩ := fun p hp => by
    rw [show Workspace.builder _ ⟨w.workspace.builders.size⟩ = _ from (same _).trans empty] at hp
    cases hp
  have undone := undone_of_lowerFormula reads ext.wellFormed (w := ⟨_, w.host⟩)
    (Nat.lt_of_lt_of_le hc g.builders) plain (hset (Nat.lt_of_lt_of_le hf appends.grows.formulas))
    run
  exact Workspace.SameContents.undone same appends.wellFormed g hc undone

end

end Documents

namespace Conduct

variable {K : Conduct σ} {root b : BuilderRef} {call : Callback → List Value → Run σ Value}
  {inner : BuilderRef → Run σ Value}

section
variable (hinner : K.Exports inner) (hcall : K.SafeCalls call)
include hinner hcall

/-- The root has the parameters that it had before the export that fails. -/
theorem parameters_of_failed
    (reads : ∀ (w : World σ) (b : BuilderRef), w.workspace.WellFormed →
      b.index < w.workspace.builders.size → w.workspace.PlainNodes b → Run.Reads w (inner b))
    {w now : World σ} {x : Export} (ready : ∀ r ∈ x.source.refs, K.Ready root b w x.node r)
    (other : ∀ c, x.source ≠ .builder c) {e : Failure}
    (run : (x.make call inner).run w = (.error e, now)) :
    (now.workspace.builder root).metadata.parameters =
      (w.workspace.builder root).metadata.parameters := by
  rcases x with ⟨n, argument, v⟩
  change (Documents.ofObject call inner n argument v).run w = _ at run
  dsimp only at ready other
  cases v with
  | node m =>
    change (if _ then _ else _ : Run σ Value).run w = _ at run
    split at run <;> cases run
    rfl
  | builder c => exact absurd rfl (other c)
  | formula f =>
    have r := ready _ (List.mem_singleton.2 rfl)
    have undone := Documents.undone_of_ofFormula reads r.wellFormed r.node r.within run
    exact undone.of_withChild r.wellFormed r.node (r.own ▸ r.under)
  | callback f =>
    have r := ready _ (List.mem_singleton.2 rfl)
    have undoes := undoes_newChild hinner r.wellFormed r.node (r.own ▸ r.under) argument hcall
      r.harmless
    exact (undoes.undone e now run).of_withChild r.wellFormed r.node (r.own ▸ r.under)
  | _ => cases run

end

/-! ## Documents -/

theorem ready_of_mem_ofNamed {w : World σ} {n : NodeRef} (h : (K.passage root b).ReadyNode w n)
    {x : Export} (hx : x ∈ Export.ofNamed n (w.workspace.node n).arguments) :
    ∀ r ∈ x.source.refs, (K.passage root b).ready w x.node r := by
  obtain ⟨rfl, refs⟩ := Export.refs_of_mem_ofNamed hx
  exact fun r hr => h w ((K.passage root b).refl w) r (refs r hr)

theorem ready_of_mem_exports {w : World σ} (wf : w.workspace.WellFormed)
    (hb : w.workspace.Under root b) (nests : K.Nests w b) {x : Export}
    (hx : x ∈ w.workspace.exports b) :
    ∀ r ∈ x.source.refs, (K.passage root b).ready w x.node r := by
  obtain ⟨p, hp, hx⟩ := List.mem_flatMap.1 hx
  exact ready_of_mem_ofNamed (readyNode wf hb nests p hp) hx

section
variable (hinner : K.Exports inner) (hcall : K.SafeCalls call)
include hinner hcall

/-- What is to be exported for nodes does not change until it is their turn. -/
theorem makes_ofNodes : ∀ (nodes : List (String × NodeRef)) {w : World σ},
    w.workspace.WellFormed → (∀ p ∈ nodes, p.2.index < w.workspace.nodes.size) →
    (∀ p ∈ nodes, (K.passage root b).ReadyNode w p.2) →
    Makes call inner w (nodes.flatMap fun p => Export.ofNamed p.2 (w.workspace.node p.2).arguments)
      (Documents.ofNodes call inner nodes)
  | [], _, _, _, _ => .pure _
  | (id, n) :: rest, w, wf, hn, ready => by
    rw [List.flatMap_cons]
    unfold Documents.ofNodes
    refine (Documents.makes_ofNode n).bind fun document now exported => ?_
    have move := Passage.moves_of_exported (through_ofObject hinner hcall) exported fun x hx =>
      ready_of_mem_ofNamed (ready (id, n) List.mem_cons_self) hx
    have stays := move wf
    have others := fun p hp => hn p (List.mem_cons_of_mem _ hp)
    have same : rest.flatMap (fun p => Export.ofNamed p.2 (w.workspace.node p.2).arguments) =
        rest.flatMap fun p => Export.ofNamed p.2 (now.workspace.node p.2).arguments :=
      List.flatMap_congr fun p hp => by rw [(stays.grows.node p.2 (others p hp)).arguments]
    rw [same]
    exact (makes_ofNodes rest stays.wellFormed
      (fun p hp => Nat.lt_of_lt_of_le (others p hp) stays.grows.nodes)
      fun p hp => (ready p (List.mem_cons_of_mem _ hp)).move move).bind_nil fun _ _ => .pure _

theorem makes_ofBuilder {w : World σ} (wf : w.workspace.WellFormed)
    (hb : w.workspace.Under root b) (nests : K.Nests w b) :
    Makes call inner w (w.workspace.exports b) (Documents.ofBuilder call inner b) := by
  unfold Documents.ofBuilder
  exact .workspace_bind ((makes_ofNodes hinner hcall _ wf
    (fun p hp => ((wf.builder b hb.within).nodes p.1 p.2 hp).1)
    (readyNode wf hb nests)).bind_nil fun _ _ => .workspace_bind (.pure _))

end

end Conduct

/-- A document, finished or not, leaves the nodes and the counters of all builders as they are, and
their metadata apart from the parameters of the root. -/
theorem Conduct.Governs.keeps_builders {K : Conduct σ}
    {call : Documents σ → Callback → List Value → Run σ Value} (governed : K.Governs call)
    {w : World σ} (wf : w.workspace.WellFormed) {b c : BuilderRef}
    (hb : b.index < w.workspace.builders.size) (nests : K.Nests w b) (depth : Nat)
    (hc : c.index < w.workspace.builders.size) :
    let now := (((Documents.within call depth).builder b).run w).2
    (now.workspace.builder c).nodes = (w.workspace.builder c).nodes ∧
      (now.workspace.builder c).counters = (w.workspace.builder c).counters ∧
      (c ≠ w.workspace.root b →
        (now.workspace.builder c).metadata = (w.workspace.builder c).metadata) := by
  have stays := (governed.exports depth w _ b wf ⟨hb, rfl⟩ nests).1
  have kept := (stays.keeps w.workspace (wf.extends _ _) nofun).kept.content c hc
  obtain ⟨nodes, counters⟩ := stays.nodes_eq hc
  exact ⟨nodes, counters, fun other =>
    Metadata.eq_of_parameters_eq kept.metadata (kept.parameters.resolve_left other)⟩

/-- **A document that fails stops at an export.** What is exported before has succeeded. The root
has the parameters that it had when the export that fails was begun: if no function or formula has
been exported until then, those from before. The builders that there were have kept their nodes and
counters, and their metadata apart from the parameters of the root. The functions act only on the
builders that are passed to them. -/
theorem Documents.failedDocument_stops {K : Conduct σ}
    {call : Documents σ → Callback → List Value → Run σ Value} (governed : K.Governs call)
    {w now : World σ} (reachable : w.workspace.Reachable) {b : BuilderRef}
    (hb : b.index < w.workspace.builders.size) (nests : K.Nests w b)
    (noBuilders : ∀ p ∈ (w.workspace.builder b).nodes, ∀ c,
      Ref.builder c ∉ Value.refsInEntries (w.workspace.node p.2).arguments) {depth : Nat}
    {e : Failure} (run : ((within call (depth + 2)).builder b).run w = (.error e, now)) :
    (∃ done x rest mid, w.workspace.exports b = done ++ x :: rest ∧
      StopsAt (call (within call (depth + 1))) (within call (depth + 1)).builder w done x mid e
        now ∧
      (now.workspace.builder (w.workspace.root b)).metadata.parameters =
        (mid.workspace.builder (w.workspace.root b)).metadata.parameters ∧
      ((∀ y ∈ done, ∀ r ∈ y.source.refs, r.Shown) → mid = w)) ∧
    ∀ c : BuilderRef, c.index < w.workspace.builders.size →
      (now.workspace.builder c).nodes = (w.workspace.builder c).nodes ∧
      (now.workspace.builder c).counters = (w.workspace.builder c).counters ∧
      (c ≠ w.workspace.root b →
        (now.workspace.builder c).metadata = (w.workspace.builder c).metadata) := by
  have wf := reachable.wellFormed
  have under : w.workspace.Under (w.workspace.root b) b := ⟨hb, rfl⟩
  have exports := governed.exports (depth + 1)
  have calls := governed.safeCalls (depth + 1)
  obtain ⟨done, x, rest, mid, all, stops⟩ :=
    (Conduct.makes_ofBuilder exports calls wf under nests).stops e now run
  refine ⟨⟨done, x, rest, mid, all, stops, ?_, stops.exported.eq_of_shown⟩, fun c hc => ?_⟩
  · have ready {y : Export} (hy : y ∈ w.workspace.exports b) :=
      Conduct.ready_of_mem_exports wf under nests hy
    have move := Passage.moves_of_exported (Conduct.through_ofObject exports calls)
      stops.exported fun y hy => ready (all ▸ List.mem_append_left _ hy)
    have hx : x ∈ w.workspace.exports b := all ▸ List.mem_append_right _ List.mem_cons_self
    refine Conduct.parameters_of_failed exports calls (fun w b wf hb plain => ?_)
      (fun r hr => (K.passage _ b).lasts move (ready hx r hr)) (fun c source => ?_) stops.failed
    · exact reads_ofBuilder wf hb plain
    · obtain ⟨p, hp, hx⟩ := List.mem_flatMap.1 hx
      have refs := (Export.refs_of_mem_ofNamed hx).2
      rw [source] at refs
      exact noBuilders p hp c (refs _ (List.mem_singleton.2 rfl))
  · have kept := governed.keeps_builders wf hb nests (depth + 2) hc
    rwa [run] at kept

/-! ## An offset that stays -/

/-- The second of two arguments in a list fails. -/
def Workspace.offsetDeclared : Workspace :=
  let ws := ((Build.createFormula "offset + 1").run Workspace.offset).2
  ((Build.invoke ⟨0⟩ "apply"
    (.list [.int 1, .list [.formula ⟨0⟩, .callback ⟨1, 2, false⟩]])).run ws).2

-- What the first one has declared on the root is not taken back.
example :
    let made := ((Documents.within addOffsetAndFail 2).builder ⟨0⟩).run
      ⟨Workspace.offsetDeclared, ()⟩
    made.1.isOk = false ∧
      (Workspace.offsetDeclared.builder ⟨0⟩).metadata.parameters.isTruthy = false ∧
      (made.2.workspace.builder ⟨0⟩).metadata.parameters.isTruthy = true := by decide +kernel

/-- The function in the list fails when the formula before it has declared the parameter. -/
theorem Documents.failedDocument_stops_offset : ∃ e now done x rest mid,
    ((within addOffsetAndFail 2).builder ⟨0⟩).run ⟨Workspace.offsetDeclared, ()⟩ = (.error e, now) ∧
    Workspace.offsetDeclared.exports ⟨0⟩ = done ++ x :: rest ∧
    StopsAt (addOffsetAndFail (within addOffsetAndFail 1)) (within addOffsetAndFail 1).builder
      ⟨Workspace.offsetDeclared, ()⟩ done x mid e now ∧
    (now.workspace.builder ⟨0⟩).metadata.parameters =
      (mid.workspace.builder ⟨0⟩).metadata.parameters ∧
    (now.workspace.builder ⟨0⟩).nodes = [("apply1", ⟨0⟩)] ∧
    (now.workspace.builder ⟨0⟩).counters = [("apply", 1)] := by
  have start : Workspace.offset.Reachable :=
    .operation (.operation (.refl _) (.createBuilder _ _ none none [] nofun)) (.newParameter _)
  have formula : ((Build.createFormula "offset + 1").run Workspace.offset).2.Reachable :=
    .operation start (.createFormula "offset + 1")
  have arguments : (Value.list [.int 1, .list [.formula ⟨0⟩, .callback ⟨1, 2, false⟩]]).Within
      ((Build.createFormula "offset + 1").run Workspace.offset).2 := by
    have refs : (Value.list [.int 1, .list [.formula ⟨0⟩, .callback ⟨1, 2, false⟩]]).refs =
      [.formula ⟨0⟩, .callback 1] := rfl
    intro r hr
    rw [refs] at hr
    rcases List.mem_pair.1 hr with rfl | rfl
    · show (0 : Nat) < _
      decide +kernel
    · trivial
  have reachable : Workspace.offsetDeclared.Reachable :=
    .operation formula (.invoke (by decide +kernel) "apply" arguments .null none)
  have offset : Workspace.offsetDeclared.HasOffset := ⟨by decide +kernel, rfl⟩
  have nodes : (Workspace.offsetDeclared.builder ⟨0⟩).nodes = [("apply1", ⟨0⟩)] := by
    decide +kernel
  have refs : Value.refsInEntries (Workspace.offsetDeclared.node ⟨0⟩).arguments =
      [.formula ⟨0⟩, .callback 1] := by decide +kernel
  have only {p : String × NodeRef} (hp : p ∈ (Workspace.offsetDeclared.builder ⟨0⟩).nodes) {r : Ref}
      (hr : r ∈ Value.refsInEntries (Workspace.offsetDeclared.node p.2).arguments) :
      r = .formula ⟨0⟩ ∨ r = .callback 1 := by
    rw [nodes, List.mem_singleton] at hp
    subst hp
    rw [refs] at hr
    exact List.mem_pair.1 hr
  have nests : Conduct.offset.Nests ⟨Workspace.offsetDeclared, ()⟩ ⟨0⟩ := by
    intro p hp r hr
    rcases only hp hr with rfl | rfl
    · trivial
    · exact offset
  have failed : (((within addOffsetAndFail 2).builder ⟨0⟩).run
      ⟨Workspace.offsetDeclared, ()⟩).1.isOk = false := by decide +kernel
  rcases run : ((within addOffsetAndFail 2).builder ⟨0⟩).run ⟨Workspace.offsetDeclared, ()⟩ with
    ⟨e | document, now⟩
  · obtain ⟨⟨done, x, rest, mid, all, stops, parameters, -⟩, kept⟩ :=
      failedDocument_stops (b := ⟨0⟩) governs_addOffsetAndFail reachable (by decide +kernel)
        nests (fun p hp c hc => by simpa using only hp hc) run
    obtain ⟨same, counters, -⟩ := kept ⟨0⟩ (by decide +kernel)
    refine ⟨e, now, done, x, rest, mid, rfl, all, stops, parameters, same.trans nodes,
      counters.trans ?_⟩
    decide +kernel
  · rw [run] at failed
    cases failed

end ProcessGraph
