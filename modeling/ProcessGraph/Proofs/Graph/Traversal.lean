import ProcessGraph.Proofs.Graph.Exports
import ProcessGraph.Proofs.Graph.Runs

/-!
# Passing through documents

To make a document is to export the objects in the arguments of its nodes, one after the other. A
`Passage` says what may happen to the world meanwhile. If it is all that happens when an object is
exported that is ready for it, then it is all that happens until the document of the builder is
done (`Passage.through_ofBuilder`), whether it fails or not.
-/

set_option autoImplicit false

namespace ProcessGraph

variable {σ : Type}

structure Passage (σ : Type) where
  /-- One world may become another. -/
  moves : World σ → World σ → Prop
  refl : ∀ w, moves w w
  trans : ∀ {w now after}, moves w now → moves now after → moves w after
  /-- The object may be exported as an argument of the node. -/
  ready : World σ → NodeRef → Ref → Prop
  lasts : ∀ {w now : World σ} {n : NodeRef} {r : Ref}, moves w now → ready w n r → ready now n r

namespace Passage

variable (M : Passage σ) {α β : Type}

/-- The step does no more than what may happen. -/
def Through (w : World σ) (step : Run σ α) : Prop := M.moves w (step.run w).2

/-- At any time from now on, the node has arguments that may be exported. -/
def ReadyNode (w : World σ) (n : NodeRef) : Prop :=
  ∀ now, M.moves w now → ∀ r ∈ Value.refsInEntries (now.workspace.node n).arguments, M.ready now n r

variable {M} {w now : World σ} {n : NodeRef}

theorem Through.pure (a : α) : M.Through w (pure a : Run σ α) := M.refl w

theorem Through.throw (e : Failure) : M.Through w (throw e : Run σ α) := M.refl w

theorem Through.bind {step : Run σ α} {f : α → Run σ β} (h : M.Through w step)
    (hf : ∀ a now, M.moves w now → M.Through now (f a)) : M.Through w (step >>= f) := by
  unfold Through at *
  rw [run_bind_state]
  rcases run : step.run w with ⟨e | a, now⟩ <;> rw [run] at h
  · exact h
  · exact M.trans h (hf a now h)

theorem Through.workspace_bind {f : Workspace → Run σ α} (h : M.Through w (f w.workspace)) :
    M.Through w (Run.workspace >>= f) := h

theorem ReadyNode.move (h : M.ReadyNode w n) (m : M.moves w now) : M.ReadyNode now n :=
  fun after m' => h after (M.trans m m')

section
variable {call : Callback → List Value → Run σ Value} {inner : BuilderRef → Run σ Value}
  (object : ∀ (w : World σ) (n : NodeRef) (argument : Scalar) (v : Value),
    (∀ r ∈ v.refs, M.ready w n r) → M.Through w (Documents.ofObject call inner n argument v))
include object

/-- What may happen for every export may happen for all of them. -/
theorem moves_of_exported {w now : World σ} {xs : List Export} (h : Exported call inner w xs now)
    (ready : ∀ x ∈ xs, ∀ r ∈ x.source.refs, M.ready w x.node r) : M.moves w now := by
  induction h with
  | nil w => exact M.refl w
  | @cons w now last x xs document first _ ih =>
    have move : M.moves w now := by
      have through := object w x.node x.argument x.source (ready x List.mem_cons_self)
      unfold Through at through
      rwa [show (Documents.ofObject call inner x.node x.argument x.source).run w =
        (.ok document, now) from first] at through
    exact M.trans move (ih fun y hy r hr => M.lasts move (ready y (List.mem_cons_of_mem _ hy) r hr))

theorem through_of_makes {w : World σ} {xs : List Export} {step : Run σ α}
    (h : Makes call inner w xs step)
    (ready : ∀ x ∈ xs, ∀ r ∈ x.source.refs, M.ready w x.node r) : M.Through w step := by
  unfold Through
  rcases run : step.run w with ⟨e | a, now⟩
  · obtain ⟨done, x, rest, mid, rfl, stop⟩ := h.stops e now run
    have move := moves_of_exported object stop.exported fun y hy =>
      ready y (List.mem_append_left _ hy)
    have through := object mid x.node x.argument x.source fun r hr =>
      M.lasts move (ready x (List.mem_append_right _ List.mem_cons_self) r hr)
    unfold Through at through
    rw [show (Documents.ofObject call inner x.node x.argument x.source).run mid = (.error e, now)
      from stop.failed] at through
    exact M.trans move through
  · exact moves_of_exported object (h.made a now run) ready

theorem through_ofNode {w : World σ} (h : M.ReadyNode w n) :
    M.Through w (Documents.ofNode call inner n) := by
  refine through_of_makes object (Documents.makes_ofNode n) fun x hx r hr => ?_
  obtain ⟨rfl, refs⟩ := Export.refs_of_mem_ofNamed hx
  exact h w (M.refl w) r (refs r hr)

theorem through_ofNodes : ∀ (nodes : List (String × NodeRef)) {w : World σ},
    (∀ p ∈ nodes, M.ReadyNode w p.2) → M.Through w (Documents.ofNodes call inner nodes)
  | [], _, _ => .pure _
  | (id, n) :: rest, w, h => by
    unfold Documents.ofNodes
    exact (through_ofNode object (h (id, n) List.mem_cons_self)).bind fun _ now m =>
      (through_ofNodes rest fun p hp => (h p (List.mem_cons_of_mem _ hp)).move m).bind
        fun _ _ _ => .pure _

/-- What may happen for every object may happen while the document is made. -/
theorem through_ofBuilder {w : World σ} {b : BuilderRef}
    (h : ∀ p ∈ (w.workspace.builder b).nodes, M.ReadyNode w p.2) :
    M.Through w (Documents.ofBuilder call inner b) := by
  unfold Documents.ofBuilder
  exact .workspace_bind ((through_ofNodes object _ h).bind fun _ _ _ => .workspace_bind (.pure _))

end

end Passage

end ProcessGraph
