import ProcessGraph.Proofs.Graph.Conduct
import ProcessGraph.Proofs.Graph.ResolvedReferences

/-!
# Callbacks that fail

A function that fails as an argument leaves nothing behind, wherever it fails: in the function
itself, because of what it returns, or in the document of its builder, which may call other
functions (`Documents.failedCallback_undone`). The builder that has been made for it is rolled back
to where the function was called, and all work further inside is done in newer builders.
-/

set_option autoImplicit false

namespace ProcessGraph

variable {σ : Type}

namespace Workspace

/-- What is undone in a new child is undone in the root. -/
theorem Undone.of_withChild {ws now : Workspace} (wf : ws.WellFormed) {n : NodeRef}
    (hn : n.index < ws.nodes.size) {root : BuilderRef} (hb : ws.Under root (ws.node n).builder)
    {argument : Scalar} (h : (ws.withChild n argument).Undone now ⟨ws.builders.size⟩) :
    (now.builder root).metadata.parameters = (ws.builder root).metadata.parameters := by
  have parameters := h.parameters
  have inside := wf.root_lt hb.within
  rw [hb.root] at inside
  rwa [(Under.child wf argument hb hn).root, ws.builder_withChild argument inside] at parameters

end Workspace

namespace Documents

/-- When a function fails as an argument of a node, the parameters of the root are those from
before, the builder that the node remembers for the argument is a new one without nodes and
counters, and older builders have kept theirs. The function and those that it gives to its nodes act
only on the builders that are passed to them. -/
theorem failedCallback_undone {K : Conduct σ}
    {call : Documents σ → Callback → List Value → Run σ Value} (governed : K.Governs call)
    {w now : World σ} (reachable : w.workspace.Reachable) {n : NodeRef}
    (hn : n.index < w.workspace.nodes.size) {f : Callback}
    (modest : K.modest w.workspace w.host f.handle) {argument : Scalar} {depth : Nat} {e : Failure}
    (run : (ofCallback (call (within call depth)) (within call depth).builder n argument f).run w =
      (.error e, now)) :
    (now.workspace.builder (w.workspace.root (w.workspace.node n).builder)).metadata.parameters =
      (w.workspace.builder (w.workspace.root (w.workspace.node n).builder)).metadata.parameters ∧
    (∃ child, Dictionary.get? argument (now.workspace.node n).callbackBuilders = some child ∧
      w.workspace.builders.size ≤ child.index ∧ (now.workspace.builder child).nodes = [] ∧
      (now.workspace.builder child).counters = []) ∧
    ∀ b : BuilderRef, b.index < w.workspace.builders.size →
      (now.workspace.builder b).nodes = (w.workspace.builder b).nodes ∧
      (now.workspace.builder b).counters = (w.workspace.builder b).counters := by
  have wf := reachable.wellFormed
  have hb : w.workspace.Under (w.workspace.root (w.workspace.node n).builder)
      (w.workspace.node n).builder := ⟨(wf.node n hn).owner, rfl⟩
  have exports := governed.exports depth
  have calls := governed.safeCalls depth
  -- The builder for the argument is made first; what is done then is undone.
  have undoes := Conduct.undoes_newChild exports wf hn hb argument calls modest
  have child := w.workspace.builder_withChild_self n argument
  have lowered : (lowerCallback (call (within call depth)) (within call depth).builder n argument f
      ⟨w.workspace.builders.size⟩).run { w with workspace := w.workspace.withChild n argument } =
      (.error e, now) := by
    rw [ofCallback_eq, run_bind_state, Run.run_liftM, run_callbackBuilder] at run
    exact run
  have undone := undoes.undone e now lowered
  have confined := undoes.keeps.1
  rw [lowered] at confined
  refine ⟨undone.of_withChild wf hn hb,
    ⟨⟨w.workspace.builders.size⟩, ?_, Nat.le_refl _, ?_, ?_⟩, fun b hb' => ?_⟩
  · have old : n.index < (w.workspace.withChild n argument).nodes.size := by
      simpa [Workspace.withChild] using hn
    rw [confined.remembers n old fun own => ?_]
    · exact Workspace.callbackBuilders_withChild_self argument hn
    · have same := ((Workspace.Steps.withChild wf hn argument).appends wf).grows.node n hn
      exact Nat.lt_irrefl _ (own ▸ same.builder ▸ (wf.node n hn).owner)
  · rw [undone.nodes, child]
    rfl
  · rw [undone.counters, child]
    rfl
  · have stays := (Conduct.keeps_ofCallback exports wf hn hb argument calls modest).1
    rw [run] at stays
    exact stays.nodes_eq hb'

end Documents

/-! ## An offset that fails -/

/-- Both functions add the parameter to what they are passed. The first one applies the second one,
which returns a number. -/
def addOffsetAndFail (_ : Documents Unit) (f : Callback) : List Value → Run Unit Value
  | [.builder b, .access a] => do
    let n ← Build.invoke b "add" (.list [.access a, .parameter ⟨0⟩])
    if f.handle = 0 then
      return .node (← Build.invoke b "apply" (.list [.node n, .callback ⟨1, 2, false⟩]))
    else return .int 5
  | _ => throw .wrongType

/-- The functions may be called where their parameter is there. -/
def Conduct.offset : Conduct Unit where
  later _ _ := True
  refl _ := trivial
  trans _ _ := trivial
  modest ws _ _ := ws.HasOffset
  lasts g _ h := ⟨Nat.lt_of_lt_of_le h.1 g.parameters, (g.parameter ⟨0⟩ h.1).trans h.2⟩

theorem governs_addOffsetAndFail : Conduct.offset.Governs addOffsetAndFail := by
  intro depth w b f names accesses wf hb nodes modest hnames has result now run
  have given {v : Value} (hv : v ∈ f.accepted (.builder b :: accesses.map .access)) :
      v = .builder b ∨ ∃ a ∈ accesses, .access a = v := by
    simpa using Callback.mem_of_mem_accepted hv
  generalize f.accepted (.builder b :: accesses.map .access) = arguments at run given
  unfold addOffsetAndFail at run
  split at run
  · rename_i b' a
    obtain rfl : b' = b := by simpa using given List.mem_cons_self
    obtain ha : a ∈ accesses := by simpa using given (v := .access a) (by simp)
    obtain ⟨name, -, is⟩ := exists_of_forall₂_of_mem has ha
    have under : w.workspace.Under (w.workspace.root b') b' := ⟨hb, rfl⟩
    have none_yet : w.workspace.ArgumentsMeet b' (Ref.Harmless Conduct.offset w b') :=
      fun p hp => absurd (nodes ▸ hp) List.not_mem_nil
    have sum : (Value.list [.access a, .parameter ⟨0⟩]).Within w.workspace := by
      refine Value.within_list.2 ?_
      simpa using ⟨Value.within_access.2 is.within, Value.within_parameter.2 modest.1⟩
    have acts : Conduct.offset.Acts b' w _ :=
      .operation (.refl w) (.own (.invoke "add" sum .null none))
    have kept := Build.confined_invoke wf under none_yet "add" sum (by
      simp [Value.refs, Value.refsInList, Ref.Harmless])
    have made := Build.ensures_invoke (wf.extends (fun _ => True) fun _ => True)
      (Workspace.open_of_within hb) "add" sum .null none
    rw [run_bind_state, Run.run_liftM] at run
    rcases added : (Build.invoke b' "add" (.list [.access a, .parameter ⟨0⟩])).run w.workspace with
      ⟨e | m, ws⟩ <;> rw [added] at run acts
    · cases run
      exact ⟨acts, fun v e => by cases e⟩
    obtain ⟨h₁, -, meet₁⟩ := kept.of_run added
    obtain ⟨-, -, call, -⟩ := made.of_run added
    dsimp only at run
    split at run
    · have applied : (Value.list [.node m, .callback ⟨1, 2, false⟩]).Within ws := by
        refine Value.within_list.2 ?_
        simpa using ⟨Value.within_node.2 call.within, fun r hr => by
          cases List.mem_singleton.1 hr
          trivial⟩
      have acts₂ : Conduct.offset.Acts b' w _ :=
        .operation acts (.own (.invoke "apply" applied .null none))
      have kept₂ := Build.confined_invoke h₁.wellFormed (under.grow wf h₁.grows) meet₁ "apply"
        applied (by
          have second : Conduct.offset.modest w.workspace w.host 1 := modest
          simpa [Value.refs, Value.refsInList, Ref.Harmless] using second)
      rw [run_bind_state, Run.run_liftM] at run
      rcases second : (Build.invoke b' "apply" (.list [.node m, .callback ⟨1, 2, false⟩])).run ws
        with ⟨e | k, after⟩ <;> rw [second] at run acts₂ <;> cases run
      · exact ⟨acts₂, fun v e => by cases e⟩
      · obtain ⟨h₂, -, meet₂⟩ := kept₂.of_run second
        refine ⟨acts₂, fun v e => ⟨fun p hp r hr => ?_, fun vs hv => ?_⟩⟩
        · exact (meet₂ p hp r hr).later (h₁.grows.trans h₂.grows) trivial
        · cases e
          rcases hv with hv | hv <;> cases hv
    · cases run
      refine ⟨acts, fun v e => ⟨fun p hp r hr => (meet₁ p hp r hr).later h₁.grows trivial,
        fun vs hv => ?_⟩⟩
      cases e
      rcases hv with hv | hv <;> cases hv
  · cases run
    exact ⟨.refl w, fun v e => by cases e⟩

/-- A node that applies the first of the functions. -/
def Workspace.offsetFailing : Workspace :=
  ((Build.invoke ⟨0⟩ "apply" (.list [.int 1, .callback ⟨0, 2, false⟩])).run Workspace.offset).2

/-- The second function fails when the first one has declared the parameter already. -/
theorem Documents.failedCallback_undone_offset : ∃ e now,
    (Documents.ofCallback (addOffsetAndFail (Documents.within addOffsetAndFail 2))
      (Documents.within addOffsetAndFail 2).builder ⟨0⟩ (.str "process") ⟨0, 2, false⟩).run
      ⟨Workspace.offsetFailing, ()⟩ = (.error e, now) ∧
    (now.workspace.builder ⟨0⟩).metadata.parameters =
      (Workspace.offsetFailing.builder ⟨0⟩).metadata.parameters ∧
    (∃ child, Dictionary.get? (.str "process") (now.workspace.node ⟨0⟩).callbackBuilders =
      some child ∧ 1 ≤ child.index ∧ (now.workspace.builder child).nodes = [] ∧
      (now.workspace.builder child).counters = []) ∧
    (now.workspace.builder ⟨0⟩).nodes = [("apply1", ⟨0⟩)] ∧
    (now.workspace.builder ⟨0⟩).counters = [("apply", 1)] := by
  have start : Workspace.offset.Reachable :=
    .operation (.operation (.refl _) (.createBuilder _ _ none none [] nofun)) (.newParameter _)
  have offset : Workspace.offsetFailing.HasOffset := ⟨by decide +kernel, rfl⟩
  have arguments : (Value.list [.int 1, .callback ⟨0, 2, false⟩]).Within Workspace.offset := by
    intro r hr
    cases List.mem_singleton.1 hr
    trivial
  have reachable : Workspace.offsetFailing.Reachable :=
    .operation start (.invoke (by decide +kernel) "apply" arguments .null none)
  have failed : ((Documents.ofCallback (addOffsetAndFail (Documents.within addOffsetAndFail 2))
      (Documents.within addOffsetAndFail 2).builder ⟨0⟩ (.str "process") ⟨0, 2, false⟩).run
      ⟨Workspace.offsetFailing, ()⟩).1.isOk = false := by decide +kernel
  rcases run : (Documents.ofCallback (addOffsetAndFail (Documents.within addOffsetAndFail 2))
      (Documents.within addOffsetAndFail 2).builder ⟨0⟩ (.str "process") ⟨0, 2, false⟩).run
      ⟨Workspace.offsetFailing, ()⟩ with ⟨e | v, now⟩
  · have root : Workspace.offsetFailing.root (Workspace.offsetFailing.node ⟨0⟩).builder = ⟨0⟩ := by
      decide +kernel
    have one : Workspace.offsetFailing.builders.size = 1 := by decide +kernel
    have modest : Conduct.offset.modest Workspace.offsetFailing () 0 := offset
    obtain ⟨parameters, child, old⟩ := failedCallback_undone governs_addOffsetAndFail reachable
      (by decide +kernel) modest run
    rw [root] at parameters
    rw [one] at child
    obtain ⟨nodes, counters⟩ := old ⟨0⟩ (by decide +kernel)
    refine ⟨e, now, rfl, parameters, child, nodes.trans ?_, counters.trans ?_⟩ <;> decide +kernel
  · rw [run] at failed
    cases failed

end ProcessGraph
