import ProcessGraph.Proofs.Graph.LoweringMeaning
import ProcessGraph.Proofs.Graph.Runs

/-!
# Registered nodes

Whatever has happened to a builder, its nodes are registered under their own ids, no two of them
share an id, and they stand in the order of their creation (`registered_nodes`). Operations register
new nodes behind those that are there, and a block that is undone takes away the nodes that were
made in it, and no others.
-/

set_option autoImplicit false

namespace ProcessGraph

namespace Workspace

variable {ws now : Workspace} {b : BuilderRef}

/-- The nodes of a builder are registered under their own ids, each once, and from older to newer. -/
structure Registered (ws : Workspace) (b : BuilderRef) : Prop where
  owner : ∀ id n, (id, n) ∈ (ws.builder b).nodes →
    n.index < ws.nodes.size ∧ (ws.node n).builder = b ∧ (ws.node n).id = id
  nodup : (ws.builder b).nodes.keys.Nodup
  ordered : (ws.builder b).nodes.Pairwise fun p q => p.2.index < q.2.index

theorem WellFormed.registered (h : ws.WellFormed) (hb : b.index < ws.builders.size) :
    ws.Registered b :=
  ⟨(h.builder b hb).nodes, (h.builder b hb).nodup, (h.builder b hb).ordered⟩

/-- The nodes of a builder are those from before, and behind them nodes that were made since. -/
def AddsTo (ws now : Workspace) (b : BuilderRef) : Prop :=
  ∃ more, (now.builder b).nodes = (ws.builder b).nodes ++ more ∧
    ∀ p ∈ more, ws.nodes.size ≤ p.2.index

theorem Appends.addsTo (h : ws.Appends now) (hb : b.index < ws.builders.size) : ws.AddsTo now b :=
  h.nodes b hb

/-- An index is the number of nodes that were made before. A node that has been registered is not
replaced or moved by an operation; it is taken away where a block is undone that began before the
node was made. Documents are made by operations, if the functions of the host do nothing else. -/
theorem registered_nodes (reachable : ws.Reachable) :
    (∀ b : BuilderRef, b.index < ws.builders.size → ws.Registered b) ∧
    (∀ now, ws.Operation now → ∀ b : BuilderRef, b.index < ws.builders.size → ws.AddsTo now b) ∧
    (∀ now, ws.Steps now → ∀ b : BuilderRef, b.index < ws.builders.size → ws.AddsTo now b ∧
      ((ws.rollBack b now).builder b).nodes = (ws.builder b).nodes ∧
      ∀ c, c ≠ b → ((ws.rollBack b now).builder c).nodes = (now.builder c).nodes) ∧
    ∀ (σ : Type) (host : σ) (call : Documents σ → Callback → List Value → Run σ Value),
      (∀ n, Calls.Operate (call (Documents.within call n))) →
      ∀ (depth : Nat) (b : BuilderRef), b.index < ws.builders.size →
        ws.Steps (((Documents.within call depth).builder b).run ⟨ws, host⟩).2.workspace := by
  have wf := reachable.wellFormed
  refine ⟨fun b hb => wf.registered hb, fun now op b hb => (op.appends wf).addsTo hb,
    fun now steps b hb => ?_, fun σ host call hcall depth b hb => ?_⟩
  · have appends := steps.appends wf
    refine ⟨appends.addsTo hb, ?_, fun c hc => ?_⟩
    · rw [appends.nodes_rollBack hb, if_pos rfl]
    · rw [appends.nodes_rollBack hb, if_neg hc]
  · exact ((Documents.operates_within hcall depth (w := ⟨ws, host⟩) wf).1 b hb).1

/-- Two sums. -/
def sums : Workspace :=
  let add (ws : Workspace) := ((Build.invoke ⟨0⟩ "add" (.list [.int 1, .int 2])).run ws).2
  add (add .arithmetic)

theorem registered_nodes_sums :
    sums.Reachable ∧ sums.Registered ⟨0⟩ ∧
      ∀ now, sums.Steps now → ((sums.rollBack ⟨0⟩ now).builder ⟨0⟩).nodes =
        [("add1", ⟨0⟩), ("add2", ⟨1⟩)] := by
  have numbers (ws : Workspace) : (Value.list [.int 1, .int 2]).Within ws := nofun
  have reachable : sums.Reachable :=
    .operation (.operation Workspace.reachable_arithmetic
      (.invoke (by decide +kernel) "add" (numbers _) .null none))
      (.invoke (by decide +kernel) "add" (numbers _) .null none)
  have hb : (⟨0⟩ : BuilderRef).index < sums.builders.size := by decide +kernel
  have nodes : (sums.builder ⟨0⟩).nodes = [("add1", ⟨0⟩), ("add2", ⟨1⟩)] := by decide +kernel
  obtain ⟨registered, -, undone, -⟩ := registered_nodes reachable
  exact ⟨reachable, registered _ hb, fun now steps => (undone now steps _ hb).2.1.trans nodes⟩

end Workspace

end ProcessGraph
