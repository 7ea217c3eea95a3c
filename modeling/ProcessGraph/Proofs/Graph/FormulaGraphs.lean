import ProcessGraph.Proofs.Graph.Exports
import ProcessGraph.Proofs.Graph.PassedArguments

/-!
# Graphs of formulas

The arguments of the nodes that a formula is lowered to are plain: beside numbers and literals they
hold parameters and nodes of the same builder (`plain_lower`). So the document of a builder that has
only got such nodes calls no function and makes no builder. It cannot fail, and leaves the world as
it is (`Documents.reads_ofBuilder`).
-/

set_option autoImplicit false

namespace ProcessGraph

/-- A parameter, or a node of the builder. -/
def Ref.Plain (ws : Workspace) (b : BuilderRef) : Ref → Prop
  | parameter _ => True
  | node n => n.index < ws.nodes.size ∧ (ws.node n).builder = b
  | _ => False

def Value.Plain (ws : Workspace) (b : BuilderRef) (v : Value) : Prop := ∀ r ∈ v.refs, r.Plain ws b

/-- The nodes of the builder have plain arguments. -/
def Workspace.PlainNodes (ws : Workspace) (b : BuilderRef) : Prop :=
  ∀ p ∈ (ws.builder b).nodes, ∀ r ∈ Value.refsInEntries (ws.node p.2).arguments, r.Plain ws b

section
variable {ws now : Workspace} {b : BuilderRef}

theorem Ref.Plain.grow {r : Ref} (h : r.Plain ws b) (g : ws.Grows now) : r.Plain now b := by
  cases r with
  | parameter p => trivial
  | node n => exact ⟨Nat.lt_of_lt_of_le h.1 g.nodes, (g.node n h.1).builder.trans h.2⟩
  | access _ | builder _ | formula _ | callback _ => exact h.elim

theorem Value.Plain.grow {v : Value} (h : v.Plain ws b) (g : ws.Grows now) : v.Plain now b :=
  fun r hr => (h r hr).grow g

theorem Value.plain_of_refs_eq_nil {v : Value} (h : v.refs = []) : v.Plain ws b := by
  intro r hr
  rw [h] at hr
  cases hr

theorem Value.plain_node {n : NodeRef} (hn : n.index < ws.nodes.size)
    (own : (ws.node n).builder = b) : (Value.node n).Plain ws b := by
  intro r hr
  cases List.mem_singleton.1 hr
  exact ⟨hn, own⟩

theorem Value.plain_parameter (p : ParameterRef) : (Value.parameter p).Plain ws b := by
  intro r hr
  cases List.mem_singleton.1 hr
  trivial

namespace Workspace.PlainNodes

/-- Nodes that are there keep their arguments. -/
theorem grow (h : ws.PlainNodes b) (wf : ws.WellFormed) (hb : b.index < ws.builders.size)
    (g : ws.Grows now) {p : String × NodeRef} (hp : p ∈ (ws.builder b).nodes) :
    ∀ r ∈ Value.refsInEntries (now.node p.2).arguments, r.Plain now b := by
  have hn := ((wf.builder b hb).nodes p.1 p.2 hp).1
  rw [(g.node p.2 hn).arguments]
  exact fun r hr => (h p hp r hr).grow g

/-- Steps that register no node. -/
theorem of_nodes_eq (h : ws.PlainNodes b) (wf : ws.WellFormed) (hb : b.index < ws.builders.size)
    (g : ws.Grows now) (same : (now.builder b).nodes = (ws.builder b).nodes) : now.PlainNodes b :=
  fun p hp => h.grow wf hb g (p := p) (same ▸ hp)

theorem of_extends {P : BuilderRef → Prop} (h : ws.PlainNodes b) (hb : b.index < ws.builders.size)
    (ext : ws.Extends (fun _ => False) P now) : now.PlainNodes b :=
  h.of_nodes_eq ext.start hb ext.kept.toGrows
    ((ext.kept.content b hb).untouched.resolve_left id).1

end Workspace.PlainNodes

/-! ## Formulas -/

theorem passable_plain (b : BuilderRef) : Passable b fun ws v => v.Plain ws b where
  grow h g := h.grow g
  node hn own := Value.plain_node hn own
  parameter _ p := Value.plain_parameter p
  scalar _ {s} _ := Value.plain_of_refs_eq_nil s.refs_toValue
  negated _ := Value.plain_of_refs_eq_nil rfl

/-- A tree gives its builder plain nodes, if that has had no others. -/
theorem plain_lower (h : ws.WellFormed) (hb : b.index < ws.builders.size)
    (plain : ws.PlainNodes b) (t : Formula.Tree) {v : Value}
    (run : (Build.lower b t).run ws = (.ok v, now)) : now.PlainNodes b := by
  obtain ⟨⟨g, added, nodes, ok⟩, -⟩ := passes_lower (passable_plain b) h hb t
    (fun x _ _ => Value.plain_of_refs_eq_nil rfl) run
  intro p hp
  rw [nodes] at hp
  rcases List.mem_append.1 hp with hp | hp
  · exact plain.grow h hb g hp
  · intro r hr
    obtain ⟨q, hq, hr⟩ := Value.mem_refsInEntries.1 hr
    exact (ok p hp).2 q hq r hr

/-- A formula gives its builder plain nodes, if that has had no others. -/
theorem plain_generate (h : ws.WellFormed) (hb : b.index < ws.builders.size)
    (plain : ws.PlainNodes b) {f : FormulaRef} (hf : (ws.formula f).builder = some b)
    {asResult : Bool} {n : NodeRef} (run : (Build.generate f asResult).run ws = (.ok n, now)) :
    now.PlainNodes b := by
  obtain ⟨after, r, lowered, rfl⟩ := generate_eq_ok hf run
  obtain ⟨ext, -⟩ := lower_eq_ok h hb lowered
  have plain₁ := plain_lower h hb plain _ lowered
  have hb₁ := ext.within hb
  -- What remains is a flag and a record.
  cases asResult
  · exact plain₁.of_nodes_eq ext.wellFormed hb₁ (after.grows_addRecord _) rfl
  · have flagged : after.Grows ((Build.setResult n (.bool true)).run after).2 :=
      after.grows_modifyNode n fun _ => ⟨rfl, rfl, rfl, rfl, rfl, rfl⟩
    exact plain₁.of_nodes_eq ext.wellFormed hb₁ (flagged.trans (Workspace.grows_addRecord _ _)) rfl

end

/-! ## Documents -/

/-- The step returns a value and changes nothing. -/
def Run.Reads {σ α : Type} (w : World σ) (step : Run σ α) : Prop := ∃ a, step.run w = (.ok a, w)

section
variable {σ α β : Type} {w : World σ}

theorem Run.Reads.pure (a : α) : Run.Reads w (pure a) := ⟨a, rfl⟩

theorem Run.Reads.bind {step : Run σ α} {f : α → Run σ β} (h : Run.Reads w step)
    (hf : ∀ a, Run.Reads w (f a)) : Run.Reads w (step >>= f) := by
  obtain ⟨a, ha⟩ := h
  obtain ⟨b, hb⟩ := hf a
  refine ⟨b, ?_⟩
  rw [run_bind_state, ha]
  exact hb

theorem Run.Reads.workspace_bind {f : Workspace → Run σ α} (h : Run.Reads w (f w.workspace)) :
    Run.Reads w (Run.workspace >>= f) := h

end

/-- If no export changes anything, the whole does not either. -/
theorem Makes.reads {σ α : Type} {call : Callback → List Value → Run σ Value}
    {inner : BuilderRef → Run σ Value} {w : World σ} {xs : List Export} {step : Run σ α}
    (h : Makes call inner w xs step) (each : ∀ x ∈ xs, Run.Reads w (x.make call inner)) :
    Run.Reads w step := by
  have quiet {done : List Export} (sub : done ⊆ xs) {mid : World σ}
      (exported : Exported call inner w done mid) : mid = w :=
    exported.eq_of_quiet fun x hx document now run => by
      obtain ⟨v, made⟩ := each x (sub hx)
      rw [made] at run
      cases run
      rfl
  rcases run : step.run w with ⟨e | a, now⟩
  · obtain ⟨done, x, rest, mid, rfl, stop⟩ := h.stops e now run
    have failed := stop.failed
    obtain ⟨v, made⟩ := each x (List.mem_append_right _ List.mem_cons_self)
    rw [quiet (List.subset_append_left ..) stop.exported, made] at failed
    cases failed
  · exact ⟨a, by rw [run, quiet (List.Subset.refl _) (h.made a now run)]⟩

namespace Documents

section
variable {σ : Type} {call : Callback → List Value → Run σ Value} {inner : BuilderRef → Run σ Value}
  {w : World σ} {b : BuilderRef}

theorem reads_make {x : Export} (own : (w.workspace.node x.node).builder = b)
    (plain : x.source.Plain w.workspace b) : Run.Reads w (x.make call inner) := by
  rcases x with ⟨n, argument, v⟩
  unfold Export.make ofObject
  dsimp only at own plain
  cases v with
  | node m =>
    have same := (plain _ (List.mem_singleton.2 rfl)).2.trans own.symm
    refine Run.Reads.workspace_bind ?_
    rw [if_pos same]
    exact .pure _
  | parameter p => exact Run.Reads.workspace_bind (.pure _)
  | access _ | builder _ | formula _ | callback _ =>
    exact (plain _ (List.mem_singleton.2 rfl)).elim
  | _ => exact .pure _

theorem reads_ofNode {n : NodeRef} (own : (w.workspace.node n).builder = b)
    (plain : ∀ r ∈ Value.refsInEntries (w.workspace.node n).arguments, r.Plain w.workspace b) :
    Run.Reads w (ofNode call inner n) :=
  (makes_ofNode n).reads fun x hx => by
    obtain ⟨rfl, refs⟩ := Export.refs_of_mem_ofNamed hx
    exact reads_make own fun r hr => plain r (refs r hr)

theorem reads_ofNodes : (nodes : List (String × NodeRef)) →
    (∀ p ∈ nodes, (w.workspace.node p.2).builder = b ∧
      ∀ r ∈ Value.refsInEntries (w.workspace.node p.2).arguments, r.Plain w.workspace b) →
    Run.Reads w (ofNodes call inner nodes)
  | [], _ => .pure _
  | (id, n) :: rest, h => by
    obtain ⟨own, plain⟩ := h (id, n) List.mem_cons_self
    unfold ofNodes
    exact (reads_ofNode own plain).bind fun _ =>
      (reads_ofNodes rest fun p hp => h p (List.mem_cons_of_mem _ hp)).bind fun _ => .pure _

/-- The document of a builder with plain nodes can always be made. -/
theorem reads_ofBuilder (wf : w.workspace.WellFormed) (hb : b.index < w.workspace.builders.size)
    (plain : w.workspace.PlainNodes b) : Run.Reads w (ofBuilder call inner b) := by
  unfold ofBuilder
  exact .workspace_bind ((reads_ofNodes _ fun p hp =>
    ⟨((wf.builder b hb).nodes p.1 p.2 hp).2.1, plain p hp⟩).bind fun _ => .workspace_bind (.pure _))

end

end Documents

end ProcessGraph
