import ProcessGraph.Proofs.Graph.Redeclaration
import ProcessGraph.Proofs.Graph.SimulatedDocuments

/-!
# Making a document again

`Comparison.repeated ws now b`: the document of the builder `b` is made in `ws`, and once more in the
workspace `now` that comes from it. All builders and nodes that were there are the outer part, whose
nodes are exported but which gets no nodes; the root has declared more parameters in `now`, but
refuses the same declarations. The matching relates only what functions may have captured
(`Ref.Inert`), as whatever else they work on is made for them.

`Workspace.Extends.matches_repeated` starts the comparison.
-/

set_option autoImplicit false

namespace ProcessGraph

/-- Data that a function may have captured: it does not lead to any builder. Parameters that can be
declared are called by a text. -/
def Ref.Inert (ws : Workspace) (functions : Nat → Prop) : Ref → Prop
  | parameter p => p.index < ws.parameters.size ∧
      ((ws.parameter p).isDeclarable → WellNamed (ws.parameter p).declaration)
  | formula f => f.index < ws.formulas.size
  | callback f => functions f
  | node _ | access _ | builder _ => False

/-- Inert data stand for themselves. -/
def Matching.inert (ws : Workspace) (functions : Nat → Prop) : Matching :=
  fun r s => r = s ∧ r.Inert ws functions

/-- An argument of a node that is no builder; functions are some of the given ones. -/
def Ref.Exported (functions : Nat → Prop) : Ref → Prop
  | builder _ => False
  | callback f => functions f
  | _ => True

/-- The parameters that are declared on a builder. -/
def Workspace.declared (ws : Workspace) (b : BuilderRef) : Value :=
  (ws.builder b).metadata.parameters

/-- The parameters come from those of the two workspaces by the same declarations. -/
structure Workspace.DeclareBoth (ws now : Workspace) (b : BuilderRef) (p q : Value) : Prop where
  declarations : ∃ ds, (∀ d ∈ ds, WellNamed d) ∧ declareEach ds (ws.declared b) = .ok p ∧
    declareEach ds (now.declared b) = .ok q
  alike : RefuseAlike p q

theorem Workspace.DeclareBoth.declare {ws now : Workspace} {b : BuilderRef} {p q : Value}
    (h : ws.DeclareBoth now b p q) {d : Value.Entries} (hd : WellNamed d) :
    Outcome (fun x y => ws.DeclareBoth now b x.1 y.1)
      (declareIn d (Value.field "name" d) p) (declareIn d (Value.field "name" d) q) := by
  obtain ⟨⟨ds, hds, hp, hq⟩, alike⟩ := h
  have same := alike d
  rcases hx : declareIn d (Value.field "name" d) p with e | ⟨x, new⟩ <;>
    rcases hy : declareIn d (Value.field "name" d) q with e' | ⟨y, new'⟩ <;>
    rw [ProcessGraph.declare, ProcessGraph.declare, hx, hy] at same
  · cases same
    exact .error e
  · cases same
  · cases same
  · have hx' : ProcessGraph.declare p d = .ok x := by rw [ProcessGraph.declare, hx]; rfl
    have hy' : ProcessGraph.declare q d = .ok y := by rw [ProcessGraph.declare, hy]; rfl
    refine .ok ⟨⟨ds ++ [d], fun d' hd' => ?_, ?_, ?_⟩, ?_⟩
    · rcases List.mem_append.1 hd' with hd' | hd'
      · exact hds d' hd'
      · exact List.mem_singleton.1 hd' ▸ hd
    · rw [declareEach_concat, hp]
      exact hx'
    · rw [declareEach_concat, hq]
      exact hy'
    · exact ((declare_refuses hd hx').symm.trans alike).trans (declare_refuses hd hy')

def Comparison.repeated (ws now : Workspace) (b : BuilderRef) : Comparison where
  left := ⟨ws, fun _ => False, (· = ws.root b), fun _ => False.elim⟩
  right := ⟨now, fun _ => False, (· = now.root b), fun _ => False.elim⟩
  outerBuilder c d := c = d ∧ c.index < ws.builders.size
  outerNode n m := n = m ∧ n.index < ws.nodes.size ∧ (ws.node n).builder = b
  admits := WellNamed
  named name := Parameter.wellNamed_declaration _ (.inr ⟨name, rfl⟩)
  parameters := ws.DeclareBoth now
  declare _ h := h.declare

namespace Workspace

/-- The nodes of a builder, with what is said about them. -/
structure Unchanged (ws now : Workspace) : Prop where
  builder : ∀ b : BuilderRef, b.index < ws.builders.size →
    (now.builder b).nodes = (ws.builder b).nodes ∧
    (now.builder b).counters = (ws.builder b).counters
  node : ∀ n : NodeRef, n.index < ws.nodes.size → (ws.node n).SameCall (now.node n) ∧
    (now.node n).result = (ws.node n).result ∧ (now.node n).description = (ws.node n).description

variable {ws now : Workspace} {b : BuilderRef} {functions : Nat → Prop}

/-- A run that fills only new builders. -/
abbrev Declares (ws now : Workspace) (b : BuilderRef) : Prop :=
  ws.Extends (fun _ => False) (· = ws.root b) now

namespace Extends

variable (h : ws.Declares now b)
include h

theorem unchanged : ws.Unchanged now where
  builder c hc := (h.kept.content c hc).untouched.resolve_left id
  node n hn := ⟨h.kept.node n hn, h.kept.flags n hn⟩

/-- Nothing but the parameters of the root is said anew about a builder. -/
theorem metadata_eq {c : BuilderRef} (hc : c.index < ws.builders.size)
    (hp : now.declared (ws.root b) = ws.declared (ws.root b)) :
    (now.builder c).metadata = (ws.builder c).metadata := by
  refine Metadata.eq_of_parameters_eq (h.kept.content c hc).metadata ?_
  rcases (h.kept.content c hc).parameters with rfl | e
  · exact hp
  · exact e

theorem outerBuilder_match (alike : RefuseAlike (ws.declared (ws.root b)) (now.declared (ws.root b)))
    {c : BuilderRef} (hc : c.index < ws.builders.size) :
    (Comparison.repeated ws now b).OuterBuilderMatch ws now c c := by
  obtain ⟨parent, settings, catalog⟩ := h.kept.builder c hc
  refine ⟨⟨hc, Nat.lt_of_lt_of_le hc h.kept.builders⟩, catalog.symm, settings.symm, ?_,
    fun _ => ?_⟩
  · rw [parent]
    cases hp : (ws.builder c).parent with
    | none => exact .none
    | some p => exact .some ⟨rfl, Nat.lt_trans ((h.start.builder c hc).parent p hp) hc⟩
  · refine ⟨⟨[], nofun, rfl, rfl⟩, ?_⟩
    rcases (h.kept.content c hc).parameters with rfl | e
    · exact alike
    · rw [e]
      exact .refl _

theorem outerNode_match {n : NodeRef} (hb : b.index < ws.builders.size)
    (hn : n.index < ws.nodes.size) (own : (ws.node n).builder = b) :
    (Comparison.repeated ws now b).OuterNodeMatch (.inert ws functions) ws now n n := by
  have same := h.kept.node n hn
  refine ⟨⟨hn, Nat.lt_of_lt_of_le hn h.kept.nodes⟩, ?_, ?_, same.specification.symm,
    same.process.symm, fun names => congrArg (names.names ·) same.arguments.symm⟩
  · exact .inr ⟨same.builder.symm, own ▸ hb⟩
  · exact ⟨.inl (congrArg ws.root own), .inl (congrArg now.root (same.builder.trans own))⟩

/-- The first and the second run start with workspaces that match. -/
theorem matches_repeated (hb : b.index < ws.builders.size)
    (alike : RefuseAlike (ws.declared (ws.root b)) (now.declared (ws.root b))) :
    (Comparison.repeated ws now b).Matches (.inert ws functions) ws now where
  left := h.start.extends _ _
  right := h.wellFormed.extends _ _
  catalogs := h.kept.catalogs.symm
  callbackNames := h.kept.callbackNames.symm
  within := by
    rintro r _ ⟨rfl, hr⟩
    cases r with
    | parameter p => exact ⟨hr.1, Nat.lt_of_lt_of_le hr.1 h.kept.parameters⟩
    | formula f => exact ⟨hr, Nat.lt_of_lt_of_le hr h.kept.formulas⟩
    | callback f => exact ⟨trivial, trivial⟩
    | _ => exact hr.elim
  pair := by
    rintro r _ ⟨rfl, hr⟩
    cases r with
    | parameter p => exact ⟨(h.kept.parameter p hr.1).symm, hr.2⟩
    | formula f => exact ⟨(h.kept.formula f hr).1.symm, (h.kept.formula f hr).2.symm⟩
    | callback f => trivial
    | _ => exact hr.elim
  callbackParameters hr := hr.2.elim
  outerBuilder := by
    rintro c _ ⟨rfl, hc⟩
    exact h.outerBuilder_match alike hc
  outerNode := by
    rintro n _ ⟨rfl, hn, own⟩
    exact h.outerNode_match hb hn own
  uniqueNode hr := hr.2.elim
  uniqueAccess hr := hr.2.elim
  uniqueBuilder := by
    rintro c _ d _ (hc | ⟨rfl, -⟩) (hd | ⟨rfl, -⟩)
    · exact hc.2.elim
    · exact hc.2.elim
    · exact hd.2.elim
    · rfl
  apart hr := hr.2.elim

/-- What an argument of a node refers to is shown in the same way both times. -/
theorem shown {r : Ref} (hr : r.Within ws) (exported : r.Exported functions) :
    (Comparison.repeated ws now b).Shown (.inert ws functions) r r := by
  cases r with
  | node n =>
    have same := h.kept.node n hr
    exact .inr ⟨hr, Nat.lt_of_lt_of_le hr h.kept.nodes, same.id.symm, same.builder.symm,
      (h.start.node n hr).owner⟩
  | parameter p =>
    exact .inr ⟨hr, Nat.lt_of_lt_of_le hr h.kept.parameters, (h.kept.parameter p hr).symm⟩
  | access a =>
    exact .inr ⟨hr, Nat.lt_of_lt_of_le hr h.kept.accesses,
      (h.kept.accessParameter hr (h.start.access a hr).parameter).symm⟩
  | builder c => exact exported.elim
  | formula f =>
    exact .inr ⟨hr, Nat.lt_of_lt_of_le hr h.kept.formulas, (h.kept.formula f hr).1.symm,
      (h.kept.formula f hr).2.symm⟩
  | callback f => exact .inl ⟨rfl, exported⟩

/-- The nodes of the builder are exported in the same way both times. -/
theorem exports_nodes (hb : b.index < ws.builders.size)
    (exported : ∀ p ∈ (ws.builder b).nodes, ∀ r ∈ Value.refsInEntries (ws.node p.2).arguments,
      r.Exported functions) :
    Dictionary.Match ((Comparison.repeated ws now b).Exports (.inert ws functions) ws now)
      (ws.builder b).nodes (now.builder b).nodes := by
  rw [(h.unchanged.builder b hb).1]
  refine .refl fun p hp => ?_
  obtain ⟨hn, own, -⟩ := (h.start.builder b hb).nodes p.1 p.2 hp
  have same := h.kept.node p.2 hn
  have flags := h.kept.flags p.2 hn
  refine ⟨.inr ⟨rfl, hn, own⟩, ?_, .inr ⟨⟨hn, Nat.lt_of_lt_of_le hn h.kept.nodes⟩,
    same.space.symm, flags.1.symm, flags.2.symm⟩⟩
  rw [same.arguments]
  exact Value.related_entries_refl _ fun r hr =>
    h.shown ((h.start.node p.2 hn).arguments r hr).1 (exported p hp r hr)

end Extends

end Workspace

end ProcessGraph
