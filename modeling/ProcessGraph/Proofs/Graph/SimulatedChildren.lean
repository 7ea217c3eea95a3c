import ProcessGraph.Graph.Document
import ProcessGraph.Proofs.Graph.SimulatedLowering

/-!
# Simulation of the builders of callbacks

The builder that is made for an argument of a node is new on both sides, and the two stand for each
other (`simulates_callbackBuilder`). What a callback returns is taken the same way on both sides
(`simulates_wrapList`, `simulates_resultNode`).
-/

set_option autoImplicit false

namespace ProcessGraph

namespace Comparison.Matches

variable {C : Comparison} {R : Matching} {A B : Workspace} (h : C.Matches R A B)
include h

theorem same_within {b c : BuilderRef} (hbc : C.Same R b c) :
    b.index < A.builders.size ∧ c.index < B.builders.size := by
  rcases hbc with hbc | hbc
  · exact h.within hbc
  · exact (h.outerBuilder hbc).within

theorem sameNode_within {n m : NodeRef} (hnm : C.SameNode R n m) :
    n.index < A.nodes.size ∧ m.index < B.nodes.size := by
  rcases hnm with hnm | hnm
  · exact h.within hnm
  · exact (h.outerNode hnm).within

/-- The builders of nodes that stand for each other do so, too. -/
theorem same_builder {n m : NodeRef} (hnm : C.SameNode R n m) :
    C.Same R (A.node n).builder (B.node m).builder := by
  rcases hnm with hnm | hnm
  · exact .inl (h.pair hnm).builder
  · exact (h.outerNode hnm).builder

theorem same_declared {n m : NodeRef} (hnm : C.SameNode R n m) :
    C.left.base.Free C.left.declared (A.root (A.node n).builder) ∧
      C.right.base.Free C.right.declared (B.root (B.node m).builder) := by
  rcases hnm with hnm | hnm
  · obtain ⟨-, oA, oB⟩ := h.pair (h.pair hnm).builder
    exact ⟨oA.declared, oB.declared⟩
  · exact (h.outerNode hnm).declared

theorem same_catalog {b c : BuilderRef} (hbc : C.Same R b c) :
    (A.builder b).catalog = (B.builder c).catalog ∧
      (A.builder b).settings = (B.builder c).settings := by
  rcases hbc with hbc | hbc
  · exact ⟨(h.pair hbc).1.catalog, (h.pair hbc).1.settings⟩
  · exact ⟨(h.outerBuilder hbc).catalog, (h.outerBuilder hbc).settings⟩

end Comparison.Matches

/-- A new child of a builder may be filled, as long as the root may get parameters. -/
theorem Frame.Holds.newChild {F : Frame} {ws : Workspace} (h : F.Holds ws) {b : BuilderRef}
    (hb : b.index < ws.builders.size) (hd : F.base.Free F.declared (ws.root b)) {x : Builder}
    (hx : x.Ok ws ⟨ws.builders.size⟩) (parent : x.parent = some b) :
    F.Holds { ws with builders := ws.builders.push x } ∧
      F.Open { ws with builders := ws.builders.push x } ⟨ws.builders.size⟩ := by
  have wf := h.wellFormed.newBuilder hx
  have hlt : ws.builders.size < (ws.builders.push x).size := by simp
  refine ⟨⟨h.start, wf, h.kept.newBuilder x⟩, hlt, .inr h.kept.builders, ?_⟩
  have e : ({ ws with builders := ws.builders.push x } : Workspace).builder ⟨ws.builders.size⟩ = x :=
    Arena.get_push_size ..
  rw [wf.root_of_some (b := ⟨ws.builders.size⟩) hlt (e.symm ▸ parent),
    h.wellFormed.root_eq (ws.grows_newBuilder x) hb]
  exact hd

namespace Build

section
variable {C : Comparison} {p : Stage Workspace Workspace} (h : C.building.holds p)
include h

/-- New children for nodes that stand for each other do so, too. -/
theorem simulates_createChild {n m : NodeRef} (hnm : C.SameNode p.matching n m)
    (argument : Scalar) :
    Simulates C.building p (createChild (p.left.node n).builder n argument)
      (createChild (p.right.node m).builder m argument) fun q x y =>
      q.matching (.builder x) (.builder y) ∧ C.left.base.builders.size ≤ x.index ∧
        C.right.base.builders.size ≤ y.index := by
  have hbc := h.same_builder hnm
  obtain ⟨hb, hc⟩ := h.same_within hbc
  obtain ⟨hn, hm⟩ := h.sameNode_within hnm
  obtain ⟨dA, dB⟩ := h.same_declared hnm
  obtain ⟨catalog, settings⟩ := h.same_catalog hbc
  have ok : ∀ {ws : Workspace} {d : BuilderRef} {k : NodeRef}, d.index < ws.builders.size →
      k.index < ws.nodes.size → Builder.Ok ws ⟨ws.builders.size⟩
        { catalog := (ws.builder d).catalog, settings := (ws.builder d).settings,
          parent := some d, parentNode := some k, parentParameter := argument } := fun hd hk =>
    ⟨fun _ e => by cases e; exact hd, fun _ e => by cases e; exact hk, fun _ _ e => (nomatch e),
      List.nodup_nil, .nil, fun _ _ e => (nomatch e)⟩
  obtain ⟨holdsA, openA⟩ := h.left.newChild hb dA (ok hb hn) rfl
  obtain ⟨holdsB, openB⟩ := h.right.newChild hc dB (ok hc hm) rfl
  refine ⟨_, ⟨Matching.grows_add _ (by rintro _ ⟨⟩), p.left.grows_newBuilder _,
    p.right.grows_newBuilder _⟩, h.newBuilder holdsA holdsB ?_ rfl rfl openA openB,
    .ok ⟨Matching.add_self .., h.left.kept.builders, h.right.kept.builders⟩⟩
  exact ⟨catalog, settings, .some hbc, .some hnm, rfl, .nil, rfl, rfl⟩

theorem simulates_callbackBuilder {n m : NodeRef} (hnm : C.SameNode p.matching n m)
    (argument : Scalar) :
    Simulates C.building p (Documents.callbackBuilder n argument)
      (Documents.callbackBuilder m argument) fun q b c =>
      q.matching (.builder b) (.builder c) ∧ C.left.base.builders.size ≤ b.index ∧
        C.right.base.builders.size ≤ c.index := by
  unfold Documents.callbackBuilder
  refine .get_bind ((simulates_createChild h hnm argument).bind
    fun q b c _ hq ⟨hbc, new⟩ => ?_)
  have same : ∀ (child : BuilderRef) (x : Node), x.SameCall { x with
      callbackBuilders := Dictionary.insert argument child x.callbackBuilders } :=
    fun _ _ => ⟨rfl, rfl, rfl, rfl, rfl, rfl⟩
  have holds : ∀ {F : Frame} {ws : Workspace} (k : NodeRef) (child : BuilderRef), F.Holds ws →
      F.Holds (ws.modifyNode k fun x => { x with
        callbackBuilders := Dictionary.insert argument child x.callbackBuilders }) :=
    fun k child hw => ⟨hw.start, hw.wellFormed.modifyNode k (same child),
      hw.kept.modifyNode k (same child) (.inr fun _ => ⟨rfl, rfl⟩)⟩
  refine (simulates_change (Q := fun r => r.matching (.builder b) (.builder c)) ?_ ?_
    (hq.modifyCallbackBuilders (holds n b hq.left) (holds m c hq.right)) hbc).bind
    fun r _ _ _ hr hbc => .pure hr ⟨hbc, new⟩
  · exact q.left.grows_modifyNode n (same b)
  · exact q.right.grows_modifyNode m (same c)

variable {b c : BuilderRef} (hbc : p.matching (.builder b) (.builder c))
include hbc

theorem simulates_wrapList {v w : Value} (hvw : Value.Related p.matching v w) :
    Simulates C.building p (Documents.wrapList b v) (Documents.wrapList c w)
      fun q x y => Value.Related q.matching x y := by
  have settings := (h.pair hbc).1.settings
  have wrapped : ∀ {vs ws : List Value}, List.Forall₂ (Value.Related p.matching) vs ws →
      Value.Related p.matching v w → Simulates C.building p
        (if (p.left.catalogOf b).has (p.left.builder b).settings.arrayCreateProcess none then do
          return .node (← invoke b (p.left.builder b).settings.arrayCreateProcess
            (.list [.list vs]))
        else return v)
        (if (p.right.catalogOf c).has (p.right.builder c).settings.arrayCreateProcess none then do
          return .node (← invoke c (p.right.builder c).settings.arrayCreateProcess
            (.list [.list ws]))
        else return w)
        fun q x y => Value.Related q.matching x y := by
    intro vs ws hvs hvw
    rw [h.catalogOf_eq (.inl hbc), settings]
    refine .ite Iff.rfl (fun _ => ?_) fun _ => .pure h hvw
    exact (simulates_invoke h hbc _ (.list (.cons (.list hvs) .nil)) _ _).bind
      fun q n m _ hq hnm => .pure hq (.node hnm)
  unfold Documents.wrapList
  refine .get_bind ?_
  have same := hvw
  cases hvw with
  | list hvs => exact wrapped hvs same
  | tuple hvs => exact wrapped hvs same
  | _ => exact .pure h same

/-- The result is one of the child on both sides, or on none. -/
theorem simulates_resultNode (argument : Scalar) (process : String) {v w : Value}
    (hvw : Value.Related p.matching v w) :
    Simulates C.building p (Documents.resultNode b argument process v)
      (Documents.resultNode c argument process w) fun q n m =>
      q.matching (.node n) (.node m) ∧ (q.left.node n).builder = b ∧
        (q.right.node m).builder = c := by
  unfold Documents.resultNode
  cases hvw with
  | node hnm =>
    refine .get_bind (.ite ?_ (fun own => .pure h ⟨hnm, own, ?_⟩) fun _ => .throw h)
    · exact h.uniqueBuilder (.inl (h.pair hnm).builder) (.inl hbc)
    · exact (h.uniqueBuilder (.inl (h.pair hnm).builder) (.inl hbc)).1 own
  | _ => exact .throw h

end

end Build

end ProcessGraph
