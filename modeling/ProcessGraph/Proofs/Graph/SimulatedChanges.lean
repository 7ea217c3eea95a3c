import ProcessGraph.Proofs.Graph.Reachability
import ProcessGraph.Proofs.Graph.SimulatedParameters

/-!
# Simulation of changes

The metadata of a builder and its place in a graph are given and not computed. They may be changed
in the same way on both sides (`simulates_setMetadata`, `simulates_setParent`), and so may the flags
and descriptions of nodes, unless the comparison keeps what was said about them in the beginning:
builders and nodes that stand for each other are new to both sides if neither fills a builder that
it began with (`Comparison.FillsNew`).
-/

set_option autoImplicit false

namespace ProcessGraph

/-- The builders that may be filled are none of those from the beginning. -/
def Frame.FillsNew (F : Frame) : Prop := ∀ b, F.content b → F.base.builders.size ≤ b.index

structure Comparison.FillsNew (C : Comparison) : Prop where
  left : C.left.FillsNew
  right : C.right.FillsNew

/-- The builders have the same contents. Their metadata and places may differ. -/
structure Builder.SameContents (x y : Builder) : Prop where
  parent : y.parent = x.parent
  settings : y.settings = x.settings
  catalog : y.catalog = x.catalog
  nodes : y.nodes = x.nodes
  callbackParameters : y.callbackParameters = x.callbackParameters

theorem Builder.SameContents.fields {x y : Builder} (h : x.SameContents y) :
    y.parent = x.parent ∧ y.settings = x.settings ∧ y.catalog = x.catalog :=
  ⟨h.parent, h.settings, h.catalog⟩

/-- A builder that is new to the frame may be given other metadata and another place. -/
theorem Frame.Holds.modifyBuilder {F : Frame} {ws : Workspace} (h : F.Holds ws) {b : BuilderRef}
    (new : F.base.builders.size ≤ b.index) {f : Builder → Builder}
    (hf : ∀ x : Builder, x.SameContents (f x))
    (place : ∀ x n, (f x).parentNode = some n → x.parentNode = some n ∨ n.index < ws.nodes.size) :
    F.Holds (ws.modifyBuilder b f) := by
  have fields (x : Builder) := (hf x).fields
  refine ⟨h.start, ?_, h.kept.modifyBuilder b fields fun old => absurd old (Nat.not_lt.2 new)⟩
  exact (h.wellFormed.modifyFields b fields
    (fun x => ⟨(hf x).nodes, (hf x).callbackParameters⟩) place).wellFormed

namespace Build

section
variable {C : Comparison} (new : C.FillsNew) {p : Stage Workspace Workspace}
  (h : C.building.holds p)
include new h

theorem newBuilders {b c : BuilderRef} (hbc : p.matching (.builder b) (.builder c)) :
    C.left.base.builders.size ≤ b.index ∧ C.right.base.builders.size ≤ c.index :=
  have isOpen := isOpen h hbc
  ⟨isOpen.1.content.elim (new.left b) id, isOpen.2.content.elim (new.right c) id⟩

theorem newNodes {n m : NodeRef} (hnm : p.matching (.node n) (.node m)) :
    C.left.base.NewNode n ∧ C.right.base.NewNode m :=
  have owners := newBuilders new h (h.pair hnm).builder
  ⟨newNode_of_owner h.left owners.1, newNode_of_owner h.right owners.2⟩

variable {b c : BuilderRef} (hbc : p.matching (.builder b) (.builder c))
include hbc

/-- Related builders may get other metadata and other places, as long as they are alike. -/
theorem simulates_modifyBuilder {f g : Builder → Builder} (hf : ∀ x : Builder, x.SameContents (f x))
    (hg : ∀ x : Builder, x.SameContents (g x))
    (placeA : ∀ x n, (f x).parentNode = some n →
      x.parentNode = some n ∨ n.index < p.left.nodes.size)
    (placeB : ∀ x n, (g x).parentNode = some n →
      x.parentNode = some n ∨ n.index < p.right.nodes.size)
    (same : C.BuilderMatch p.matching (p.left.builder b) (p.right.builder c) →
      C.BuilderMatch p.matching (f (p.left.builder b)) (g (p.right.builder c))) :
    Simulates C.building p (change fun ws => ws.modifyBuilder b f)
      (change fun ws => ws.modifyBuilder c g) fun _ _ _ => True := by
  obtain ⟨newA, newB⟩ := newBuilders new h hbc
  have left (x : Builder) := (hf x).fields
  have right (x : Builder) := (hg x).fields
  refine simulates_change (p.left.grows_modifyBuilder b left) (p.right.grows_modifyBuilder c right)
    (h.modifyBuilder (h.left.modifyBuilder newA hf placeA) (h.right.modifyBuilder newB hg placeB)
      (.inl hbc) left right ?_ (fun _ => same) fun outer => absurd outer (h.apart hbc)) trivial
  exact ⟨fun x => (hf x).callbackParameters, fun x => (hg x).callbackParameters⟩

theorem simulates_setMetadata (name : String) (v : Value) :
    Simulates C.building p (setMetadata b name v) (setMetadata c name v) fun _ _ _ => True :=
  simulates_modifyBuilder new h hbc (fun _ => ⟨rfl, rfl, rfl, rfl, rfl⟩)
    (fun _ => ⟨rfl, rfl, rfl, rfl, rfl⟩) (fun _ _ => .inl) (fun _ _ => .inl)
    fun same => { same with metadata := congrArg (·.set name v) same.metadata }

theorem simulates_setParent {n m : NodeRef} (hnm : p.matching (.node n) (.node m))
    (argument : Scalar) :
    Simulates C.building p (setParent b n argument) (setParent c m argument) fun _ _ _ => True :=
  simulates_modifyBuilder new h hbc (fun _ => ⟨rfl, rfl, rfl, rfl, rfl⟩)
    (fun _ => ⟨rfl, rfl, rfl, rfl, rfl⟩)
    (fun _ _ e => .inr (Option.some.inj e ▸ (h.within hnm).1))
    (fun _ _ e => .inr (Option.some.inj e ▸ (h.within hnm).2))
    fun same => { same with parentNode := .some (.inl hnm), parentParameter := rfl }

end

end Build

end ProcessGraph
