import ProcessGraph.Proofs.Graph.SimulatedParameters

/-!
# Simulation of rolling back

If both sides are taken back to stages that matched, then what has come to match in between still
does (`Comparison.Matches.rollBack`): the builders get back nodes and counters that matched, and an
element is forgotten on both sides or on none. So atomic steps simulate each other if their bodies
do (`simulates_atomically`).
-/

set_option autoImplicit false

namespace ProcessGraph

theorem Metadata.eq_of_parameters_eq {x y : Metadata}
    (rest : { x with parameters := .null } = { y with parameters := .null })
    (parameters : x.parameters = y.parameters) : x = y := by
  obtain ⟨_, _, _, _, _, _, _, _, _, _, _⟩ := x
  obtain ⟨_, _, _, _, _, _, _, _, _, _, _⟩ := y
  simp only [mk.injEq] at rest parameters ⊢
  simp only [rest, parameters, and_self]

namespace Comparison

variable {C : Comparison} {R R' : Matching} {A A' B B' : Workspace} {b c : BuilderRef}

namespace Matches

/-- Both builders had the node under its id, or neither. -/
theorem registered_iff (h : C.Matches R A B) (h' : C.Matches R' A' B') (hle : R ≤ R')
    (hbc : R (.builder b) (.builder c)) {n m : NodeRef} (hnm : R' (.node n) (.node m)) :
    Dictionary.get? (A'.node n).id (A.builder b).nodes = some n ↔
      Dictionary.get? (B'.node m).id (B.builder c).nodes = some m := by
  rw [(h'.pair hnm).id]
  rcases (h.pair hbc).1.nodes.get? (B'.node m).id with ⟨eA, eB⟩ | ⟨n', m', eA, eB, hn⟩
  · rw [eA, eB]
    exact iff_of_false nofun nofun
  · rw [eA, eB, Option.some.injEq, Option.some.injEq]
    exact h'.uniqueNode (hle _ _ hn) hnm

/-- Builders that match after they were restored to stages that matched. -/
theorem restored (h : C.Matches R A B) (h' : C.Matches R' A' B') (hle : R ≤ R')
    (hbc : R (.builder b) (.builder c)) {x y : BuilderRef} (hxy : R' (.builder x) (.builder y)) :
    C.BuilderMatch R' (Workspace.restored A A' b x) (Workspace.restored B B' c y) := by
  have hm := (h'.pair hxy).1
  have ho := (h.pair hbc).1
  have same : x = b ↔ y = c := h'.uniqueBuilder (.inl hxy) (.inl (hle _ _ hbc))
  obtain ⟨hroot, -⟩ := h.root (.inl hbc)
  have top : x = A.root b ↔ y = B.root c := h'.uniqueBuilder (.inl hxy) (hroot.mono hle)
  obtain ⟨p₁, s₁, c₁, n₁, a₁, -⟩ := @Workspace.restored_fixed A' A b x
  obtain ⟨p₂, s₂, c₂, n₂, a₂, -⟩ := @Workspace.restored_fixed B' B c y
  refine ⟨by rw [c₁, c₂]; exact hm.catalog, by rw [s₁, s₂]; exact hm.settings,
    by rw [p₁, p₂]; exact hm.parent, by rw [n₁, n₂]; exact hm.parentNode,
    by rw [a₁, a₂]; exact hm.parentParameter, ?_, ?_, ?_⟩
  · rw [Workspace.restored_nodes, Workspace.restored_nodes]
    by_cases hx : x = b
    · rw [if_pos hx, if_pos (same.1 hx)]
      exact ho.nodes.mono fun _ _ => hle _ _
    · rw [if_neg hx, if_neg (mt same.2 hx)]
      exact hm.nodes
  · rw [Workspace.restored_counters, Workspace.restored_counters]
    by_cases hx : x = b
    · rw [if_pos hx, if_pos (same.1 hx)]
      exact ho.counters
    · rw [if_neg hx, if_neg (mt same.2 hx)]
      exact hm.counters
  · have parameters : (Workspace.restored A A' b x).metadata.parameters =
        (Workspace.restored B B' c y).metadata.parameters := by
      rw [Workspace.restored_parameters, Workspace.restored_parameters]
      by_cases hx : x = A.root b
      · rw [if_pos hx, if_pos (top.1 hx)]
        -- The roots are no outer builders, as they stand for each other.
        have hr : R (.builder (A.root b)) (.builder (B.root c)) :=
          hroot.resolve_right (h'.apart (hx ▸ top.1 hx ▸ hxy))
        rw [(h.pair hr).1.metadata]
      · rw [if_neg hx, if_neg (mt top.2 hx), hm.metadata]
    have rest := @Workspace.restored_metadata A' A b x
    rw [hm.metadata, ← @Workspace.restored_metadata B' B c y] at rest
    exact Metadata.eq_of_parameters_eq rest parameters

/-- What matches still matches after both sides were taken back to stages that matched. -/
theorem rollBack (h : C.Matches R A B) (h' : C.Matches R' A' B') (hle : R ≤ R')
    (gA : A.Grows A') (gB : B.Grows B') (hbc : R (.builder b) (.builder c)) :
    C.Matches R' (A.rollBack b A') (B.rollBack c B') := by
  obtain ⟨-, oA, oB⟩ := h.pair hbc
  obtain ⟨hroot, top⟩ := h.root (.inl hbc)
  have hbc' := hle _ _ hbc
  obtain ⟨hb, hc⟩ := h'.within hbc'
  have rA := Nat.lt_of_lt_of_le (h.wellFormed_left.root_lt oA.within) gA.builders
  have rB := Nat.lt_of_lt_of_le (h.wellFormed_right.root_lt oB.within) gB.builders
  have backA := Workspace.grows_rollBack h.wellFormed_left gA oA.within
  have backB := Workspace.grows_rollBack h.wellFormed_right gB oB.within
  refine h'.change backA backB (h.left.rollBack h'.left gA oA) (h.right.rollBack h'.right gB oB)
    (by simpa using h'.catalogs) (by simpa using h'.callbackNames) (fun r s hrs hp => ?_)
    (fun x y hxy => ?_) fun x y hxy hp => ?_
  · cases r <;> cases s <;> first | exact hp.elim | skip
    case node.node n m =>
      show NodeMatch R' ((A.rollBack b A').node n) ((B.rollBack c B').node m)
      rw [Workspace.node_rollBack, Workspace.node_rollBack]
      exact hp
    case parameter.parameter q s =>
      obtain ⟨hq, hs⟩ := h'.within hrs
      show (A.rollBack b A').parameter q = (B.rollBack c B').parameter s ∧ _
      rw [backA.parameter q hq, backB.parameter s hs]
      exact hp
    case access.access a d =>
      obtain ⟨ha, hd⟩ := h'.within hrs
      show AccessMatch R' ((A.rollBack b A').access a) ((B.rollBack c B').access d)
      rw [Workspace.access_rollBack hb rA, Workspace.access_rollBack hc rB]
      have same : (A'.access a).builder = b ↔ (B'.access d).builder = c :=
        h'.uniqueBuilder (.inl hp.builder) (.inl hbc')
      have ownA := h'.wellFormed_left.mem_values_iff hb ha
      have ownB := h'.wellFormed_right.mem_values_iff hc hd
      by_cases hx : (A'.access a).builder = b
      · rw [if_pos (ownA.2 hx), if_pos (ownB.2 (same.1 hx))]
        refine ⟨hp.parameter, hp.builder, hp.elements.filter fun k n m hnm => ?_⟩
        exact decide_eq_decide.2 (h.registered_iff h' hle hbc hnm)
      · rw [if_neg (mt ownA.1 hx), if_neg (mt ownB.1 (mt same.2 hx))]
        exact hp
    case builder.builder x y =>
      refine h'.pair_builder backA backB hrs ?_
      rw [Workspace.builder_rollBack hb rA, Workspace.builder_rollBack hc rB]
      exact h.restored h' hle hbc hrs
    case formula.formula f g =>
      obtain ⟨hf, hg⟩ := h'.within hrs
      show ((A.rollBack b A').formula f).text = ((B.rollBack c B').formula g).text ∧
        ((A.rollBack b A').formula f).tree = ((B.rollBack c B').formula g).tree
      rw [(backA.formula f hf).1, (backA.formula f hf).2, (backB.formula g hg).1,
        (backB.formula g hg).2]
      exact hp
    case callback.callback => trivial
  · have hk := h'.callbackParameters hxy
    intro k
    have hk := hk k
    rw [Workspace.builder_rollBack hb rA, Workspace.builder_rollBack hc rB,
      (Workspace.restored_fixed x).2.2.2.2.2, (Workspace.restored_fixed y).2.2.2.2.2]
    split
    · rename_i d hd
      rw [hd] at hk
      exact hk
    · rename_i hd
      rw [hd] at hk
      intro a ha
      obtain ⟨elements, spare⟩ := hk a ha
      refine ⟨?_, spare⟩
      rw [Workspace.access_rollBack hb rA]
      split
      · simp only [ArrayAccess.prune, elements, List.filter_nil]
      · exact elements
  · have o := h'.outerBuilder hxy
    rw [Workspace.builder_rollBack hb rA, Workspace.builder_rollBack hc rB,
      Workspace.restored_parameters, Workspace.restored_parameters]
    have same : x = A.root b ↔ y = B.root c := h'.uniqueBuilder (.inr hxy) (hroot.mono hle)
    by_cases hx : x = A.root b
    · rw [if_pos hx, if_pos (same.1 hx), hx]
      rw [hx, same.1 hx] at hxy
      exact (h.outerBuilder hxy).parameters top
    · rw [if_neg hx, if_neg (mt same.2 hx)]
      exact o.parameters hp

end Matches

end Comparison

/-! ## Rolling back again -/

namespace Workspace

/-- The builder has the nodes and counters that it had, and its root the parameters. -/
structure Undone (before now : Workspace) (b : BuilderRef) : Prop where
  nodes : (now.builder b).nodes = (before.builder b).nodes
  counters : (now.builder b).counters = (before.builder b).counters
  parameters : (now.builder (before.root b)).metadata.parameters =
    (before.builder (before.root b)).metadata.parameters

theorem Undone.restored_eq {before now : Workspace} {b : BuilderRef} (h : before.Undone now b)
    (c : BuilderRef) : restored before now b c = now.builder c := by
  have nodes : (if c = b then
      { now.builder c with
        nodes := (before.builder b).nodes, counters := (before.builder b).counters }
      else now.builder c) = now.builder c := by
    split
    · subst c
      rw [← h.nodes, ← h.counters]
    · rfl
  unfold restored
  dsimp only
  rw [nodes]
  split
  · subst c
    rw [← h.parameters]
  · rfl

section
variable {before now : Workspace} {b : BuilderRef} (wf : before.WellFormed) (g : before.Grows now)
  (hb : b.index < before.builders.size)
include wf g hb

theorem undone_rollBack : before.Undone (before.rollBack b now) b := by
  have hb' := Nat.lt_of_lt_of_le hb g.builders
  have hr' := Nat.lt_of_lt_of_le (wf.root_lt hb) g.builders
  refine ⟨?_, ?_, ?_⟩
  · rw [builder_rollBack hb' hr', restored_nodes, if_pos rfl]
  · rw [builder_rollBack hb' hr', restored_counters, if_pos rfl]
  · rw [builder_rollBack hb' hr', restored_parameters, if_pos rfl]

/-- What is undone already is only reported. -/
theorem Undone.adds_rollBack (h : before.Undone now b) (wfnow : now.WellFormed) :
    now.Adds (before.rollBack b now) := by
  have hb' := Nat.lt_of_lt_of_le hb g.builders
  have hr' := Nat.lt_of_lt_of_le (wf.root_lt hb) g.builders
  have builder (c : BuilderRef) : (before.rollBack b now).builder c = now.builder c := by
    rw [builder_rollBack hb' hr', h.restored_eq]
  refine { grows_rollBack wf g hb with
    catalogs := catalogs_rollBack
    callbackNames := callbackNames_rollBack
    sameNode := fun n _ => node_rollBack n
    sameBuilder := fun c _ => by rw [builder]
    sameAccess := fun a ha => ?_
    sameCallbackParameters := fun c _ => by rw [builder] }
  rw [access_rollBack hb' hr']
  split
  · rename_i hm
    -- Every element is registered, so that none is forgotten.
    have own := wfnow.builder_of_mem_values hb' hm
    have all : (now.access a).elements.filter (fun e =>
        Dictionary.get? (now.node e.2).id (before.builder b).nodes = some e.2) =
        (now.access a).elements := List.filter_eq_self.2 fun e he => by
      have registered := ((wfnow.access a ha).elements e.1 e.2 he).registered
      rw [own, h.nodes] at registered
      exact decide_eq_true registered
    unfold ArrayAccess.prune
    rw [all]
  · rfl

end

end Workspace

namespace Build

/-- Atomic steps simulate each other if their bodies do. -/
theorem simulates_atomically {C : Comparison} {p : Stage Workspace Workspace}
    (h : C.building.holds p) {b c : BuilderRef} (hbc : p.matching (.builder b) (.builder c))
    {α β : Type} {body : Build α} {body' : Build β} {Q : Stage Workspace Workspace → α → β → Prop}
    (hbody : Simulates C.building p body body' Q) :
    Simulates C.building p (atomically b body) (atomically c body') Q := by
  obtain ⟨R, l, hR, o⟩ := hbody
  unfold Simulates
  rw [run_atomically, run_atomically]
  rcases hA : body.run p.left with ⟨e | a, A⟩ <;> rcases hB : body'.run p.right with ⟨e' | d, B⟩ <;>
    rw [hA, hB] at l hR o <;> cases o
  · refine ⟨R, ⟨l.1, ?_, ?_⟩, ?_, .error e⟩
    · exact l.2.1.trans
        (Workspace.grows_rollBack h.wellFormed_left l.2.1 (h.within hbc).1)
    · exact l.2.2.trans
        (Workspace.grows_rollBack h.wellFormed_right l.2.2 (h.within hbc).2)
    · exact Comparison.Matches.rollBack h hR l.1.le l.2.1 l.2.2 hbc
  · rename_i hq
    exact ⟨R, l, hR, .ok hq⟩

end Build

end ProcessGraph
