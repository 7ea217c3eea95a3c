import ProcessGraph.Proofs.Graph.WellFormed

/-!
# Rolling back

What a rolled back workspace looks like (`rollBack_builder`, `rollBack_access`), and that it is a
well-formed one in which nothing has changed that may not change (`WellFormed.rollBack`,
`Preserves.rollBack`). The remembered elements are cut down to those that are registered, which is
all of them for every builder but the one that is rolled back.
-/

set_option autoImplicit false

namespace ProcessGraph

namespace Workspace

variable {ws now before : Workspace} {b : BuilderRef}

/-! ## Outermost builders -/

theorem WellFormed.parent_lt (h : ws.WellFormed) {p : BuilderRef} (hb : b.index < ws.builders.size)
    (hp : (ws.builder b).parent = some p) : p.index < b.index ∧ p.index < ws.builders.size := by
  have := (h.builder b hb).parent p hp
  exact ⟨this, by omega⟩

theorem WellFormed.rootWithin_le (h : ws.WellFormed) (n : Nat) (hb : b.index < ws.builders.size) :
    (ws.rootWithin n b).index ≤ b.index := by
  induction n generalizing b with
  | zero => exact Nat.le_refl _
  | succ n ih =>
    unfold rootWithin
    split
    · rename_i p hp
      obtain ⟨hlt, hp⟩ := h.parent_lt hb hp
      have := ih hp
      omega
    · exact Nat.le_refl _

theorem WellFormed.root_lt (h : ws.WellFormed) (hb : b.index < ws.builders.size) :
    (ws.root b).index < ws.builders.size :=
  Nat.lt_of_le_of_lt (h.rootWithin_le _ hb) hb

/-- Two workspaces in which builders have the same parents agree on the outermost ones. The index
of a builder bounds the number of builders above it. -/
theorem WellFormed.rootWithin_eq (h : ws.WellFormed) (g : ws.Grows now) {m n : Nat}
    (hb : b.index < ws.builders.size) (hm : b.index ≤ m) (hn : b.index ≤ n) :
    now.rootWithin m b = ws.rootWithin n b := by
  induction m generalizing n b with
  | zero =>
    have hp : (ws.builder b).parent = none := by
      cases hp : (ws.builder b).parent with
      | none => rfl
      | some p => have := (h.parent_lt hb hp).1; omega
    cases n with
    | zero => rfl
    | succ n => simp only [rootWithin, hp]
  | succ m ih =>
    unfold rootWithin
    rw [(g.builder b hb).1]
    cases hp : (ws.builder b).parent with
    | none => cases n <;> simp [hp]
    | some p =>
      obtain ⟨hlt, hp'⟩ := h.parent_lt hb hp
      cases n with
      | zero => omega
      | succ n =>
        simp only [hp]
        exact ih hp' (by omega) (by omega)

theorem WellFormed.root_eq (h : ws.WellFormed) (g : ws.Grows now)
    (hb : b.index < ws.builders.size) : now.root b = ws.root b :=
  h.rootWithin_eq g hb (Nat.le_of_lt (Nat.lt_of_lt_of_le hb g.builders)) (Nat.le_of_lt hb)

theorem WellFormed.root_of_none (h : ws.WellFormed) (hb : b.index < ws.builders.size)
    (hp : (ws.builder b).parent = none) : ws.root b = b := by
  have e := h.rootWithin_eq (.refl ws) hb (Nat.le_of_lt hb) (Nat.le_succ_of_le (Nat.le_of_lt hb))
  unfold root
  rw [e, rootWithin, hp]

theorem WellFormed.root_of_some (h : ws.WellFormed) (hb : b.index < ws.builders.size)
    {c : BuilderRef} (hp : (ws.builder b).parent = some c) : ws.root b = ws.root c := by
  have e := h.rootWithin_eq (.refl ws) hb (Nat.le_of_lt hb) (Nat.le_succ_of_le (Nat.le_of_lt hb))
  unfold root
  rw [e, rootWithin, hp]

theorem WellFormed.parent_root (h : ws.WellFormed) (hb : b.index < ws.builders.size) :
    (ws.builder (ws.root b)).parent = none := by
  obtain ⟨i, hi⟩ : ∃ i, b.index = i := ⟨_, rfl⟩
  induction i using Nat.strongRecOn generalizing b with
  | ind i ih =>
    cases hp : (ws.builder b).parent with
    | none => rwa [h.root_of_none hb hp]
    | some p =>
      obtain ⟨hlt, hp'⟩ := h.parent_lt hb hp
      rw [h.root_of_some hb hp]
      exact ih p.index (hi ▸ hlt) hp' rfl

theorem WellFormed.root_root (h : ws.WellFormed) (hb : b.index < ws.builders.size) :
    ws.root (ws.root b) = ws.root b :=
  h.root_of_none (h.root_lt hb) (h.parent_root hb)

/-! ## Pruned callback parameters -/

theorem foldl_modifyAccess (f : ArrayAccess → ArrayAccess) (l : List AccessRef) (ws : Workspace) :
    l.foldl (fun now a => now.modifyAccess a f) ws =
      { ws with accesses := l.foldl (fun arena a => arena.modify a.index f) ws.accesses } := by
  induction l generalizing ws with
  | nil => rfl
  | cons a l ih => rw [List.foldl_cons, ih, List.foldl_cons]; rfl

theorem access_foldl_modifyAccess {f : ArrayAccess → ArrayAccess} (hf : ∀ a, f (f a) = f a)
    (hd : f default = default) (l : List AccessRef) (ws : Workspace) (a : AccessRef) :
    (l.foldl (fun now a => now.modifyAccess a f) ws).access a =
      if a ∈ l then f (ws.access a) else ws.access a := by
  have out : ∀ (ws : Workspace), ¬ a.index < ws.accesses.size → f (ws.access a) = ws.access a := by
    intro ws ha
    have e : ws.access a = default := Arena.get_of_size_le (Nat.not_lt.1 ha)
    rw [e, hd]
  induction l generalizing ws with
  | nil => rfl
  | cons c l ih =>
    rw [List.foldl_cons, ih, access_modifyAccess]
    by_cases hac : a = c
    · subst hac
      by_cases hlt : a.index < ws.accesses.size
      · simp [hlt, hf]
      · simp [hlt, out ws hlt]
    · simp [hac]

theorem size_foldl_modify (f : ArrayAccess → ArrayAccess) (l : List AccessRef)
    (arena : Arena ArrayAccess) :
    (l.foldl (fun arena a => arena.modify a.index f) arena).size = arena.size := by
  induction l generalizing arena with
  | nil => rfl
  | cons a l ih => rw [List.foldl_cons, ih, Arena.size_modify]

theorem pruneAccesses_eq (ws : Workspace) (b : BuilderRef) :
    ∃ accesses : Arena ArrayAccess, ws.pruneAccesses b = { ws with accesses } ∧
      accesses.size = ws.accesses.size :=
  ⟨_, foldl_modifyAccess .., size_foldl_modify ..⟩

theorem access_pruneAccesses (ws : Workspace) (b : BuilderRef) (a : AccessRef) :
    (ws.pruneAccesses b).access a =
      if a ∈ (ws.builder b).callbackParameters.values then
        (ws.access a).prune ws (ws.builder b).nodes
      else ws.access a :=
  access_foldl_modifyAccess (fun a => by simp [ArrayAccess.prune]) rfl _ ws a

theorem WellFormed.builder_of_mem_values (h : ws.WellFormed) (hb : b.index < ws.builders.size)
    {a : AccessRef} (ha : a ∈ (ws.builder b).callbackParameters.values) :
    (ws.access a).builder = b := by
  obtain ⟨p, hp, rfl⟩ := List.mem_map.1 ha
  exact ((h.builder b hb).callbackParameters p.1 p.2 hp).2.1

/-- The callback parameters that are pruned are those of the builder. -/
theorem WellFormed.mem_values_iff (h : ws.WellFormed) (hb : b.index < ws.builders.size)
    {a : AccessRef} (ha : a.index < ws.accesses.size) :
    a ∈ (ws.builder b).callbackParameters.values ↔ (ws.access a).builder = b := by
  refine ⟨h.builder_of_mem_values hb, fun e => ?_⟩
  obtain ⟨k, hk⟩ := (h.access a ha).listed
  rw [e] at hk
  exact List.mem_map.2 ⟨_, Dictionary.mem_of_get? hk, rfl⟩

/-! ## Rolled back workspaces -/

/-- A builder after rolling back: the nodes and counters are restored if `content`, the parameters
if `declared`. -/
def restored (before now : Workspace) (b c : BuilderRef) : Builder :=
  let builder := now.builder c
  let builder := if c = b then
    { builder with nodes := (before.builder b).nodes, counters := (before.builder b).counters }
    else builder
  if c = before.root b then
    { builder with metadata.parameters := (before.builder (before.root b)).metadata.parameters }
  else builder

section
variable (hb : b.index < now.builders.size) (hr : (before.root b).index < now.builders.size)
include hb hr

theorem builder_restore (c : BuilderRef) :
    (restoreParameters before (before.root b) (restoreNodes before b now)).builder c =
      restored before now b c := by
  have hr' : (before.root b).index < (restoreNodes before b now).builders.size := by
    simpa [restoreNodes, modifyBuilder] using hr
  have e : (restoreNodes before b now).builder c = if c = b then
      { now.builder c with
        nodes := (before.builder b).nodes, counters := (before.builder b).counters }
      else now.builder c := by
    rw [restoreNodes, builder_modifyBuilder]
    simp only [hb, and_true]
  rw [restoreParameters, builder_modifyBuilder, e]
  simp only [hr', and_true]
  rfl

theorem builder_rollBack (c : BuilderRef) :
    (rollBack before b now).builder c = restored before now b c := by
  obtain ⟨accesses, e, -⟩ := pruneAccesses_eq
    (restoreParameters before (before.root b) (restoreNodes before b now)) b
  simp only [rollBack, e]
  exact builder_restore hb hr c

theorem access_rollBack (a : AccessRef) :
    (rollBack before b now).access a =
      if a ∈ (now.builder b).callbackParameters.values then
        (now.access a).prune now (before.builder b).nodes
      else now.access a := by
  have hn : (restored before now b b).nodes = (before.builder b).nodes := by
    simp only [restored, if_true]
    split <;> rfl
  have hc : (restored before now b b).callbackParameters = (now.builder b).callbackParameters := by
    simp only [restored, if_true]
    split <;> rfl
  have recorded (ws : Workspace) (r : Log.Record) : (ws.addRecord r).access a = ws.access a := rfl
  unfold rollBack
  dsimp only
  rw [recorded, access_pruneAccesses, builder_restore hb hr, hn, hc]
  rfl

end

theorem rollBack_eq (before now : Workspace) (b : BuilderRef) :
    ∃ (builders : Arena Builder) (accesses : Arena ArrayAccess) (log : List Log.Record),
      rollBack before b now = { now with builders, accesses, log } ∧
      builders.size = now.builders.size ∧ accesses.size = now.accesses.size := by
  obtain ⟨accesses, e, hs⟩ := pruneAccesses_eq
    (restoreParameters before (before.root b) (restoreNodes before b now)) b
  refine ⟨(restoreParameters before (before.root b) (restoreNodes before b now)).builders,
    accesses, (rollBack before b now).log, ?_, ?_, hs⟩
  · simp only [rollBack, e]
    rfl
  · simp [restoreParameters, restoreNodes, modifyBuilder]

@[simp] theorem nodes_rollBack : (rollBack before b now).nodes = now.nodes := by
  obtain ⟨_, _, _, e, -, -⟩ := rollBack_eq before now b
  rw [e]

@[simp] theorem parameters_rollBack : (rollBack before b now).parameters = now.parameters := by
  obtain ⟨_, _, _, e, -, -⟩ := rollBack_eq before now b
  rw [e]

@[simp] theorem formulas_rollBack : (rollBack before b now).formulas = now.formulas := by
  obtain ⟨_, _, _, e, -, -⟩ := rollBack_eq before now b
  rw [e]

@[simp] theorem catalogs_rollBack : (rollBack before b now).catalogs = now.catalogs := by
  obtain ⟨_, _, _, e, -, -⟩ := rollBack_eq before now b
  rw [e]

@[simp] theorem callbackNames_rollBack :
    (rollBack before b now).callbackNames = now.callbackNames := by
  obtain ⟨_, _, _, e, -, -⟩ := rollBack_eq before now b
  rw [e]

@[simp] theorem size_builders_rollBack :
    (rollBack before b now).builders.size = now.builders.size := by
  obtain ⟨_, _, _, e, h, -⟩ := rollBack_eq before now b
  rw [e, h]

@[simp] theorem size_accesses_rollBack :
    (rollBack before b now).accesses.size = now.accesses.size := by
  obtain ⟨_, _, _, e, -, h⟩ := rollBack_eq before now b
  rw [e, h]

@[simp] theorem node_rollBack (n : NodeRef) : (rollBack before b now).node n = now.node n := by
  simp only [node, nodes_rollBack]

/-! ### What a restored builder has -/

section
variable (c : BuilderRef)

theorem restored_fixed : (restored before now b c).parent = (now.builder c).parent ∧
    (restored before now b c).settings = (now.builder c).settings ∧
    (restored before now b c).catalog = (now.builder c).catalog ∧
    (restored before now b c).parentNode = (now.builder c).parentNode ∧
    (restored before now b c).parentParameter = (now.builder c).parentParameter ∧
    (restored before now b c).callbackParameters = (now.builder c).callbackParameters := by
  unfold restored
  split <;> split <;> exact ⟨rfl, rfl, rfl, rfl, rfl, rfl⟩

theorem restored_nodes : (restored before now b c).nodes =
    if c = b then (before.builder b).nodes else (now.builder c).nodes := by
  unfold restored
  split <;> split <;> rfl

theorem restored_counters : (restored before now b c).counters =
    if c = b then (before.builder b).counters else (now.builder c).counters := by
  unfold restored
  split <;> split <;> rfl

theorem restored_parameters : (restored before now b c).metadata.parameters =
    if c = before.root b then (before.builder (before.root b)).metadata.parameters
    else (now.builder c).metadata.parameters := by
  unfold restored
  split <;> split <;> rfl

theorem restored_metadata :
    { (restored before now b c).metadata with parameters := .null } =
      { (now.builder c).metadata with parameters := .null } := by
  unfold restored
  split <;> split <;> rfl

end

/-! ## Well-formedness -/

section
variable (hbefore : before.WellFormed) (hnow : now.WellFormed) (g : before.Grows now)
  (hb : b.index < before.builders.size)
include hbefore g hb

theorem grows_rollBack : now.Grows (rollBack before b now) := by
  have hb' := Nat.lt_of_lt_of_le hb g.builders
  have hr' := Nat.lt_of_lt_of_le (hbefore.root_lt hb) g.builders
  refine ⟨by simp, by simp, by simp, by simp, by simp, fun n _ => ?_, fun p _ => ?_, fun a _ => ?_,
    fun c _ => ?_, fun f _ => ?_⟩
  · rw [node_rollBack]
    exact .refl _
  · simp only [parameter, parameters_rollBack]
  · rw [access_rollBack hb' hr']
    split <;> exact ⟨rfl, rfl⟩
  · rw [builder_rollBack hb' hr']
    obtain ⟨h₁, h₂, h₃, -⟩ := @restored_fixed now before b c
    exact ⟨h₁, h₂, h₃⟩
  · simp only [formula, formulas_rollBack]
    exact ⟨trivial, trivial⟩

include hnow

theorem WellFormed.rollBack : (rollBack before b now).WellFormed := by
  have hb' := Nat.lt_of_lt_of_le hb g.builders
  have hr' := Nat.lt_of_lt_of_le (hbefore.root_lt hb) g.builders
  have g' := grows_rollBack hbefore g hb
  refine ⟨fun n hn => ?_, fun c hc => ?_, fun a ha => ?_, fun a c ha hc e => ?_⟩
  · rw [nodes_rollBack] at hn
    exact (hnow.node n hn).grow g' (g'.node n hn)
  · rw [size_builders_rollBack] at hc
    have ok := (hnow.builder c hc).grow g'
    rw [builder_rollBack hb' hr']
    obtain ⟨h₁, -, -, h₄, -, h₆⟩ := @restored_fixed now before b c
    have hnodes : ∀ builder : Builder, builder.Ok (before.rollBack b now) c →
        (restored before now b c).nodes = builder.nodes →
        (restored before now b c).Ok (before.rollBack b now) c := fun builder h e =>
      ⟨h₁ ▸ ok.parent, h₄ ▸ ok.parentNode, e ▸ h.nodes, e ▸ h.nodup, e ▸ h.ordered,
        h₆ ▸ ok.callbackParameters⟩
    by_cases hcb : c = b
    · subst hcb
      refine hnodes _ ((hbefore.builder c hb).grow (g.trans g')) ?_
      rw [restored_nodes, if_pos rfl]
    · refine hnodes _ ok ?_
      rw [restored_nodes, if_neg hcb]
  · rw [size_accesses_rollBack] at ha
    have ok := hnow.access a ha
    -- A callback parameter that is not pruned belongs to another builder.
    have cases := hnow.mem_values_iff hb' ha
    have listed : ∃ k, Dictionary.get? k
        ((before.rollBack b now).builder (now.access a).builder).callbackParameters = some a := by
      rw [builder_rollBack hb' hr', (restored_fixed _).2.2.2.2.2]
      exact ok.listed
    rw [access_rollBack hb' hr']
    by_cases hm : a ∈ (now.builder b).callbackParameters.values
    · rw [if_pos hm]
      refine ⟨?_, Nat.lt_of_lt_of_le ok.builder g'.builders, listed, fun k n hn => ?_⟩
      · exact Nat.lt_of_lt_of_le ok.parameter g'.parameters
      · obtain ⟨hn, hreg⟩ := List.mem_filter.1 hn
        refine IsElement.grow ⟨(ok.elements k n hn).within, (ok.elements k n hn).process,
          (ok.elements k n hn).arguments, (ok.elements k n hn).registered⟩ g' ok.builder ?_
        simp only [ArrayAccess.prune, cases.1 hm, builder_rollBack hb' hr', restored_nodes, if_true]
        exact of_decide_eq_true hreg
    · rw [if_neg hm]
      refine ⟨Nat.lt_of_lt_of_le ok.parameter g'.parameters,
        Nat.lt_of_lt_of_le ok.builder g'.builders, listed, fun k n hn => ?_⟩
      refine (ok.elements k n hn).grow g' ok.builder ?_
      rw [builder_rollBack hb' hr', restored_nodes, if_neg fun e => hm (cases.2 e)]
      exact (ok.elements k n hn).registered
  · rw [size_accesses_rollBack] at ha hc
    rw [(g'.access a ha).1, (g'.access c hc).1] at e
    exact hnow.distinct a c ha hc e

end

/-! ## Preservation -/

/-- The elements that an earlier workspace remembers stay when a later one is pruned. -/
theorem growsBy_prune {fresh : NodeRef → Prop} {a c : ArrayAccess}
    {nodes : Dictionary String NodeRef} (h : a.elements.GrowsBy fresh c.elements)
    (hreg : ∀ e ∈ a.elements, Dictionary.get? (now.node e.2).id nodes = some e.2) :
    a.elements.GrowsBy fresh (c.prune now nodes).elements := by
  obtain ⟨more, e, hm⟩ := h
  refine ⟨more.filter fun e => Dictionary.get? (now.node e.2).id nodes = some e.2, ?_,
    fun p hp => hm p (List.mem_filter.1 hp).1⟩
  simp only [ArrayAccess.prune, e, List.filter_append]
  congr 1
  exact List.filter_eq_self.2 fun e he => decide_eq_true (hreg e he)

/-- Rolling back a builder that may change, to a state after the one that is looked back on. -/
theorem Preserves.rollBack {S P : BuilderRef → Prop} (hws : ws.WellFormed)
    (hbefore : before.WellFormed) (hnow : now.WellFormed) (kb : ws.Preserves S P before)
    (kn : ws.Preserves S P now) (g : before.Grows now) (hb : b.index < before.builders.size)
    (hS : ws.Free S b) (hP : ws.Free P (before.root b)) :
    ws.Preserves S P (rollBack before b now) := by
  have hb' := Nat.lt_of_lt_of_le hb g.builders
  have hr' := Nat.lt_of_lt_of_le (hbefore.root_lt hb) g.builders
  have listed := fun (a : AccessRef) hm => hnow.builder_of_mem_values hb' (a := a) hm
  refine { kn.toGrows.trans (grows_rollBack hbefore g hb) with
    catalogs := by rw [catalogs_rollBack, kn.catalogs]
    callbackNames := by rw [callbackNames_rollBack, kn.callbackNames]
    flags := fun n hn => by rw [node_rollBack]; exact kn.flags n hn
    content := fun c hc => ?_, elements := fun a ha => ?_, newAccess := fun a ha hlt => ?_ }
  · have kept := kn.content c hc
    obtain ⟨-, -, -, h₄, h₅, h₆⟩ := @restored_fixed now before b c
    rw [builder_rollBack hb' hr']
    refine ⟨h₄.trans kept.parentNode, h₅.trans kept.parentParameter,
      restored_metadata c |>.trans kept.metadata, ?_, ?_, ?_, ?_⟩
    · rw [restored_parameters]
      split
      · rename_i h
        rw [← h] at hP
        exact .inl (hP.resolve_right (Nat.not_le.2 hc))
      · exact kept.parameters
    · rw [restored_nodes]
      split
      · rename_i h
        subst h
        exact (kb.content c hc).nodes
      · exact kept.nodes
    · rw [h₆]
      exact kept.callbackParameters
    · by_cases h : c = b
      · subst h
        exact .inl (hS.resolve_right (Nat.not_le.2 hc))
      · rw [restored_nodes, restored_counters, if_neg h, if_neg h]
        exact kept.untouched
  · have kept := kn.elements a ha
    rw [access_rollBack hb' hr']
    split
    · rename_i hm
      have hab : (ws.access a).builder = b := by
        rw [← (kn.access a ha).2]
        exact listed a hm
      have hbw : b.index < ws.builders.size := hab ▸ (hws.access a ha).builder
      refine ⟨growsBy_prune kept.elements fun e he => ?_, .inl ?_⟩
      · have is := (hws.access a ha).elements e.1 e.2 he
        rw [(kn.node e.2 is.within).id]
        exact (kb.content b hbw).nodes.get? (hab ▸ is.registered)
      · rw [hab]
        exact hS.resolve_right (Nat.not_le.2 hbw)
    · exact kept
  · rw [size_accesses_rollBack] at hlt
    have new := kn.newAccess a ha hlt
    rw [access_rollBack hb' hr']
    split
    · exact fun e he => new e (List.mem_filter.1 he).1
    · exact new

end Workspace

end ProcessGraph
