import ProcessGraph.Proofs.Graph.SimulatedParameters

/-!
# Simulation of calls

Calls on related builders with related arguments give related nodes, or fail in the same way
(`simulates_invoke`), and so does access to elements of related callback parameters
(`simulates_element`).
-/

set_option autoImplicit false

namespace ProcessGraph

namespace Comparison.Matches

variable {C : Comparison} {R : Matching} {A B : Workspace} (h : C.Matches R A B)
include h

/-- Related values refer to objects that exist. -/
theorem value_within {v w : Value} (hvw : Value.Related R v w) : v.Within A ∧ w.Within B :=
  hvw.forall_refs fun _ _ hrs => h.within hrs

theorem catalogOf_eq {b c : BuilderRef} (hbc : C.Same R b c) : A.catalogOf b = B.catalogOf c := by
  have e : (A.builder b).catalog = (B.builder c).catalog := by
    rcases hbc with hbc | hbc
    · exact (h.pair hbc).1.catalog
    · exact (h.outerBuilder hbc).catalog
  simp only [Workspace.catalogOf, Workspace.catalog, e, h.catalogs]

/-- The arguments of a node that is to be made. -/
theorem nodeOk {d e : Value.Entries} (hde : Dictionary.Match (Value.Related R) d e) :
    (∀ r ∈ Value.refsInEntries d, r.Within A ∧ r.Below ⟨A.nodes.size⟩) ∧
    ∀ s ∈ Value.refsInEntries e, s.Within B ∧ s.Below ⟨B.nodes.size⟩ := by
  refine Value.related_entries_forall_refs (fun r s hrs => ?_) hde
  obtain ⟨hr, hs⟩ := h.within hrs
  have below : ∀ {ws : Workspace} {r : Ref}, r.Within ws → r.Below ⟨ws.nodes.size⟩ := by
    intro ws r hr
    cases r with
    | node n => exact hr
    | _ => trivial
  exact ⟨⟨hr, below hr⟩, hs, below hs⟩

end Comparison.Matches

namespace Build

section
variable {C : Comparison} {p : Stage Workspace Workspace} (h : C.building.holds p)
include h

theorem simulates_newParameter {x : Parameter} (hx : x.isDeclarable → C.admits x.declaration) :
    Simulates C.building p (newParameter x) (newParameter x)
      fun q r s => q.matching (.parameter r) (.parameter s) := by
  have hl := (ensures_newParameter h.left x).1
  have hr := (ensures_newParameter h.right x).1
  exact ⟨_, ⟨Matching.grows_add _ (by rintro _ ⟨⟩), p.left.grows_newParameter x,
    p.right.grows_newParameter x⟩, h.newParameter hl hr hx, .ok (Matching.add_self ..)⟩

variable {b c : BuilderRef} (hbc : p.matching (.builder b) (.builder c))
include hbc

theorem simulates_declareAll {rs ss : List ParameterRef}
    (hrs : List.Forall₂ (fun r s => p.matching (.parameter r) (.parameter s)) rs ss) :
    Simulates C.building p (declareAll b rs) (declareAll c ss) fun _ _ _ => True := by
  induction rs generalizing p ss with
  | nil =>
    cases hrs
    exact .pure h trivial
  | cons r rs ih =>
    cases hrs with
    | @cons _ s _ ss hrs hs =>
      unfold declareAll
      refine .get_bind ?_
      obtain ⟨e, admitted⟩ := h.pair hrs
      dsimp only
      rw [← e]
      refine .ite Iff.rfl (fun hd => ?_) fun _ => ih h hbc hs
      refine (simulates_addParameter h hbc true fun _ => admitted hd).bind fun q _ _ l hq _ => ?_
      exact ih hq (l.1.le _ _ hbc) (hs.imp fun _ _ => l.1.le _ _)

/-! ## Calls -/

theorem simulates_generateId (name : String) :
    Simulates C.building p (generateId b name) (generateId c name) fun _ => Eq := by
  obtain ⟨oA, oB⟩ := isOpen h hbc
  have hl := (ensures_generateId h.left oA name).1
  have hr := (ensures_generateId h.right oB name).1
  have hm := (h.pair hbc).1
  have number : ∀ stem, (p.left.builder b).nextNumber stem =
      (p.right.builder c).nextNumber stem := by
    intro stem
    unfold Builder.nextNumber
    rw [hm.nodes.keys_eq, hm.nodes.length_eq, hm.counters]
  unfold generateId at hl hr ⊢
  refine .get_bind ?_
  dsimp only at hl hr ⊢
  rw [hm.settings, number]
  rw [run_get_bind, hm.settings, number] at hl
  refine (simulates_change (Q := fun _ => True) ?_ ?_ ?_ trivial).bind
    fun q _ _ _ hq _ => .pure hq rfl
  · exact p.left.grows_modifyBuilder _ fun _ => ⟨rfl, rfl, rfl⟩
  · exact p.right.grows_modifyBuilder _ fun _ => ⟨rfl, rfl, rfl⟩
  · exact h.modifyBuilder hl hr (.inl hbc) (fun _ => ⟨rfl, rfl, rfl⟩) (fun _ => ⟨rfl, rfl, rfl⟩)
      ⟨fun _ => rfl, fun _ => rfl⟩
      (fun _ hm => { hm with counters := congrArg (Dictionary.insert _ _) hm.counters })
      fun ho top => (h.outerBuilder ho).parameters top

omit hbc in
/-- Nodes that match stand for each other from now on. -/
theorem simulates_newNode {x y : Node} (hxy : Comparison.NodeMatch p.matching x y) :
    Simulates C.building p (newNode x) (newNode y)
      fun q n m => q.matching (.node n) (.node m) := by
  obtain ⟨dA, dB⟩ := h.nodeOk hxy.arguments
  have owner : x.builder.index < p.left.builders.size ∧
      y.builder.index < p.right.builders.size := h.within hxy.builder
  have hl : C.left.Holds { p.left with nodes := p.left.nodes.push x } :=
    ⟨h.left.start, h.left.wellFormed.newNode ⟨owner.1, dA⟩, h.left.kept.newNode _⟩
  have hr : C.right.Holds { p.right with nodes := p.right.nodes.push y } :=
    ⟨h.right.start, h.right.wellFormed.newNode ⟨owner.2, dB⟩, h.right.kept.newNode _⟩
  exact ⟨_, ⟨Matching.grows_add _ (by rintro _ ⟨⟩), p.left.grows_newNode x,
    p.right.grows_newNode y⟩, h.newNode hl hr hxy, .ok (Matching.add_self ..)⟩

theorem simulates_makeNode (process : String) {v w : Value}
    (hvw : Value.Related p.matching v w) (description : Value) (space : Option String) :
    Simulates C.building p (makeNode b process v description space)
      (makeNode c process w description space) fun q n m => q.matching (.node n) (.node m) := by
  unfold makeNode
  refine .get_bind ?_
  dsimp only
  rw [h.catalogOf_eq (.inl hbc)]
  cases (p.right.catalogOf c).get? process space with
  | none => exact .throw h
  | some spec =>
    refine (simulates_ofExcept h (spec.bindArguments_related hvw)).bind
      fun q d e _ hq ⟨same, hde⟩ => ?_
    subst same
    refine (simulates_generateId hq hbc process).bind fun r id _ l₁ h₁ e₁ => .get_bind ?_
    subst e₁
    have hbc₁ := l₁.1.le _ _ hbc
    have hde₁ := Value.related_entries_mono l₁.1.le hde
    obtain ⟨dA, dB⟩ := h₁.nodeOk hde₁
    have found := h₁.discover hde₁ (fun r hr => (dA r hr).2) fun s hs => (dB s hs).2
    refine (simulates_declareAll h₁ hbc₁ found).bind fun t _ _ l₂ h₂ _ => ?_
    exact simulates_newNode h₂ ⟨l₂.1.le _ _ hbc₁, rfl, rfl, rfl,
      Value.related_entries_mono l₂.1.le hde₁, rfl, rfl, rfl⟩

theorem simulates_register {n m : NodeRef} (hnm : p.matching (.node n) (.node m))
    (hn : C.left.base.NewNode n ∧ (p.left.node n).builder = b ∧
      (p.left.builder b).Precedes (p.left.node n).id n)
    (hm : C.right.base.NewNode m ∧ (p.right.node m).builder = c ∧
      (p.right.builder c).Precedes (p.right.node m).id m) :
    Simulates C.building p (register b n) (register c m) fun _ _ _ => True := by
  obtain ⟨oA, oB⟩ := isOpen h hbc
  obtain ⟨inA, inB⟩ := h.within hnm
  have hl := (ensures_insertNode h.left oA rfl inA hn.1 hn.2.1 hn.2.2).1
  have hr := (ensures_insertNode h.right oB rfl inB hm.1 hm.2.1 hm.2.2).1
  have id := (h.pair hnm).id
  unfold register
  refine .get_bind ((simulates_change (Q := fun _ => True) ?_ ?_ ?_ trivial).bind
    fun q _ _ _ hq _ => simulates_log hq _ _)
  · exact p.left.grows_modifyBuilder _ fun _ => ⟨rfl, rfl, rfl⟩
  · exact p.right.grows_modifyBuilder _ fun _ => ⟨rfl, rfl, rfl⟩
  · refine h.modifyBuilder hl hr (.inl hbc) (fun _ => ⟨rfl, rfl, rfl⟩) (fun _ => ⟨rfl, rfl, rfl⟩)
      ⟨fun _ => rfl, fun _ => rfl⟩ (fun _ hm => { hm with nodes := ?_ })
      fun ho top => (h.outerBuilder ho).parameters top
    rw [id]
    exact hm.nodes.insert _ hnm

theorem simulates_invoke (process : String) {v w : Value} (hvw : Value.Related p.matching v w)
    (description : Value) (space : Option String) :
    Simulates C.building p (invoke b process v description space)
      (invoke c process w description space) fun q n m => q.matching (.node n) (.node m) := by
  obtain ⟨oA, oB⟩ := isOpen h hbc
  obtain ⟨inA, inB⟩ := h.value_within hvw
  have eA := ensures_makeNode h.left oA (callKey process space).1 inA description
    (callKey process space).2
  have eB := ensures_makeNode h.right oB (callKey process space).1 inB description
    (callKey process space).2
  rw [invoke_eq, invoke_eq]
  refine (simulates_and_ensures (simulates_makeNode h hbc _ hvw description _) eA eB).bind
    fun q n m l hq ⟨hnm, ⟨isA, _, _, _, idA⟩, ⟨isB, _, _, _, idB⟩⟩ => ?_
  refine (simulates_register hq (l.1.le _ _ hbc) hnm ?_ ?_).bind
    fun r _ _ l' hr _ => .pure hr (l'.1.le _ _ hnm)
  · exact ⟨Nat.le_trans h.left.kept.nodes isA.new, isA.builder, idA⟩
  · exact ⟨Nat.le_trans h.right.kept.nodes isB.new, isB.builder, idB⟩

/-- Arguments by name replace those by position on both sides. -/
theorem simulates_callShortcut (process : String) (spec : Specification) {vs ws : List Value}
    (hvs : List.Forall₂ (Value.Related p.matching) vs ws) {d e : Value.Entries}
    (hde : Dictionary.Match (Value.Related p.matching) d e) :
    Simulates C.building p (callShortcut b process spec vs d) (callShortcut c process spec ws e)
      fun q n m => q.matching (.node n) (.node m) := by
  unfold callShortcut
  refine .ite ?_ (fun _ => simulates_invoke h hbc process (.list hvs) _ _) fun _ => ?_
  · cases hde with
    | nil => exact Iff.rfl
    | cons => exact iff_of_false nofun nofun
  · refine (simulates_ofExcept h (spec.bind_related hvs)).bind fun q x y _ hq ⟨same, hxy⟩ => ?_
    subst same
    exact simulates_invoke hq hbc process (.dict (hxy.insertAll hde)) _ _

end

end Build

/-! ## Elements -/

/-- A plain key does not depend on the names of objects. -/
theorem ElementKey.ofValue_scalar (f g : Value → String) (key : Scalar) :
    ofValue f key.toValue = ofValue g key.toValue := by
  cases key <;> simp only [Scalar.toValue, ofValue, Value.display, Value.literal]

namespace Build

section
variable {C : Comparison} {p : Stage Workspace Workspace} (h : C.building.holds p)
  {a d : AccessRef} (had : p.matching (.access a) (.access d))
include h had

/-- A remembered element is remembered on both sides, and so is a new one. -/
theorem simulates_element (key : ElementKey) :
    Simulates C.building p (element a key) (element d key)
      fun q n m => q.matching (.node n) (.node m) := by
  have hm := h.pair had
  obtain ⟨ha, hd⟩ := h.within had
  obtain ⟨oA, oB⟩ := isOpen h hm.builder
  have sameSettings := (h.pair hm.builder).1.settings
  unfold element
  refine .get_bind ?_
  dsimp only
  rcases hm.elements.get? key with ⟨eA, eB⟩ | ⟨n, m, eA, eB, hnm⟩
  · rw [eA, eB, sameSettings]
    have given : Value.Related p.matching
        (.object [("data", .parameter (p.left.access a).parameter), (key.argument, key.toValue)])
        (.object [("data", .parameter (p.right.access d).parameter),
          (key.argument, key.toValue)]) :=
      .dict (.cons _ (.parameter hm.parameter)
        (.cons _ (.of_refs_eq_nil key.refs_toValue) .nil))
    obtain ⟨wA, wB⟩ := h.value_within given
    have cA := ensures_invoke h.left oA
      (p.right.builder (p.right.access d).builder).settings.arrayElementProcess wA .null none
    have cB := ensures_invoke h.right oB
      (p.right.builder (p.right.access d).builder).settings.arrayElementProcess wB .null none
    refine (simulates_and_ensures (simulates_invoke h hm.builder _ given _ _) cA cB).bind
      fun q n m l hq ⟨hnm, ⟨isA, sameA, _, _, regA⟩, isB, sameB, _, _, regB⟩ => ?_
    have accessA := sameA a ha
    have accessB := sameB d hd
    have elementA : q.left.IsElement (q.left.access a) key n := by
      rw [accessA]
      refine ⟨isA.within, ?_, (Except.ok.inj isA.arguments).symm, regA⟩
      rw [(l.2.1.builder _ oA.within).2.1, sameSettings]
      exact isA.process
    have elementB : q.right.IsElement (q.right.access d) key m := by
      rw [accessB]
      refine ⟨isB.within, ?_, (Except.ok.inj isB.arguments).symm, regB⟩
      rw [(l.2.2.builder _ oB.within).2.1]
      exact isB.process
    have hl := (ensures_remember hq.left (Nat.lt_of_lt_of_le ha l.2.1.accesses)
      (accessA ▸ oA.content) elementA (Nat.le_trans h.left.kept.nodes isA.new)
      (accessA.symm ▸ eA)).1
    have hr := (ensures_remember hq.right (Nat.lt_of_lt_of_le hd l.2.2.accesses)
      (accessB ▸ oB.content) elementB (Nat.le_trans h.right.kept.nodes isB.new)
      (accessB.symm ▸ eB)).1
    refine (simulates_change (Q := fun r => r.matching (.node n) (.node m)) ?_ ?_ ?_ hnm).bind
      fun r _ _ _ hr hnm => .get_bind ?_
    · exact q.left.grows_modifyAccess a fun _ => ⟨rfl, rfl⟩
    · exact q.right.grows_modifyAccess d fun _ => ⟨rfl, rfl⟩
    · exact hq.modifyAccess hl hr (l.1.le _ _ had) (fun _ => ⟨rfl, rfl⟩) (fun _ => ⟨rfl, rfl⟩)
        fun hm => { hm with elements := hm.elements.insert key hnm }
    · exact (simulates_log hr _ _).bind fun t _ _ l' ht _ => .pure ht (l'.1.le _ _ hnm)
  · rw [eA, eB]
    exact .pure h hnm

/-- The key of an element is the same on both sides if it is plain. -/
theorem simulates_elementAt (key : Scalar) :
    Simulates C.building p (elementAt a key.toValue) (elementAt d key.toValue)
      fun q n m => q.matching (.node n) (.node m) := by
  unfold elementAt
  refine .get_bind ?_
  rw [ElementKey.ofValue_scalar _ p.right.objectName]
  refine (simulates_ofExcept (Q := Eq) h (.refl fun _ _ => rfl)).bind fun q k _ _ hq ⟨e, e'⟩ => ?_
  subst e e'
  exact simulates_element hq had k

end

end Build

end ProcessGraph
