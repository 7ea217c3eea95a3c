import ProcessGraph.Graph.Shortcut
import ProcessGraph.Proofs.Graph.SimulatedRollBack

/-!
# Undone blocks

`ws.Block b now`: operations on the builder `b`, one after the other and in nested blocks that may
have been undone, lead from `ws` to `now`. A block that is undone restores every builder that was
there (`Block.restores`): nodes, counters and parameters are those from before, and nothing is left
in callback parameters. What is left behind otherwise are objects that nobody can reach, so that the
workspaces before the block and after it match (`Restores.matches_start`): the rolled back one may only
have callback parameters that are made anew otherwise.
-/

set_option autoImplicit false

namespace ProcessGraph

/-! ## Objects of an earlier workspace -/

/-- The object exists, or it is one of the given functions. -/
def Ref.Known (ws : Workspace) (functions : Nat → Prop) : Ref → Prop
  | callback f => functions f
  | r => r.Within ws

theorem Ref.Known.within {ws : Workspace} {functions : Nat → Prop} {r : Ref}
    (h : r.Known ws functions) : r.Within ws := by
  cases r with
  | callback f => trivial
  | _ => exact h

/-- An object that is no function is known if it exists. -/
theorem Ref.Within.known {ws : Workspace} {functions : Nat → Prop} {r : Ref} (h : r.Within ws)
    (hf : ∀ f, r = .callback f → functions f) : r.Known ws functions := by
  cases r with
  | callback f => exact hf f rfl
  | _ => exact h

/-- What was there stands for itself. -/
def Matching.old (ws : Workspace) (functions : Nat → Prop) : Matching :=
  fun r s => r = s ∧ r.Known ws functions

/-- A workspace with the same catalogs and the same table of names, in which nothing has been
built. -/
def Workspace.vacant (ws : Workspace) : Workspace :=
  { catalogs := ws.catalogs, callbackNames := ws.callbackNames }

theorem Workspace.extends_vacant {ws : Workspace} (wf : ws.WellFormed) (S P : BuilderRef → Prop) :
    ws.vacant.Extends S P ws := by
  have nothing {P : Prop} {i : Nat} (h : i < 0) : P := absurd h (Nat.not_lt_zero i)
  refine ⟨⟨fun _ => nothing, fun _ => nothing, fun _ => nothing, fun _ _ => nothing⟩, wf, ?_⟩
  exact {
    nodes := Nat.zero_le _, parameters := Nat.zero_le _, accesses := Nat.zero_le _
    builders := Nat.zero_le _, formulas := Nat.zero_le _
    node := fun _ => nothing, parameter := fun _ => nothing, access := fun _ => nothing
    builder := fun _ => nothing, formula := fun _ => nothing
    catalogs := rfl, callbackNames := rfl
    flags := fun _ => nothing, content := fun _ => nothing, elements := fun _ => nothing
    newAccess := fun _ _ _ _ _ => Nat.zero_le _ }

/-- Two runs without an outer part, which keep what was said about the nodes and builders of some
workspaces. -/
def Comparison.alone (left right : Workspace) : Comparison where
  left := ⟨left, fun _ => True, fun _ => True, fun _ => id⟩
  right := ⟨right, fun _ => True, fun _ => True, fun _ => id⟩
  outerBuilder _ _ := False
  outerNode _ _ := False
  admits _ := True
  named _ := trivial
  parameters _ p q := p = q
  declare := by
    rintro _ p _ declaration rfl -
    exact .refl fun _ _ => rfl

namespace Workspace

/-- An operation on a builder, or a declaration on its root, whether it fails or not. -/
inductive OwnOperation (b : BuilderRef) (ws : Workspace) : Workspace → Prop where
  | newParameter (p : Parameter) : OwnOperation b ws ((Build.newParameter p).run ws).2
  | createFormula (text : String) : OwnOperation b ws ((Build.createFormula text).run ws).2
  | callbackParameter (name : Value) :
      OwnOperation b ws ((Build.callbackParameter b name).run ws).2
  | parentParameters : OwnOperation b ws ((Build.parentParameters b).run ws).2
  | invoke (process : String) {arguments : Value} (hv : arguments.Within ws) (description : Value)
      (space : Option String) :
      OwnOperation b ws ((Build.invoke b process arguments description space).run ws).2
  | shortcut (process : String) (spec : Specification) {arguments : List Value}
      (hv : ∀ v ∈ arguments, v.Within ws) {named : Value.Entries}
      (hnamed : Value.EntriesWithin ws named) :
      OwnOperation b ws ((Build.callShortcut b process spec arguments named).run ws).2
  | math (text : String) : OwnOperation b ws ((Build.math b text).run ws).2
  | element {a : AccessRef} (ha : a.index < ws.accesses.size) (own : (ws.access a).builder = b)
      (key : Value) : OwnOperation b ws ((Build.elementAt a key).run ws).2
  | generateId (name : String) : OwnOperation b ws ((Build.generateId b name).run ws).2
  | addParameter (declaration : Value.Entries) :
      OwnOperation b ws ((Build.addParameter b declaration).run ws).2
  | addRootParameter (declaration : Value.Entries) :
      OwnOperation b ws ((Build.addParameter (ws.root b) declaration).run ws).2

inductive Block (b : BuilderRef) : Workspace → Workspace → Prop where
  | refl (ws : Workspace) : Block b ws ws
  | operation {ws now after : Workspace} (h : Block b ws now) (op : now.OwnOperation b after) :
      Block b ws after
  /-- A nested block that began in `before` and failed in `now`. -/
  | rollBack {ws before now : Workspace} (h : Block b ws before) (h' : Block b before now) :
      Block b ws (before.rollBack b now)

section
variable {S P : BuilderRef → Prop} {base ws now : Workspace} {b : BuilderRef}

theorem OwnOperation.keeps (op : ws.OwnOperation b now) (h : base.Extends S P ws)
    (hb : Open S P base ws b) : base.Extends S P now ∧ ws.Grows now := by
  have of : ∀ {α : Type} {step : Build α} {Q : α → Workspace → Prop},
      Build.Ensures (base.Extends S P) ws step Q →
      base.Extends S P (step.run ws).2 ∧ ws.Grows (step.run ws).2 := fun h => ⟨h.1, h.2.1⟩
  cases op with
  | newParameter p => exact of (Build.ensures_newParameter h p)
  | createFormula text => exact of (Build.ensures_createFormula h text)
  | callbackParameter name => exact of (Build.ensures_callbackParameter h hb.within name)
  | parentParameters => exact of (Build.ensures_parentParameters h hb.within)
  | invoke process hv description space =>
    exact of (Build.ensures_invoke h hb process hv description space)
  | shortcut process spec hv hnamed =>
    exact of (Build.ensures_callShortcut h hb process spec hv hnamed)
  | math text => exact of (Build.ensures_compile h hb text false nofun)
  | element ha own key =>
    subst own
    exact of (Build.ensures_elementAt h ha hb key)
  | generateId name => exact of (Build.ensures_generateId h hb name)
  | addParameter declaration =>
    exact of (Build.ensures_addParameter h hb.within declaration true hb.declared)
  | addRootParameter declaration =>
    refine of (Build.ensures_addParameter h (h.wellFormed.root_lt hb.within) declaration true ?_)
    exact (h.wellFormed.root_root hb.within).symm ▸ hb.declared

theorem Block.keeps (block : ws.Block b now) (h : base.Extends S P ws)
    (hb : Open S P base ws b) : base.Extends S P now ∧ ws.Grows now := by
  induction block with
  | refl ws => exact ⟨h, .refl ws⟩
  | operation _ op ih =>
    obtain ⟨h₁, g₁⟩ := ih h hb
    obtain ⟨h₂, g₂⟩ := op.keeps h₁ (hb.grow h.wellFormed g₁)
    exact ⟨h₂, g₁.trans g₂⟩
  | rollBack _ _ ih ih' =>
    obtain ⟨h₁, g₁⟩ := ih h hb
    have hb₁ := hb.grow h.wellFormed g₁
    obtain ⟨h₂, g₂⟩ := ih' h₁ hb₁
    exact ⟨h₁.rollBack h₂ g₂ hb₁,
      g₁.trans (g₂.trans (grows_rollBack h₁.wellFormed g₂ hb₁.within))⟩

end

/-! ## What an undone block restores -/

/-- Every builder is as it was, apart from new callback parameters. -/
structure Restores (ws now : Workspace) : Prop extends
    ws.Extends (fun _ => True) (fun _ => True) now where
  builder : ∀ b : BuilderRef, b.index < ws.builders.size →
    (now.builder b).nodes = (ws.builder b).nodes ∧
    (now.builder b).counters = (ws.builder b).counters ∧
    (now.builder b).metadata.parameters = (ws.builder b).metadata.parameters

section
variable {ws now : Workspace} {b : BuilderRef}

theorem Block.restores (block : ws.Block b now) (h : ws.WellFormed)
    (hb : b.index < ws.builders.size) : ws.Restores (ws.rollBack b now) := by
  have all : Open (fun _ => True) (fun _ => True) ws ws b := ⟨hb, .inl trivial, .inl trivial⟩
  obtain ⟨extends₁, g⟩ := block.keeps (h.extends _ _) all
  refine ⟨(h.extends _ _).rollBack extends₁ g all, fun c hc => ?_⟩
  -- Only the builder itself and its root can have changed.
  have own : Open (· = b) (· = ws.root b) ws ws b := ⟨hb, .inl rfl, .inl rfl⟩
  have kept := (block.keeps (h.extends _ _) own).1.kept.content c hc
  rw [builder_rollBack (Nat.lt_of_lt_of_le hb g.builders)
    (Nat.lt_of_lt_of_le (h.root_lt hb) g.builders), restored_nodes, restored_counters,
    restored_parameters]
  refine ⟨?_, ?_, ?_⟩
  · split
    · subst c
      rfl
    · exact (kept.untouched.resolve_left ‹_›).1
  · split
    · subst c
      rfl
    · exact (kept.untouched.resolve_left ‹_›).2
  · split
    · subst c
      rfl
    · exact kept.parameters.resolve_left ‹_›

namespace Restores

variable (h : ws.Restores now)
include h

/-- An element is a registered node, and those are old. -/
theorem not_newNode {a : AccessRef} (ha : a.index < now.accesses.size)
    (hb : (now.access a).builder.index < ws.builders.size) {k : ElementKey} {n : NodeRef}
    (hn : (k, n) ∈ (now.access a).elements) : ¬ ws.NewNode n := by
  have registered := ((h.wellFormed.access a ha).elements k n hn).registered
  rw [(h.builder _ hb).1] at registered
  exact Nat.not_le.2
    ((h.start.builder _ hb).nodes _ n (Dictionary.mem_of_get? registered)).1

theorem elements_eq {a : AccessRef} (ha : a.index < ws.accesses.size) :
    (now.access a).elements = (ws.access a).elements := by
  obtain ⟨more, e, new⟩ := (h.kept.elements a ha).elements
  cases more with
  | nil => rw [e, List.append_nil]
  | cons p more =>
    refine absurd (new p List.mem_cons_self) (h.not_newNode
      (Nat.lt_of_lt_of_le ha h.kept.accesses) ?_ (e ▸ List.mem_append_right _ List.mem_cons_self))
    rw [(h.kept.access a ha).2]
    exact (h.start.access a ha).builder

/-- A new callback parameter of an old builder has no elements. -/
theorem elements_new {a : AccessRef} (ha : a.index < now.accesses.size) (new : ws.NewAccess a)
    (hb : (now.access a).builder.index < ws.builders.size) : (now.access a).elements = [] :=
  List.eq_nil_iff_forall_not_mem.2 fun p hp =>
    h.not_newNode ha hb (k := p.1) (n := p.2) hp (h.kept.newAccess a new ha p hp)

theorem metadata_eq (hb : b.index < ws.builders.size) :
    (now.builder b).metadata = (ws.builder b).metadata :=
  Metadata.eq_of_parameters_eq (h.kept.content b hb).metadata (h.builder b hb).2.2

/-- Callback parameters that were made in the block are spare. -/
theorem callbackParameters_match (hb : b.index < ws.builders.size) {R : Matching}
    (old : ∀ a c, R (.access a) (.access c) → a.index < ws.accesses.size)
    (refl : ∀ a : AccessRef, a.index < ws.accesses.size → R (.access a) (.access a)) :
    Comparison.CallbackParametersMatch R now ws b b := by
  intro k
  obtain ⟨more, e, new⟩ := (h.kept.content b hb).callbackParameters
  cases hd : Dictionary.get? k (ws.builder b).callbackParameters with
  | some d =>
    refine ⟨d, e ▸ Dictionary.get?_append_of_eq_some hd more, refl d ?_⟩
    exact ((h.start.builder b hb).callbackParameters k d (Dictionary.mem_of_get? hd)).1
  | none =>
    intro a ha
    have hmem := Dictionary.mem_of_get? ha
    obtain ⟨hlt, own, -⟩ := (h.wellFormed.builder b (Nat.lt_of_lt_of_le hb h.kept.builders)
      ).callbackParameters k a hmem
    have fresh : ws.NewAccess a := by
      rw [e] at hmem
      refine (List.mem_append.1 hmem).elim (fun hold => ?_) (new _)
      exact absurd (Dictionary.get?_isSome_iff.2 (List.mem_map.2 ⟨_, hold, rfl⟩)) (by simp [hd])
    exact ⟨h.elements_new hlt fresh (own ▸ hb),
      fun c hac => absurd (old a c hac) (Nat.not_lt.2 fresh)⟩

/-- The builders match, with those above them and their nodes. -/
theorem builder_match {functions : Nat → Prop} {base base' : Workspace}
    (hb : b.index < ws.builders.size) :
    (Comparison.alone base base').BuilderMatch (.old ws functions) (now.builder b)
      (ws.builder b) := by
  have ok := h.start.builder b hb
  have kept := h.kept.content b hb
  obtain ⟨parent, settings, catalog⟩ := h.kept.builder b hb
  refine ⟨catalog, settings, ?_, ?_, kept.parentParameter, ?_, (h.builder b hb).2.1,
    h.metadata_eq hb⟩
  · rw [parent]
    cases hp : (ws.builder b).parent with
    | none => exact .none
    | some p => exact .some (.inl ⟨rfl, Nat.lt_trans (ok.parent p hp) hb⟩)
  · rw [kept.parentNode]
    cases hn : (ws.builder b).parentNode with
    | none => exact .none
    | some n => exact .some (.inl ⟨rfl, ok.parentNode n hn⟩)
  · rw [(h.builder b hb).1]
    exact .refl fun p hp => ⟨rfl, (ok.nodes p.1 p.2 hp).1⟩

theorem node_match {functions : Nat → Prop} {n : NodeRef} (hn : n.index < ws.nodes.size)
    (hf : ∀ f, .callback f ∈ Value.refsInEntries (ws.node n).arguments → functions f) :
    Comparison.NodeMatch (.old ws functions) (now.node n) (ws.node n) := by
  have ok := h.start.node n hn
  have same := h.kept.node n hn
  refine ⟨⟨congrArg Ref.builder same.builder, ?_⟩, same.specification, same.process, same.space, ?_,
    same.id, (h.kept.flags n hn).1, (h.kept.flags n hn).2⟩
  · rw [same.builder]
    exact ok.owner
  · rw [same.arguments]
    exact Value.related_entries_refl _ fun r hr =>
      ⟨rfl, (ok.arguments r hr).1.known fun f e => hf f (e ▸ hr)⟩

/-- The workspaces before a block and after it was undone cannot be told apart by anyone who holds
on to what was there before. -/
theorem matches_start {functions : Nat → Prop} {base base' : Workspace}
    (left : base.Extends (fun _ => True) (fun _ => True) now)
    (right : base'.Extends (fun _ => True) (fun _ => True) ws)
    (hf : ∀ n : NodeRef, n.index < ws.nodes.size →
      ∀ f, .callback f ∈ Value.refsInEntries (ws.node n).arguments → functions f) :
    (Comparison.alone base base').Matches (.old ws functions) now ws where
  left := left
  right := right
  catalogs := h.kept.catalogs
  callbackNames := h.kept.callbackNames
  within := by
    rintro r _ ⟨rfl, hr⟩
    exact ⟨h.kept.toGrows.within hr.within, hr.within⟩
  pair := by
    rintro r _ ⟨rfl, hr⟩
    cases r with
    | node n => exact h.node_match hr (hf n hr)
    | parameter p => exact ⟨h.kept.parameter p hr, fun _ => trivial⟩
    | access a =>
      have ok := h.start.access a hr
      obtain ⟨parameter, builder⟩ := h.kept.access a hr
      refine ⟨⟨congrArg Ref.parameter parameter, ?_⟩, ⟨congrArg Ref.builder builder, ?_⟩, ?_⟩
      · rw [parameter]
        exact ok.parameter
      · rw [builder]
        exact ok.builder
      · rw [h.elements_eq hr]
        exact .refl fun p hp => ⟨rfl, (ok.elements p.1 p.2 hp).within⟩
    | builder b =>
      exact ⟨h.builder_match hr, ⟨Nat.lt_of_lt_of_le hr h.kept.builders, .inl trivial,
        .inl trivial⟩, ⟨hr, .inl trivial, .inl trivial⟩⟩
    | formula f => exact h.kept.formula f hr
    | callback f => trivial
  callbackParameters := by
    rintro b _ ⟨e, hb⟩
    cases e
    exact h.callbackParameters_match hb (fun _ _ hac => hac.2) fun _ ha => ⟨rfl, ha⟩
  outerBuilder := False.elim
  outerNode := False.elim
  uniqueNode := by
    rintro n _ n' _ ⟨e, -⟩ ⟨e', -⟩
    cases e
    cases e'
    rfl
  uniqueAccess := by
    rintro a _ a' _ ⟨e, -⟩ ⟨e', -⟩
    cases e
    cases e'
    rfl
  uniqueBuilder := by
    rintro b _ b' _ (⟨e, -⟩ | ⟨⟨⟩⟩) (⟨e', -⟩ | ⟨⟨⟩⟩)
    cases e
    cases e'
    rfl
  apart _ := id

end Restores

end

end Workspace

end ProcessGraph
