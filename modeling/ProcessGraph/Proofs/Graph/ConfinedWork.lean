import ProcessGraph.Proofs.Graph.Blocks
import ProcessGraph.Proofs.Graph.FormulaGraphs
import ProcessGraph.Proofs.Graph.RememberedBuilders
import ProcessGraph.Proofs.Graph.Scope
import ProcessGraph.Proofs.Graph.SimulatedRollBack

/-!
# Work that is confined to a builder

`ws.Confined content root b now`: between `ws` and `now` the builders that were there before the
builder `b` have got nothing, apart from parameters of the root; neither has `b` itself, unless it
is its turn to be filled (`content`). No node has forgotten the builders of its callback arguments,
but for those of `b`.

Operations inside of a builder (`InnerOperation`) are of this kind, and so is all that is done in
the builder of a callback argument (`Confined.ofChild`).
-/

set_option autoImplicit false

namespace ProcessGraph

namespace Workspace

/-- A builder whose outermost builder is the root. -/
structure Under (ws : Workspace) (root b : BuilderRef) : Prop where
  within : b.index < ws.builders.size
  root : ws.root b = root

structure Confined (content : Prop) (root b : BuilderRef) (ws now : Workspace) : Prop extends
    ws.Appends now where
  keeps : ∀ base : Workspace, base.Extends (fun _ => False) (· = root) ws →
    (content → base.builders.size ≤ b.index) → base.Extends (fun _ => False) (· = root) now
  remembers : ∀ n : NodeRef, n.index < ws.nodes.size → (ws.node n).builder ≠ b →
    (now.node n).callbackBuilders = (ws.node n).callbackBuilders

variable {content : Prop} {root b c : BuilderRef} {base ws now after before : Workspace}

theorem Under.grow (h : ws.Under root b) (wf : ws.WellFormed) (g : ws.Grows now) :
    now.Under root b :=
  ⟨Nat.lt_of_lt_of_le h.within g.builders, (wf.root_eq g h.within).trans h.root⟩

/-- A builder that was not there may be filled. -/
theorem Under.opened (h : ws.Under root b) (new : base.builders.size ≤ b.index) :
    Open (fun _ => False) (· = root) base ws b := ⟨h.within, .inr new, .inl h.root⟩

namespace Confined

theorem refl (wf : ws.WellFormed) : Confined content root b ws ws where
  toAppends := wf.appends
  keeps _ h _ := h
  remembers _ _ _ := rfl

theorem trans (h : Confined content root b ws now) (h' : Confined content root b now after) :
    Confined content root b ws after where
  toAppends := h.toAppends.trans h'.toAppends
  keeps base hb new := h'.keeps base (h.keeps base hb new) new
  remembers n hn other := (h'.remembers n (Nat.lt_of_lt_of_le hn h.grows.nodes)
    ((h.grows.node n hn).builder ▸ other)).trans (h.remembers n hn other)

theorem weaken (h : Confined False root b ws now) : Confined content root b ws now :=
  { h with keeps := fun base hb _ => h.keeps base hb nofun }

/-- A step on one builder. -/
theorem ofSteps (wf : ws.WellFormed) (steps : ws.Steps now)
    (keeps : ∀ base : Workspace, base.Extends (fun _ => False) (· = root) ws →
      base.builders.size ≤ b.index → base.Extends (fun _ => False) (· = root) now)
    (remembers : ws.Remembers now) : Confined True root b ws now where
  toAppends := steps.appends wf
  keeps base hb new := keeps base hb (new trivial)
  remembers n hn _ := remembers.same n hn

theorem rollBack (h : Confined True root b ws before) (h' : Confined True root b before now)
    (hb : before.Under root b) : Confined True root b ws (before.rollBack b now) where
  toAppends := h.toAppends.rollBack h'.toAppends hb.within
  keeps base hbase new :=
    have first := h.keeps base hbase new
    first.rollBack (h'.keeps base first new) h'.grows (hb.opened (new trivial))
  remembers n hn other := by
    rw [node_rollBack]
    exact (h.trans h').remembers n hn other

end Confined

/-! ## New children -/

section
variable (wf : ws.WellFormed) {n : NodeRef} (hn : n.index < ws.nodes.size) (argument : Scalar)
include wf hn

theorem Steps.withChild : ws.Steps (ws.withChild n argument) :=
  .operation (.operation (.refl ws) (.createChild (wf.node n hn).owner hn argument))
    (.setCallbackBuilder n argument ⟨ws.builders.size⟩)

theorem Extends.withChild {S P : BuilderRef → Prop} (h : base.Extends S P ws) :
    base.Extends S P (ws.withChild n argument) where
  start := h.start
  wellFormed := ((Steps.withChild wf hn argument).appends wf).wellFormed
  kept := (h.kept.newBuilder (ws.newChild n argument)).modifyNode n
    (fun _ => ⟨rfl, rfl, rfl, rfl, rfl, rfl⟩) (.inr fun _ => ⟨rfl, rfl⟩)

omit hn in
/-- A new child has the root of the builder of its node. -/
theorem Under.child (h : ws.Under root (ws.node n).builder) (hn : n.index < ws.nodes.size) :
    (ws.withChild n argument).Under root ⟨ws.builders.size⟩ := by
  have appends := (Steps.withChild wf hn argument).appends wf
  have within : ws.builders.size < (ws.withChild n argument).builders.size := by
    show ws.builders.size < (ws.builders.push _).size
    simp
  refine ⟨within, ?_⟩
  rw [appends.wellFormed.root_of_some (b := ⟨ws.builders.size⟩) within
    (congrArg Builder.parent (ws.builder_withChild_self n argument)),
    wf.root_eq appends.grows h.within]
  exact h.root

/-- What is done in the builder of a callback argument is confined to the builder of the node. -/
theorem Confined.ofChild (own : (ws.node n).builder = b)
    (h : Confined True root ⟨ws.builders.size⟩ (ws.withChild n argument) now) :
    Confined False root b ws now where
  toAppends := ((Steps.withChild wf hn argument).appends wf).trans h.toAppends
  keeps base hbase _ := h.keeps base (.withChild wf hn argument hbase) fun _ => hbase.kept.builders
  remembers m hm other := by
    have hm' : m.index < (ws.withChild n argument).nodes.size := by
      unfold withChild
      simpa using hm
    have same := ((Steps.withChild wf hn argument).appends wf).grows.node m hm
    rw [h.remembers m hm' fun e => ?_, callbackBuilders_withChild argument fun e => ?_]
    · exact other (e ▸ own)
    · have old := (wf.node m hm).owner
      rw [← same.builder, e] at old
      exact Nat.lt_irrefl _ old

end

/-! ## Operations inside of a builder -/

/-- An operation on a builder that was made for a callback argument, or on what belongs to it. -/
inductive InnerOperation (b : BuilderRef) (ws : Workspace) : Workspace → Prop where
  | own {now : Workspace} (op : ws.OwnOperation b now) : InnerOperation b ws now
  | records (log : List Log.Record) (warnings : List String) :
      InnerOperation b ws { ws with log, warnings }
  | declareHere (declaration : Value.Entries) :
      InnerOperation b ws ((Build.addParameter b declaration false).run ws).2
  | createChild {n : NodeRef} (hn : n.index < ws.nodes.size) (argument : Scalar) :
      InnerOperation b ws ((Build.createChild b n argument).run ws).2
  | compile (text : String) (asResult : Bool) :
      InnerOperation b ws ((Build.compile b text asResult).run ws).2
  | setFormulaBuilder (f : FormulaRef) :
      InnerOperation b ws ((Build.setFormulaBuilder f b).run ws).2
  | generate {f : FormulaRef} (hf : (ws.formula f).builder = some b) (asResult : Bool) :
      InnerOperation b ws ((Build.generate f asResult).run ws).2
  | setMetadata (name : String) (v : Value) :
      InnerOperation b ws (ws.modifyBuilder b fun builder =>
        { builder with metadata := builder.metadata.set name v })
  | setParent {n : NodeRef} (hn : n.index < ws.nodes.size) (argument : Scalar) :
      InnerOperation b ws ((Build.setParent b n argument).run ws).2
  | setResult {n : NodeRef} (own : (ws.node n).builder = b) (v : Value) :
      InnerOperation b ws ((Build.setResult n v).run ws).2
  | setDescription {n : NodeRef} (own : (ws.node n).builder = b) (description : Value) :
      InnerOperation b ws (ws.modifyNode n fun node => { node with description })

theorem OwnOperation.operation (op : ws.OwnOperation b now) (wf : ws.WellFormed)
    (hb : b.index < ws.builders.size) : ws.Operation now := by
  cases op with
  | newParameter p => exact .newParameter p
  | createFormula text => exact .createFormula text
  | callbackParameter name => exact .callbackParameter hb name
  | parentParameters => exact .parentParameters hb
  | invoke process hv description space => exact .invoke hb process hv description space
  | shortcut process spec hv hnamed => exact .shortcut hb process spec hv hnamed
  | math text => exact .compile hb text false
  | element ha _ key => exact .element ha key
  | generateId name => exact .generateId hb name
  | addParameter declaration => exact .addParameter hb declaration true
  | addRootParameter declaration => exact .addParameter (wf.root_lt hb) declaration true

theorem OwnOperation.remembers (op : ws.OwnOperation b now) : ws.Remembers now := by
  cases op with
  | newParameter p => exact Build.remembers_newParameter p ws
  | createFormula text => exact Build.remembers_createFormula text ws
  | callbackParameter name => exact Build.remembers_callbackParameter b name ws
  | parentParameters => exact Build.remembers_parentParameters b ws
  | invoke process _ description space =>
    exact Build.remembers_invoke b process _ description space ws
  | shortcut process spec => exact Build.remembers_callShortcut b process spec _ _ ws
  | math text => exact Build.remembers_compile b text false ws
  | element _ _ key => exact Build.remembers_elementAt _ key ws
  | generateId name => exact Build.remembers_generateId b name ws
  | addParameter declaration => exact Build.remembers_addParameter b declaration true ws
  | addRootParameter declaration => exact Build.remembers_addParameter _ declaration true ws

theorem InnerOperation.confined (op : ws.InnerOperation b now) (wf : ws.WellFormed)
    (hb : ws.Under root b) : Confined True root b ws now := by
  have single {now : Workspace} (op : ws.Operation now) : ws.Steps now := .operation (.refl ws) op
  cases op with
  | own op =>
    exact .ofSteps wf (single (op.operation wf hb.within))
      (fun base h new => (op.keeps h (hb.opened new)).1) op.remembers
  | records log warnings =>
    have op : ws.Operation _ := .records log warnings
    exact .ofSteps wf (single op)
      (fun _ h _ => ⟨h.start, (op.appends wf).wellFormed, { h.kept with }⟩)
      (.of_nodes_eq rfl)
  | declareHere declaration =>
    exact .ofSteps wf (single (.addParameter hb.within declaration false))
      (fun _ h new => (Build.ensures_addParameter h hb.within declaration false (.inr new)).1)
      (Build.remembers_addParameter b declaration false ws)
  | createChild hn argument =>
    have op : ws.Operation _ := .createChild hb.within hn argument
    exact .ofSteps wf (single op)
      (fun _ h _ => ⟨h.start, (op.appends wf).wellFormed, h.kept.newBuilder _⟩) (.of_nodes_eq rfl)
  | compile text asResult =>
    exact .ofSteps wf (single (.compile hb.within text asResult))
      (fun base h new => (Build.ensures_compile h (hb.opened new) text asResult fun _ => new).1)
      (Build.remembers_compile b text asResult ws)
  | setFormulaBuilder f =>
    exact .ofSteps wf (single (.setFormulaBuilder f hb.within))
      (fun base h _ => (Build.ensures_setFormulaBuilder h f b).1)
      (Build.remembers_setFormulaBuilder f b ws)
  | generate hf asResult =>
    refine .ofSteps wf (single (.generate _ (fun c hc => ?_) asResult))
      (fun base h new => (Build.ensures_generate h (hb.opened new) hf asResult fun _ => new).1)
      (Build.remembers_generate _ asResult ws)
    rw [hf] at hc
    exact Option.some.inj hc ▸ hb.within
  | setMetadata name v =>
    have op : ws.Operation _ := .setMetadata b name v
    refine .ofSteps wf (single op) (fun base h new => ?_) (.of_nodes_eq rfl)
    exact ⟨h.start, (op.appends wf).wellFormed, h.kept.modifyBuilder b (fun _ => ⟨rfl, rfl, rfl⟩)
      fun old => absurd old (Nat.not_lt.2 new)⟩
  | setParent hn argument =>
    have op : ws.Operation _ := .setParent b hn argument
    refine .ofSteps wf (single op) (fun base h new => ?_) (.of_nodes_eq rfl)
    exact ⟨h.start, (op.appends wf).wellFormed, h.kept.modifyBuilder b (fun _ => ⟨rfl, rfl, rfl⟩)
      fun old => absurd old (Nat.not_lt.2 new)⟩
  | setResult own v =>
    refine .ofSteps wf (single (.setResult _ v)) (fun base h new => ?_)
      (Build.remembers_setResult _ v ws)
    exact (Build.ensures_setResult h (Build.newNode_of_owner h (own ▸ new)) v).1
  | @setDescription n own description =>
    have op : ws.Operation _ := .setDescription n description
    refine .ofSteps wf (single op) (fun base h new => ?_) (.modifyNode ws n fun _ => rfl)
    exact ⟨h.start, (op.appends wf).wellFormed, h.kept.modifyNode n
      (fun _ => ⟨rfl, rfl, rfl, rfl, rfl, rfl⟩) (.inl (Build.newNode_of_owner h (own ▸ new)))⟩

/-- Whatever the nodes of the builder refer to in their arguments is of one kind. -/
def ArgumentsMeet (ws : Workspace) (b : BuilderRef) (P : Ref → Prop) : Prop :=
  ∀ p ∈ (ws.builder b).nodes, ∀ r ∈ Value.refsInEntries (ws.node p.2).arguments, P r

theorem ArgumentsMeet.of_nodes_eq {P : Ref → Prop} (h : ws.ArgumentsMeet b P) (wf : ws.WellFormed)
    (hb : b.index < ws.builders.size) (g : ws.Grows now)
    (same : (now.builder b).nodes = (ws.builder b).nodes) : now.ArgumentsMeet b P := by
  intro p hp r hr
  rw [same] at hp
  have old := ((wf.builder b hb).nodes p.1 p.2 hp).1
  exact h p hp r ((g.node p.2 old).arguments ▸ hr)

end Workspace

/-! ## Making callback parameters -/

/-- Builders may have got callback parameters, and nothing else. -/
def Workspace.SameContents (ws now : Workspace) : Prop :=
  ∀ c, now.builder c =
    { ws.builder c with callbackParameters := (now.builder c).callbackParameters }

namespace Workspace.SameContents

variable {ws now after : Workspace}

theorem refl (ws : Workspace) : ws.SameContents ws := fun _ => rfl

theorem trans (h : ws.SameContents now) (h' : now.SameContents after) : ws.SameContents after := by
  intro c
  rw [h' c, h c]

theorem withCallbackParameter (ws : Workspace) (b : BuilderRef) (key : Scalar) :
    ws.SameContents (ws.withCallbackParameter b key) := by
  intro c
  rw [builder_withCallbackParameter]
  split <;> rfl

/-- What has been undone since was undone before. -/
theorem undone {b : BuilderRef} (h : ws.SameContents now) (wf : ws.WellFormed) (g : ws.Grows now)
    (hb : b.index < ws.builders.size) (u : now.Undone after b) : ws.Undone after b := by
  have root := wf.root_eq g hb
  refine ⟨u.nodes.trans (by rw [h b]), u.counters.trans (by rw [h b]), ?_⟩
  have parameters := u.parameters
  rw [root] at parameters
  exact parameters.trans (by rw [h])

end Workspace.SameContents

namespace Build

theorem sameContents_callbackParameter (b : BuilderRef) (name : Value) (ws : Workspace) :
    ws.SameContents ((callbackParameter b name).run ws).2 := by
  cases hk : name.key? with
  | none =>
    unfold callbackParameter
    rw [run_get_bind, hk]
    exact .refl ws
  | some key =>
    rw [run_callbackParameter hk]
    split
    · exact .refl ws
    · exact .withCallbackParameter ws b key

theorem sameContents_callbackParameterList (b : BuilderRef) (names : List Value) (ws : Workspace) :
    ws.SameContents ((callbackParameterList b names).run ws).2 := by
  induction names generalizing ws with
  | nil => exact .refl ws
  | cons name names ih =>
    have first := sameContents_callbackParameter b name ws
    unfold callbackParameterList
    rw [run_bind_state]
    rcases run : (callbackParameter b name).run ws with ⟨e | a, now⟩ <;> rw [run] at first
    · exact first
    · have rest := ih now
      dsimp only
      rw [run_bind_state]
      rcases run' : (callbackParameterList b names).run now with ⟨e | as, after⟩ <;>
        rw [run'] at rest
      · exact first.trans rest
      · exact first.trans rest

theorem sameContents_parentParameters (b : BuilderRef) (ws : Workspace) :
    ws.SameContents ((parentParameters b).run ws).2 := by
  rw [run_parentParameters, run_bind_state]
  cases ws.parentNames b with
  | error e => exact .refl ws
  | ok names => exact sameContents_callbackParameterList b names ws

/-! ## Contracts -/

section
variable {α : Type} {root b : BuilderRef} {ws : Workspace} (wf : ws.WellFormed)
  (hb : ws.Under root b)
include wf hb

theorem confined_of_inner {step : Build α} {Q : α → Workspace → Prop}
    (op : ws.InnerOperation b (step.run ws).2)
    (hq : ∀ a, (step.run ws).1 = .ok a → Q a (step.run ws).2) :
    Ensures (ws.Confined True root b) ws step Q :=
  have confined := op.confined wf hb
  ⟨confined, confined.grows, hq⟩

theorem confined_parentParameters : Ensures (ws.Confined True root b) ws (parentParameters b)
    fun accesses now => (now.builder b).nodes = (ws.builder b).nodes ∧
      ∃ names, now.parentNames b = .ok names ∧
        List.Forall₂ (now.IsCallbackParameter b) names accesses := by
  refine confined_of_inner wf hb (.own .parentParameters) fun accesses e => ?_
  obtain ⟨ext, g, made⟩ :=
    ensures_parentParameters (wf.extends (fun _ => True) fun _ => True) hb.within
  obtain ⟨sameNodes, names, hnames, has⟩ := made accesses e
  have same := ext.kept.content b hb.within
  have passed := Workspace.parentNames_of_same wf g hb.within ext.kept.callbackNames
    same.parentNode same.parentParameter
  exact ⟨sameNodes.registered b hb.within, names, passed.trans hnames, has⟩

omit hb in
theorem confined_log (r : Log.Record) :
    Ensures (ws.Confined True root b) ws (log r) fun _ now => now = ws.addRecord r :=
  .change (.ofSteps wf (.operation (.refl ws) (.records _ _))
    (fun _ h _ => (ensures_log h r).1) (.of_nodes_eq rfl)) (ws.grows_addRecord r) rfl

theorem confined_setFormulaBuilder (f : FormulaRef) :
    Ensures (ws.Confined True root b) ws (setFormulaBuilder f b) fun _ now =>
      now.builders = ws.builders ∧
      (f.index < ws.formulas.size → (now.formula f).builder = some b) :=
  confined_of_inner wf hb (.setFormulaBuilder f)
    (ensures_setFormulaBuilder (wf.extends (fun _ => True) fun _ => True) f b).2.2

/-- A formula gives a builder plain nodes. -/
theorem confined_generate (plain : ws.PlainNodes b) {f : FormulaRef}
    (hf : (ws.formula f).builder = some b) (asResult : Bool) :
    Ensures (ws.Confined True root b) ws (generate f asResult) fun _ now => now.PlainNodes b :=
  confined_of_inner wf hb (.generate hf asResult) fun _ e =>
    plain_generate wf hb.within plain hf (Prod.ext e rfl)

variable {P : Ref → Prop} (meet : ws.ArgumentsMeet b P)
include meet

theorem confined_invoke (process : String) {arguments : Value} (hv : arguments.Within ws)
    (hP : ∀ r ∈ arguments.refs, P r) :
    Ensures (ws.Confined True root b) ws (invoke b process arguments)
      fun _ now => now.ArgumentsMeet b P := by
  refine confined_of_inner wf hb (.own (.invoke process hv .null none)) fun n e => ?_
  obtain ⟨-, g, made⟩ := ensures_invoke (wf.extends (fun _ => True) fun _ => True)
    (Workspace.open_of_within hb.within) process hv .null none
  obtain ⟨call, -, -, nodes, -⟩ := made n e
  intro p hp r hr
  rw [nodes] at hp
  rcases List.mem_append.1 hp with hp | hp
  · have old := ((wf.builder b hb.within).nodes p.1 p.2 hp).1
    exact meet p hp r ((g.node p.2 old).arguments ▸ hr)
  · cases List.mem_singleton.1 hp
    exact hP r (Specification.refs_of_bindArguments call.arguments r hr)

/-- A list that is returned becomes the argument of a node. -/
theorem confined_wrapList {v : Value} (hv : ∀ vs, v = .list vs ∨ v = .tuple vs →
      ∀ x ∈ vs, x.Within ws ∧ ∀ r ∈ x.refs, P r) :
    Ensures (ws.Confined True root b) ws (Documents.wrapList b v)
      fun _ now => now.ArgumentsMeet b P := by
  have start : ws.Confined True root b ws := .refl wf
  have wrapped {vs : List Value} (hvs : ∀ x ∈ vs, x.Within ws ∧ ∀ r ∈ x.refs, P r) :
      Ensures (ws.Confined True root b) ws (do
        return .node (← invoke b (ws.builder b).settings.arrayCreateProcess (.list [.list vs])) :
          Build Value) fun _ now => now.ArgumentsMeet b P := by
    have within : (Value.list [.list vs]).Within ws := Value.within_list.2 fun x hx => by
      rw [List.mem_singleton.1 hx]
      exact Value.within_list.2 fun y hy => (hvs y hy).1
    refine (confined_invoke wf hb meet _ within fun r hr => ?_).bind
      fun _ _ h₁ _ meet₁ => .pure h₁ meet₁
    obtain ⟨x, hx, hr⟩ := Value.mem_refs_list.1 hr
    obtain ⟨y, hy, hr⟩ := Value.mem_refs_list.1 (List.mem_singleton.1 hx ▸ hr)
    exact (hvs y hy).2 r hr
  unfold Documents.wrapList
  refine .get_bind ?_
  dsimp only
  split
  · exact .ite (fun _ => wrapped (hv _ (.inl rfl))) fun _ => .pure start meet
  · exact .ite (fun _ => wrapped (hv _ (.inr rfl))) fun _ => .pure start meet
  · exact .pure start meet

omit hb in
theorem confined_resultNode (argument : Scalar) (process : String) (v : Value) :
    Ensures (ws.Confined True root b) ws (Documents.resultNode b argument process v)
      fun n now => (now.node n).builder = b ∧ now.ArgumentsMeet b P := by
  have start : ws.Confined True root b ws := .refl wf
  unfold Documents.resultNode
  split
  · exact .get_bind (.ite (fun own => .pure start ⟨own, meet⟩) fun _ => .throw start)
  · exact .throw start

theorem confined_setResult {n : NodeRef} (own : (ws.node n).builder = b) (v : Value) :
    Ensures (ws.Confined True root b) ws (setResult n v) fun _ now => now.ArgumentsMeet b P := by
  have op : ws.InnerOperation b ((setResult n v).run ws).2 := .setResult own v
  exact confined_of_inner wf hb op fun _ _ =>
    meet.of_nodes_eq wf hb.within (op.confined wf hb).grows rfl

end

end Build

end ProcessGraph
