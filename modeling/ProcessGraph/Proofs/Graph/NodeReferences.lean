import ProcessGraph.Proofs.Graph.Embeddings
import ProcessGraph.Proofs.Graph.FailedCalls
import ProcessGraph.Proofs.Graph.FormulaNodes

/-!
# References to nodes

In a document a node in an argument is referred to by its id. What the document has under this id is
looked up by the reader: `Documents.references_leadBack` says what is found there. The node is an
older one of the same builder. If it is still registered, the reference leads to this very node, and
its entry stands before the entry with the argument; if a block that made the node has been undone,
the id is free for other nodes, the one with the argument included.

Runs in which calls are only given nodes that are registered (`Workspace.CarefulSteps`) never get
there: whatever fails and is undone, the nodes in the arguments of registered nodes are registered
(`Workspace.CarefulSteps.closed`), so that all references lead back and none of them runs in a
circle.
-/

set_option autoImplicit false

namespace ProcessGraph

variable {σ : Type}

/-! ## Places of nodes -/

def Ref.node? : Ref → Option NodeRef
  | node n => some n
  | _ => none

theorem Ref.mem_filterMap_node? {m : NodeRef} {rs : List Ref} :
    m ∈ rs.filterMap Ref.node? ↔ Ref.node m ∈ rs := by
  rw [List.mem_filterMap]
  constructor
  · rintro ⟨r, hr, e⟩
    cases r <;> cases e
    exact hr
  · exact fun h => ⟨_, h, rfl⟩

namespace Value

mutual

/-- The nodes in an argument, in their order, each with what stands in its place in the exported
argument. -/
def placed : Value → Value → List (NodeRef × Value)
  | .list vs, document => placedInList vs document.listed
  | .tuple vs, document => placedInList vs document.listed
  | .dict d, document => placedInEntries d document.entries
  | .node m, document => [(m, document)]
  | _, _ => []

def placedInList : List Value → List Value → List (NodeRef × Value)
  | [], _ => []
  | v :: vs, documents => placed v (documents.headD .null) ++ placedInList vs documents.tail

def placedInEntries : List (Scalar × Value) → List (Scalar × Value) → List (NodeRef × Value)
  | [], _ => []
  | (_, v) :: d, documents =>
    placed v (documents.headD (.null, .null)).2 ++ placedInEntries d documents.tail

end

mutual

/-- All nodes that the argument refers to have their places. -/
theorem map_placed : ∀ v document : Value,
    (v.placed document).map (·.1) = v.refs.filterMap Ref.node?
  | .list vs, document => map_placedInList vs document.listed
  | .tuple vs, document => map_placedInList vs document.listed
  | .dict d, document => map_placedInEntries d document.entries
  | .node _, _ | .parameter _, _ | .access _, _ | .builder _, _ | .formula _, _ => rfl
  | .callback _, _ | .catalog _, _ | .null, _ | .bool _, _ | .int _, _ | .float _, _ => rfl
  | .str _, _ => rfl

theorem map_placedInList : ∀ vs documents : List Value,
    (placedInList vs documents).map (·.1) = (refsInList vs).filterMap Ref.node?
  | [], _ => rfl
  | v :: vs, documents => by
    rw [placedInList, List.map_append, map_placed, map_placedInList, refsInList,
      List.filterMap_append]

theorem map_placedInEntries : ∀ d documents : List (Scalar × Value),
    (placedInEntries d documents).map (·.1) = (refsInEntries d).filterMap Ref.node?
  | [], _ => rfl
  | (_, v) :: d, documents => by
    rw [placedInEntries, List.map_append, map_placed, map_placedInEntries, refsInEntries,
      List.filterMap_append]

end

end Value

/-- What refers to a node in a document. -/
def Workspace.reference (ws : Workspace) (m : NodeRef) : Value :=
  .object [("from_node", .str (ws.node m).id)]

theorem Workspace.Grows.reference {ws now : Workspace} (g : ws.Grows now) {m : NodeRef}
    (hm : m.index < ws.nodes.size) : now.reference m = ws.reference m := by
  unfold Workspace.reference
  rw [(g.node m hm).id]

/-- In each place stands the reference to the node. -/
def Workspace.Refers (ws : Workspace) (places : List (NodeRef × Value)) : Prop :=
  ∀ e ∈ places, e.2 = ws.reference e.1

section
variable {ws now : Workspace} {places more : List (NodeRef × Value)}

theorem Workspace.Refers.append (h : ws.Refers places) (h' : ws.Refers more) :
    ws.Refers (places ++ more) := fun e he =>
  (List.mem_append.1 he).elim (h e) (h' e)

/-- Ids stay, so it does not matter when the node is looked at. -/
theorem Workspace.Refers.of_grow (h : now.Refers places) (g : ws.Grows now)
    (within : ∀ m ∈ places.map (·.1), m.index < ws.nodes.size) : ws.Refers places := fun e he =>
  (h e he).trans (g.reference (within e.1 (List.mem_map_of_mem he)))

end

namespace Workspace

/-- The document of a node, with references in the places of nodes. -/
def Shows (ws : Workspace) (n : NodeRef) (document : Value) : Prop :=
  ∃ later arguments, document = Documents.describe (ws.node n) later arguments ∧
    ws.Refers (Value.placedInEntries (ws.node n).arguments arguments)

/-- The entry of a registered node in a document. -/
structure IsEntry (ws : Workspace) (p : String × NodeRef) (entry : Scalar × Value) : Prop where
  key : entry.1 = .str p.1
  document : ws.Shows p.2 entry.2

theorem Shows.of_grow {ws now : Workspace} {n : NodeRef} {document : Value}
    (h : now.Shows n document) (wf : ws.WellFormed) (g : ws.Grows now)
    (hn : n.index < ws.nodes.size) : ws.Shows n document := by
  obtain ⟨later, arguments, described, refers⟩ := h
  have same := g.node n hn
  rw [same.arguments] at refers
  refine ⟨later, arguments, ?_, refers.of_grow g fun m hm => ?_⟩
  · rw [described]
    unfold Documents.describe
    rw [same.process, same.space]
  · rw [Value.map_placedInEntries, Ref.mem_filterMap_node?] at hm
    exact ((wf.node n hn).arguments _ hm).1

end Workspace

/-! ## Exported references -/

namespace Documents

section
variable {call : Callback → List Value → Run σ Value} {inner : BuilderRef → Run σ Value}

mutual

theorem refers_ofArgument (hcall : Calls.Operate call) (hinner : Builders.Operate inner)
    {w : World σ} (h : w.workspace.WellFormed) {n : NodeRef}
    (hn : n.index < w.workspace.nodes.size) (argument : Scalar) :
    ∀ v : Value, v.Within w.workspace → Run.Operates w (ofArgument call inner n argument v)
      fun document _ => w.workspace.Refers (v.placed document)
  | .list vs, hv => by
    unfold ofArgument
    exact (refers_ofArguments hcall hinner h hn argument vs (Value.within_list.1 hv)).bind
      fun _ _ h₁ _ refers => .pure h₁ refers
  | .tuple vs, hv => by
    unfold ofArgument
    exact (refers_ofArguments hcall hinner h hn argument vs (Value.within_tuple.1 hv)).bind
      fun _ _ h₁ _ refers => .pure h₁ refers
  | .dict d, hv => by
    unfold ofArgument
    exact (refers_ofEntries hcall hinner h hn argument d (Value.within_dict.1 hv)).bind
      fun _ _ h₁ _ refers => .pure h₁ refers
  | .node m, hv => by
    unfold ofArgument ofObject
    refine .workspace_bind
      (.ite (fun _ => .pure (.refl _) fun e he => ?_) fun _ => .throw (.refl _))
    cases List.mem_singleton.1 he
    rfl
  | .parameter _, hv | .access _, hv | .builder _, hv | .formula _, hv | .catalog _, hv
  | .callback _, hv | .null, hv | .bool _, hv | .int _, hv | .float _, hv | .str _, hv => by
    unfold ofArgument
    exact (operates_ofObject hcall hinner h hn argument hv).mono fun _ _ _ _ _ => nofun

theorem refers_ofArguments (hcall : Calls.Operate call) (hinner : Builders.Operate inner)
    {w : World σ} (h : w.workspace.WellFormed) {n : NodeRef}
    (hn : n.index < w.workspace.nodes.size) (argument : Scalar) :
    ∀ vs : List Value, (∀ v ∈ vs, v.Within w.workspace) →
      Run.Operates w (ofArguments call inner n argument vs) fun documents _ =>
        w.workspace.Refers (Value.placedInList vs documents)
  | [], _ => .pure (.refl _) nofun
  | v :: vs, hv => by
    unfold ofArguments
    refine (refers_ofArgument hcall hinner h hn argument v (hv v List.mem_cons_self)).bind
      fun document now h₁ g₁ first => ?_
    have others := fun v hm => hv v (List.mem_cons_of_mem _ hm)
    refine ((refers_ofArguments hcall hinner (h₁.appends h).wellFormed
      (Nat.lt_of_lt_of_le hn g₁.nodes) argument vs fun v hm =>
        g₁.value_within (others v hm)).after h₁).bind
      fun documents _ h₂ _ rest => .pure h₂ (first.append (rest.of_grow g₁ fun m hm => ?_))
    rw [Value.map_placedInList, Ref.mem_filterMap_node?] at hm
    obtain ⟨v, hv, hm⟩ := Value.mem_refsInList.1 hm
    exact others v hv _ hm

theorem refers_ofEntries (hcall : Calls.Operate call) (hinner : Builders.Operate inner)
    {w : World σ} (h : w.workspace.WellFormed) {n : NodeRef}
    (hn : n.index < w.workspace.nodes.size) (argument : Scalar) :
    ∀ d : List (Scalar × Value), Value.EntriesWithin w.workspace d →
      Run.Operates w (ofEntries call inner n argument d) fun documents _ =>
        w.workspace.Refers (Value.placedInEntries d documents)
  | [], _ => .pure (.refl _) nofun
  | (k, v) :: d, hd => by
    unfold ofEntries
    refine (refers_ofArgument hcall hinner h hn argument v (hd (k, v) List.mem_cons_self)).bind
      fun document now h₁ g₁ first => ?_
    have others := fun p hp => hd p (List.mem_cons_of_mem _ hp)
    refine ((refers_ofEntries hcall hinner (h₁.appends h).wellFormed
      (Nat.lt_of_lt_of_le hn g₁.nodes) argument d fun p hp =>
        g₁.value_within (others p hp)).after h₁).bind
      fun documents _ h₂ _ rest => .pure h₂ (first.append (rest.of_grow g₁ fun m hm => ?_))
    rw [Value.map_placedInEntries, Ref.mem_filterMap_node?] at hm
    obtain ⟨p, hp, hm⟩ := Value.mem_refsInEntries.1 hm
    exact others p hp _ hm

end

variable (hcall : Calls.Operate call) (hinner : Builders.Operate inner)
include hcall hinner

theorem refers_ofNamed {w : World σ} (h : w.workspace.WellFormed) {n : NodeRef}
    (hn : n.index < w.workspace.nodes.size) :
    ∀ d : List (Scalar × Value), Value.EntriesWithin w.workspace d →
      Run.Operates w (ofNamed call inner n d) fun documents _ =>
        w.workspace.Refers (Value.placedInEntries d documents)
  | [], _ => .pure (.refl _) nofun
  | (name, v) :: d, hd => by
    unfold ofNamed
    refine (refers_ofArgument hcall hinner h hn name v (hd (name, v) List.mem_cons_self)).bind
      fun document now h₁ g₁ first => ?_
    have others := fun p hp => hd p (List.mem_cons_of_mem _ hp)
    refine ((refers_ofNamed (h₁.appends h).wellFormed (Nat.lt_of_lt_of_le hn g₁.nodes) d
      fun p hp => g₁.value_within (others p hp)).after h₁).bind
      fun documents _ h₂ _ rest => .pure h₂ (first.append (rest.of_grow g₁ fun m hm => ?_))
    rw [Value.map_placedInEntries, Ref.mem_filterMap_node?] at hm
    obtain ⟨p, hp, hm⟩ := Value.mem_refsInEntries.1 hm
    exact others p hp _ hm

theorem refers_ofNode {w : World σ} (h : w.workspace.WellFormed) {n : NodeRef}
    (hn : n.index < w.workspace.nodes.size) :
    Run.Operates w (ofNode call inner n) fun document _ => w.workspace.Shows n document := by
  unfold ofNode
  have inside : Value.EntriesWithin w.workspace (w.workspace.node n).arguments := fun p hp r hr =>
    ((h.node n hn).arguments r (Value.mem_refsInEntries.2 ⟨p, hp, hr⟩)).1
  exact .workspace_bind ((refers_ofNamed hcall hinner h hn _ inside).bind
    fun arguments now h₁ _ refers => .workspace_bind (.pure h₁
      ⟨now.workspace.node n, arguments, rfl, refers⟩))

theorem refers_ofNodes {w : World σ} (h : w.workspace.WellFormed) :
    ∀ nodes : List (String × NodeRef), (∀ p ∈ nodes, p.2.index < w.workspace.nodes.size) →
      Run.Operates w (ofNodes call inner nodes) fun graph _ =>
        List.Forall₂ w.workspace.IsEntry nodes graph
  | [], _ => .pure (.refl _) .nil
  | (id, n) :: rest, hn => by
    unfold ofNodes
    refine (refers_ofNode hcall hinner h (hn (id, n) List.mem_cons_self)).bind
      fun document now h₁ g₁ first => ?_
    have others := fun p hp => hn p (List.mem_cons_of_mem _ hp)
    refine ((refers_ofNodes (h₁.appends h).wellFormed rest fun p hp =>
      Nat.lt_of_lt_of_le (others p hp) g₁.nodes).after h₁).bind
      fun graph _ h₂ _ all => .pure h₂ (.cons ⟨rfl, first⟩ ?_)
    rw [List.forall₂_iff_get] at all ⊢
    refine ⟨all.1, fun i hi hi' => ?_⟩
    have entry := all.2 i hi hi'
    have old := others _ (List.get_mem rest ⟨i, hi⟩)
    exact ⟨entry.key, entry.document.of_grow h g₁ old⟩

theorem refers_ofBuilder {w : World σ} (h : w.workspace.WellFormed) {b : BuilderRef}
    (hb : b.index < w.workspace.builders.size) :
    Run.Operates w (ofBuilder call inner b) fun document now => ∃ graph,
      document = assemble graph (now.workspace.builder b).metadata ∧
      List.Forall₂ w.workspace.IsEntry (w.workspace.builder b).nodes graph := by
  unfold ofBuilder
  exact .workspace_bind ((refers_ofNodes hcall hinner h _ fun p hp =>
    ((h.builder b hb).nodes p.1 p.2 hp).1).bind fun graph _ h₁ _ entries =>
      .workspace_bind (.pure h₁ ⟨graph, rfl, entries⟩))

end

end Documents

/-! ## Where references lead -/

/-- Of two entries of an ordered list, the smaller one stands first. -/
theorem sublist_of_pairwise {α : Type} {R : α → α → Prop} {l : List α} (h : l.Pairwise R) {a b : α}
    (ha : a ∈ l) (hb : b ∈ l) (apart : a ≠ b) (other : ¬ R b a) : [a, b].Sublist l := by
  induction h with
  | nil => cases ha
  | @cons x l hx _ ih =>
    rcases List.mem_cons.1 ha with rfl | ha'
    · have hb' := (List.mem_cons.1 hb).resolve_left (Ne.symm apart)
      exact .cons_cons a (List.singleton_sublist.2 hb')
    · rcases List.mem_cons.1 hb with rfl | hb'
      · exact absurd (hx a ha') other
      · exact (ih ha' hb').cons x

namespace Workspace

variable {ws now : Workspace} {b : BuilderRef}

/-- The node is an older one of the builder, and the entry under its id is its own and stands before
the one given, unless the node is not registered any more. -/
structure LeadsBack (ws : Workspace) (b : BuilderRef) (p : String × NodeRef) (m : NodeRef) :
    Prop where
  builder : (ws.node m).builder = b
  older : m.index < p.2.index
  earlier : m ∈ (ws.builder b).nodes.values ↔
    [((ws.node m).id, m), p].Sublist (ws.builder b).nodes

theorem WellFormed.leadsBack (h : ws.WellFormed) (hb : b.index < ws.builders.size)
    {p : String × NodeRef} (hp : p ∈ (ws.builder b).nodes) {m : NodeRef}
    (hm : Ref.node m ∈ Value.refsInEntries (ws.node p.2).arguments)
    (builder : (ws.node m).builder = b) : ws.LeadsBack b p m := by
  have ok := h.builder b hb
  have hn := (ok.nodes p.1 p.2 hp).1
  have older : m.index < p.2.index := ((h.node p.2 hn).arguments _ hm).2
  refine ⟨builder, older, fun registered => ?_, fun sub => ?_⟩
  · obtain ⟨⟨id, m'⟩, hq, rfl⟩ := List.mem_map.1 registered
    obtain rfl : (ws.node m').id = id := (ok.nodes id m' hq).2.2
    refine sublist_of_pairwise ok.ordered hq hp (fun e => ?_) (Nat.lt_asymm older)
    exact Nat.lt_irrefl _ (e ▸ older)
  · exact List.mem_map_of_mem (f := Prod.snd) (sub.subset List.mem_cons_self)

end Workspace

/-! ## Runs with registered arguments -/

namespace Workspace

/-- Those nodes of the builder that its nodes have as arguments are registered. -/
def Closed (ws : Workspace) (b : BuilderRef) : Prop :=
  ∀ p ∈ (ws.builder b).nodes, ∀ m, Ref.node m ∈ Value.refsInEntries (ws.node p.2).arguments →
    (ws.node m).builder = b → m ∈ (ws.builder b).nodes.values

/-- What has been registered since has been given registered nodes. -/
def GivesRegistered (ws now : Workspace) : Prop :=
  ∀ b : BuilderRef, b.index < now.builders.size → ∀ p ∈ (now.builder b).nodes, ws.NewNode p.2 →
    ∀ m, Ref.node m ∈ Value.refsInEntries (now.node p.2).arguments →
      (now.node m).builder = b → m ∈ (now.builder b).nodes.values

/-- Operations that are given registered nodes, and blocks of them that are undone. -/
inductive CarefulSteps : Workspace → Workspace → Prop
  | refl (ws : Workspace) : CarefulSteps ws ws
  | operation {ws now after : Workspace} (h : CarefulSteps ws now) (op : now.Operation after)
      (given : now.GivesRegistered after) : CarefulSteps ws after
  | rollBack {ws before now : Workspace} (h : CarefulSteps ws before)
      (h' : CarefulSteps before now) {b : BuilderRef} (hb : b.index < before.builders.size) :
      CarefulSteps ws (rollBack before b now)

section
variable {ws now before : Workspace} {b : BuilderRef}

theorem CarefulSteps.steps (h : CarefulSteps ws now) : ws.Steps now := by
  induction h with
  | refl => exact .refl _
  | operation _ op _ ih => exact .operation ih op
  | rollBack _ _ hb ih ih' => exact .rollBack ih ih' hb

/-- Nodes that were registered still are, with the same arguments. -/
theorem Closed.appends (closed : ∀ b : BuilderRef, b.index < ws.builders.size → ws.Closed b)
    (h : ws.Appends now) (given : ws.GivesRegistered now) :
    ∀ b : BuilderRef, b.index < now.builders.size → now.Closed b := by
  intro b hb p hp m hm builder
  obtain ⟨hn, owner, -⟩ := (h.wellFormed.builder b hb).nodes p.1 p.2 hp
  by_cases new : ws.NewNode p.2
  · exact given b hb p hp new m hm builder
  have old : p.2.index < ws.nodes.size := Nat.not_le.1 new
  have same := h.grows.node p.2 old
  -- A node that was there belongs to a builder that was there.
  have hb' : b.index < ws.builders.size := by
    rw [← owner, same.builder]
    exact (h.start.node p.2 old).owner
  have more := h.nodes b hb'
  have hp' := (more.mem hp).resolve_right new
  rw [same.arguments] at hm
  have hm' := ((h.start.node p.2 old).arguments _ hm).1
  rw [(h.grows.node m hm').builder] at builder
  obtain ⟨added, e, -⟩ := more
  unfold Dictionary.values
  rw [e, List.map_append]
  exact List.mem_append_left _ (closed b hb' p hp' m hm builder)

/-- A builder that is rolled back has the nodes from before; all others keep theirs. -/
theorem Closed.rollBack (h : before.Appends now) (hb : b.index < before.builders.size)
    {c : BuilderRef} (closed : (if c = b then before else now).Closed c) :
    (before.rollBack b now).Closed c := by
  intro p hp m hm builder
  rw [h.nodes_rollBack hb] at hp ⊢
  rw [node_rollBack] at hm builder
  split at hp
  · rename_i own
    subst own
    rw [if_pos rfl] at closed ⊢
    have old := ((h.start.builder c hb).nodes p.1 p.2 hp).1
    rw [(h.grows.node p.2 old).arguments] at hm
    rw [(h.grows.node m ((h.start.node p.2 old).arguments _ hm).1).builder] at builder
    exact closed p hp m hm builder
  · rename_i other
    rw [if_neg other] at closed ⊢
    exact closed p hp m hm builder

/-- Whatever fails and is undone, no node in an argument has gone before the node with the
argument. -/
theorem CarefulSteps.closed (h : CarefulSteps ws now) (wf : ws.WellFormed)
    (closed : ∀ b : BuilderRef, b.index < ws.builders.size → ws.Closed b) :
    ∀ b : BuilderRef, b.index < now.builders.size → now.Closed b := by
  induction h with
  | refl => exact closed
  | operation h op given ih =>
    exact Closed.appends (ih wf closed) (op.appends (h.steps.appends wf).wellFormed) given
  | @rollBack ws before now h h' b hb ih ih' =>
    have first := h.steps.appends wf
    have block := h'.steps.appends first.wellFormed
    have closed₁ := ih wf closed
    have closed₂ := ih' first.wellFormed closed₁
    intro c hc
    refine Closed.rollBack block hb ?_
    split
    · rename_i own
      exact own ▸ closed₁ b hb
    · refine closed₂ c ?_
      rwa [size_builders_rollBack] at hc

/-- A call is careful if it is given registered nodes, also if it fails. -/
theorem givesRegistered_invoke (wf : ws.WellFormed) (hb : b.index < ws.builders.size)
    (process : String) {arguments : Value} (hv : arguments.Within ws)
    (registered : arguments.RegisteredIn ws b) (description : Value) (space : Option String) :
    ws.GivesRegistered ((Build.invoke b process arguments description space).run ws).2 := by
  have known {c : BuilderRef} (hc : c.index < ws.builders.size) {p : String × NodeRef}
      (hp : p ∈ (ws.builder c).nodes) (new : ws.NewNode p.2) : False :=
    Nat.not_lt.2 new ((wf.builder c hc).nodes p.1 p.2 hp).1
  have counted := frame_builderCount.keeps_invoke (fun _ _ _ _ => Arena.size_modify ..)
    (fun _ _ _ _ => Arena.size_modify ..) b process arguments description space ws
  intro c hc p hp new m hm builder
  rw [counted] at hc
  rcases run : (Build.invoke b process arguments description space).run ws with ⟨e | n, now⟩
  · have same := (frame_sameRegistered.keeps_makeNode sameRegistered_of_numbering b _ _ _ _).of_run
      (Build.invoke_eq_error run)
    rw [run, same c] at hp
    exact (known hc hp new).elim
  · obtain ⟨ext, -, is, -, -, nodes, -⟩ := (Build.ensures_invoke (wf.extends (· = b) fun _ => True)
      ⟨hb, .inl rfl, .inl trivial⟩ process hv description space).of_run run
    rw [run] at hp hm
    by_cases own : c = b
    · subst own
      rw [nodes] at hp ⊢
      rcases List.mem_append.1 hp with hp | hp
      · exact (known hc hp new).elim
      · cases List.mem_singleton.1 hp
        have given := Specification.refs_of_bindArguments is.arguments _ hm
        unfold Dictionary.values
        rw [List.map_append]
        exact List.mem_append_left _ (registered m given)
    · rw [((ext.kept.content c hc).untouched.resolve_left own).1] at hp
      exact (known hc hp new).elim

end

end Workspace

/-! ## Documents -/

/-- **References to nodes lead back.** In the document of a builder, what stands for a node in an
argument is a reference to the id of the node. This is an older node of the same builder, and as
long as it is registered, the entry under its id is its own and stands before the entry with the
argument. So it is for all of them if calls have been given registered nodes only. -/
theorem Documents.references_leadBack {call : Documents σ → Callback → List Value → Run σ Value}
    (hcall : ∀ n, Calls.Operate (call (within call n))) {w now : World σ}
    (h : w.workspace.Reachable) {b : BuilderRef} (hb : b.index < w.workspace.builders.size)
    {depth : Nat} {document : Value}
    (run : ((within call depth).builder b).run w = (.ok document, now)) :
    (∃ graph, document = assemble graph (now.workspace.builder b).metadata ∧
      List.Forall₂ w.workspace.IsEntry (w.workspace.builder b).nodes graph) ∧
    (w.workspace.builder b).nodes.keys.Nodup ∧
    (∀ p ∈ (w.workspace.builder b).nodes,
      ∀ m, Ref.node m ∈ Value.refsInEntries (w.workspace.node p.2).arguments →
        w.workspace.LeadsBack b p m) ∧
    (Workspace.CarefulSteps {} w.workspace → ∀ p ∈ (w.workspace.builder b).nodes,
      ∀ m, Ref.node m ∈ Value.refsInEntries (w.workspace.node p.2).arguments →
        [((w.workspace.node m).id, m), p].Sublist (w.workspace.builder b).nodes) := by
  have wf := h.wellFormed
  cases depth with
  | zero => cases run
  | succ depth =>
    have inner : ∀ (w : World σ) (b : BuilderRef), w.workspace.WellFormed →
        b.index < w.workspace.builders.size →
        Run.Operates w ((within call depth).builder b) fun _ _ => True :=
      fun _ _ wf hb => ((operates_within hcall depth wf).1 _ hb).mono fun _ _ _ _ _ => trivial
    have made : (ofBuilder (call (within call depth)) (within call depth).builder b).run w =
      (.ok document, now) := run
    obtain ⟨-, -, shown⟩ := (refers_ofBuilder (hcall depth) inner wf hb).of_run made
    obtain ⟨-, -, native⟩ := (operates_ofBuilder (hcall depth) inner wf hb).of_run made
    have back : ∀ p ∈ (w.workspace.builder b).nodes,
        ∀ m, Ref.node m ∈ Value.refsInEntries (w.workspace.node p.2).arguments →
          w.workspace.LeadsBack b p m := fun p hp m hm =>
      wf.leadsBack hb hp hm ((native p hp m hm).trans ((wf.builder b hb).nodes p.1 p.2 hp).2.1)
    refine ⟨shown, (wf.builder b hb).nodup, back, fun careful p hp m hm => ?_⟩
    have leads := back p hp m hm
    have closed := careful.closed .ofEmpty nofun b hb
    exact leads.earlier.1 (closed p hp m hm leads.builder)

/-! ## Undone sums -/

/-- A sum whose block has been undone. -/
def Workspace.undoneSum : Workspace :=
  Workspace.arithmetic.rollBack ⟨0⟩
    ((Build.invoke ⟨0⟩ "add" (.list [.int 1, .int 2])).run .arithmetic).2

/-- Another sum, and a sum with it. -/
def Workspace.sumOfSum : Workspace :=
  let ws := ((Build.invoke ⟨0⟩ "add" (.list [.int 1, .int 2])).run Workspace.undoneSum).2
  ((Build.invoke ⟨0⟩ "add" (.list [.node ⟨1⟩, .int 3])).run ws).2

/-- Both are made with registered nodes. -/
theorem Workspace.carefulSteps_sumOfSum : Workspace.CarefulSteps {} .sumOfSum := by
  have numbers (ws : Workspace) : (Value.list [.int 1, .int 2]).Within ws := nofun
  have plain (ws : Workspace) : (Value.list [.int 1, .int 2]).RegisteredIn ws ⟨0⟩ :=
    Value.registeredIn_of_refs_eq_nil rfl
  have invoke {ws : Workspace} (h : CarefulSteps {} ws) (hb : 0 < ws.builders.size)
      {arguments : Value} (hv : arguments.Within ws) (registered : arguments.RegisteredIn ws ⟨0⟩) :
      CarefulSteps {} ((Build.invoke ⟨0⟩ "add" arguments).run ws).2 :=
    .operation h (.invoke hb "add" hv .null none)
      (givesRegistered_invoke (h.steps.appends .ofEmpty).wellFormed hb "add" hv registered .null
        none)
  have start : CarefulSteps {} .arithmetic := by
    refine .operation (.refl _) (.createBuilder _ _ none none [] nofun) fun b hb p hp => ?_
    have one : Workspace.arithmetic.builders.size = 1 := by decide +kernel
    obtain rfl : b = ⟨0⟩ := congrArg BuilderRef.mk (Nat.lt_one_iff.1 (one ▸ hb))
    have none : (Workspace.arithmetic.builder ⟨0⟩).nodes = [] := by decide +kernel
    rw [show (Workspace.builder _ _).nodes = [] from none] at hp
    cases hp
  have undone : CarefulSteps {} .undoneSum := by
    refine .rollBack start (.operation (.refl _) (.invoke ?_ "add" (numbers _) .null none)
      (givesRegistered_invoke reachable_arithmetic.wellFormed ?_ "add" (numbers _) (plain _) .null
        none)) ?_ <;> decide +kernel
  refine invoke (invoke undone (by decide +kernel) (numbers _) (plain _)) (by decide +kernel)
    (fun r hr => ?_) fun n hn => ?_
  · cases List.mem_singleton.1 hr
    show (1 : Nat) < _
    decide +kernel
  · cases List.mem_singleton.1 hn
    decide +kernel

/-- The second sum refers to the entry of the first one. -/
theorem Documents.references_leadBack_sumOfSum : ∃ document now graph,
    ((within noFunctions 1).builder ⟨0⟩).run ⟨.sumOfSum, ()⟩ = (.ok document, now) ∧
    document = assemble graph (now.workspace.builder ⟨0⟩).metadata ∧
    List.Forall₂ Workspace.sumOfSum.IsEntry [("add1", ⟨1⟩), ("add2", ⟨2⟩)] graph ∧
    Workspace.sumOfSum.LeadsBack ⟨0⟩ ("add2", ⟨2⟩) ⟨1⟩ ∧
    [((Workspace.sumOfSum.node ⟨1⟩).id, ⟨1⟩), ("add2", ⟨2⟩)].Sublist
      (Workspace.sumOfSum.builder ⟨0⟩).nodes := by
  have operate : ∀ n, Calls.Operate (noFunctions (within noFunctions n)) :=
    fun _ _ _ _ _ _ => .throw (.refl _)
  have careful := Workspace.carefulSteps_sumOfSum
  have nodes : (Workspace.sumOfSum.builder ⟨0⟩).nodes = [("add1", ⟨1⟩), ("add2", ⟨2⟩)] := by
    decide +kernel
  have argument : Ref.node ⟨1⟩ ∈ Value.refsInEntries (Workspace.sumOfSum.node ⟨2⟩).arguments := by
    decide +kernel
  have made : (((within noFunctions 1).builder ⟨0⟩).run ⟨Workspace.sumOfSum, ()⟩).1.isOk := by
    decide +kernel
  rcases run : ((within noFunctions 1).builder ⟨0⟩).run ⟨.sumOfSum, ()⟩ with ⟨e | document, now⟩
  · rw [run] at made
    cases made
  · obtain ⟨⟨graph, assembled, entries⟩, -, back, earlier⟩ :=
      references_leadBack (w := ⟨.sumOfSum, ()⟩) operate careful.steps (by decide +kernel) run
    rw [nodes] at entries
    have second : ("add2", ⟨2⟩) ∈ (Workspace.sumOfSum.builder ⟨0⟩).nodes := by
      rw [nodes]
      exact List.mem_cons_of_mem _ List.mem_cons_self
    exact ⟨document, now, graph, rfl, assembled, entries, back _ second _ argument,
      earlier careful _ second _ argument⟩

/-- The undone sum as an argument of a sum that takes its id. -/
def Workspace.sumOfUndone : Workspace :=
  ((Build.invoke ⟨0⟩ "add" (.list [.node ⟨0⟩, .int 3])).run Workspace.undoneSum).2

-- The reference to the undone sum leads to the sum that it is an argument of.
example :
    (Workspace.sumOfUndone.builder ⟨0⟩).nodes = [("add1", ⟨1⟩)] ∧
      (Workspace.sumOfUndone.node ⟨0⟩).id = "add1" ∧
      Ref.node ⟨0⟩ ∈ Value.refsInEntries (Workspace.sumOfUndone.node ⟨1⟩).arguments ∧
      (((Documents.within noFunctions 1).builder ⟨0⟩).run ⟨.sumOfUndone, ()⟩).1.isOk = true := by
  decide +kernel

end ProcessGraph
