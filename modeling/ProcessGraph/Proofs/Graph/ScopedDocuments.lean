import ProcessGraph.Proofs.Graph.Discipline

/-!
# Documents in a scope

If functions keep to a discipline, then documents keep the scope that they are made in, and whatever
is written into them for a parameter has its name there (`Discipline.Governs.safe`). When an argument
is exported, what it refers to is in the scope of its node (`Discipline.resolves_ofArgument`), and
what is declared by then stays declared until the document is done.
-/

set_option autoImplicit false

namespace ProcessGraph

variable {σ : Type}

/-- The name of the reference can be looked up. -/
def Written.Resolves (ws : Workspace) (root : BuilderRef) (chain : List BuilderRef) (r : Written) :
    Prop := ws.Names root chain r.name ∨ r.name ∈ r.enclosing

/-- A builder that has just been made for an argument of a node of `b`. -/
structure Workspace.NewChild (ws : Workspace) (b g : BuilderRef) : Prop where
  within : g.index < ws.builders.size
  parent : (ws.builder g).parent = some b
  nodes : (ws.builder g).nodes = []

section
variable {K : CallbackRule} {ws now : Workspace} {root b g : BuilderRef} {outer : List BuilderRef}

/-! ## Children -/

theorem Workspace.NewChild.scoped (h : ws.NewChild b g) (hs : ws.Scoped K root (b :: outer)) :
    ws.Scoped K root (g :: b :: outer) := by
  refine ⟨.child h.within h.parent hs.enclosed, fun p hp => ?_, hs.nodes⟩
  rw [h.nodes] at hp
  cases hp

theorem Workspace.Advances.of_cons (h : ws.Advances root (g :: b :: outer) now) :
    ws.Advances root (b :: outer) now :=
  { h with
    within := fun c hc => h.within c (List.mem_cons_of_mem _ hc)
    passed := h.passed.mono fun _ => List.mem_cons_of_mem _
    elements := fun c hc => h.elements c (List.mem_cons_of_mem _ hc) }

namespace Build

theorem quiet_callbackBuilder (h : ws.WellFormed) (hr : root.index < ws.builders.size) {n : NodeRef}
    (hn : n.index < ws.nodes.size) (owner : (ws.node n).builder = b) (argument : Scalar) :
    Ensures (ws.Quiet root) ws (Documents.callbackBuilder n argument) fun g now =>
      now.NewChild b g := by
  unfold Documents.callbackBuilder
  refine .get_bind ?_
  rw [owner]
  refine .bind (R := fun g now => now.NewChild b g) ?_ fun g now q g₁ child => ?_
  · let builder : Builder := {
      catalog := (ws.builder b).catalog
      settings := (ws.builder b).settings
      parent := some b
      parentNode := some n
      parentParameter := argument }
    let after : Workspace := { ws with builders := ws.builders.push builder }
    have run : (createChild b n argument).run ws = (.ok ⟨ws.builders.size⟩, after) := rfl
    have hb : b.index < ws.builders.size := owner ▸ (h.node n hn).owner
    have ok : builder.Ok ws ⟨ws.builders.size⟩ := ⟨fun p e => by cases e; exact hb,
      fun m e => by cases e; exact hn, fun _ _ e => (nomatch e), List.nodup_nil, .nil,
      fun _ _ e => (nomatch e)⟩
    have old : ∀ c : BuilderRef, c.index < ws.builders.size → after.builder c = ws.builder c :=
      fun c hc => Arena.get_push_of_lt hc builder
    have new : after.builder ⟨ws.builders.size⟩ = builder := Arena.get_push_size ..
    have appends : ws.Appends after := h.addBuilder ok
    unfold Ensures
    rw [run]
    refine ⟨{ appends with
      passed := fun c hc => Workspace.parentNames_of_same h appends.grows hc rfl
        (congrArg Builder.parentNode (old c hc)) (congrArg Builder.parentParameter (old c hc))
      same := fun c hc => congrArg Builder.nodes (old c hc)
      declared := fun s hs => ?_ }, appends.grows, fun g e => ?_⟩
    · unfold Workspace.Declared at *
      rw [old root hr]
      exact hs
    · cases e
      refine ⟨?_, congrArg Builder.parent new, congrArg Builder.nodes new⟩
      show ws.builders.size < (ws.builders.push builder).size
      simp
  · let remember (node : Node) : Node :=
      { node with callbackBuilders := Dictionary.insert argument g node.callbackBuilders }
    have same (node : Node) : node.SameCall (remember node) := ⟨rfl, rfl, rfl, rfl, rfl, rfl⟩
    have quiet : now.Quiet root (now.modifyNode n remember) :=
      (q.wellFormed.modifyFlags n same).quiet rfl rfl
    exact .bind (R := fun _ after => after.NewChild b g)
      (.change (q.trans quiet) quiet.grows ⟨child.within, child.parent, child.nodes⟩)
      fun _ after q' _ child => .pure q' child

/-- A list that is returned becomes a node, if there is a process for it. -/
theorem follows_wrapList {base : Workspace} (h : base.Follows K root (b :: outer) ws) {v : Value}
    (hv : ∀ vs, v = .list vs ∨ v = .tuple vs → ∀ x ∈ vs, x.Usable K ws (b :: outer)) :
    Ensures (base.Follows K root (b :: outer)) ws (Documents.wrapList b v) fun _ _ => True := by
  have wrapped {vs : List Value} (hvs : ∀ x ∈ vs, x.Usable K ws (b :: outer)) :
      Ensures (base.Follows K root (b :: outer)) ws (do
        return .node (← invoke b (ws.builder b).settings.arrayCreateProcess (.list [.list vs])) :
          Build Value) fun _ _ => True := by
    refine (follows_invoke h _ (.own (Value.usable_list.2 fun x hx => ?_)) .null none).bind
      fun _ _ h₁ _ _ => .pure h₁ trivial
    cases List.mem_singleton.1 hx
    exact Value.usable_list.2 hvs
  unfold Documents.wrapList
  refine .get_bind ?_
  dsimp only
  split
  · exact .ite (fun _ => wrapped (hv _ (.inl rfl))) fun _ => .pure h trivial
  · exact .ite (fun _ => wrapped (hv _ (.inr rfl))) fun _ => .pure h trivial
  · exact .pure h trivial

theorem quiet_resultNode (h : ws.WellFormed) (argument : Scalar) (process : String) (v : Value) :
    Ensures (ws.Quiet root) ws (Documents.resultNode b argument process v) fun _ _ => True := by
  unfold Documents.resultNode
  split
  · exact .get_bind (.ite (fun _ => .pure h.quiet trivial) fun _ => .throw h.quiet)
  · exact .throw h.quiet

end Build

end

section
variable {D : Discipline σ} {w now after : World σ} {root b g : BuilderRef}
  {outer chain : List BuilderRef}

/-! ## References -/

theorem Written.Resolves.follow {r : Written} (hr : r.Resolves w.workspace root chain)
    (h : D.Follows root chain w now) : r.Resolves now.workspace root chain :=
  hr.imp_left fun hr => hr.mono h.advances.passed h.advances.declared

/-- A reference inside of a callback argument, seen from outside. -/
theorem Written.Resolves.under {ws : Workspace} {r : Written}
    (hr : r.Resolves ws root (g :: chain)) : (r.under (ws.passed g)).Resolves ws root chain := by
  rcases hr with (hd | hb) | he
  · exact .inl (.inl hd)
  · obtain ⟨c, hc, hm⟩ := Workspace.mem_bound.1 hb
    rcases List.mem_cons.1 hc with rfl | hc
    · exact .inr (List.mem_append_right _ hm)
    · exact .inl (.inr (Workspace.mem_bound.2 ⟨c, hc, hm⟩))
  · exact .inr (List.mem_append_left _ he)

namespace Discipline

/-- What a registered node refers to may still be referred to later. -/
theorem Follows.covered {r : Ref} (h : D.Follows root chain w now)
    (hr : r.Covered (D.rule w.host) w.workspace root chain) (hin : r.Within w.workspace) :
    r.Covered (D.rule now.host) now.workspace root chain :=
  (hr.mono hin h.advances.start h.advances.grows h.advances.passed h.advances.declared).later
    h.later

/-- Work in a child is work in the builder of its node. -/
theorem Keeps.inside {α : Type} {step : Run σ α} {Q : α → World σ → Prop}
    (h : D.Keeps root (g :: b :: outer) w step Q) : D.Keeps root (b :: outer) w step Q :=
  ⟨⟨h.1.advances.of_cons, h.1.later, h.1.scope.enclosed.of_cons, h.1.scope.nodes.2⟩, h.2⟩

/-- Calls of functions that may be called keep the scope. -/
def SafeCalls (D : Discipline σ) (call : Callback → List Value → Run σ Value) : Prop :=
  ∀ (w : World σ) (root b : BuilderRef) (outer : List BuilderRef) (f : Callback)
    (names : List Value) (accesses : List AccessRef), w.workspace.WellFormed →
    w.workspace.Scoped (D.rule w.host) root (b :: outer) →
    D.may w.workspace w.host outer f.handle → w.workspace.parentNames b = .ok names →
    List.Forall₂ (w.workspace.IsCallbackParameter b) names accesses →
    D.Keeps root (b :: outer) w (call f (f.accepted (.builder b :: accesses.map .access)))
      fun v now => ∀ vs, v = .list vs ∨ v = .tuple vs →
        ∀ x ∈ vs, x.Usable (D.rule now.host) now.workspace (b :: outer)

/-- The documents of builders keep the scope, and all references in them can be looked up. -/
def SafeTraces (D : Discipline σ) (inner : BuilderRef → Run σ (Traced Value)) : Prop :=
  ∀ (w : World σ) (root b : BuilderRef) (outer : List BuilderRef), w.workspace.WellFormed →
    w.workspace.Scoped (D.rule w.host) root (b :: outer) →
    D.Keeps root (b :: outer) w (inner b) fun t now =>
      (∃ graph, t.1 = Documents.assemble graph (now.workspace.builder b).metadata) ∧
      ∀ r ∈ t.2, r.Resolves now.workspace root (b :: outer)

section
variable {call : Callback → List Value → Run σ Value} {inner : BuilderRef → Run σ (Traced Value)}
  (hinner : D.SafeTraces inner) (wf : w.workspace.WellFormed)
  (hs : w.workspace.Scoped (D.rule w.host) root (b :: outer)) {n : NodeRef}
  (hn : n.index < w.workspace.nodes.size) (owner : (w.workspace.node n).builder = b)
include hinner wf hs hn owner

theorem resolves_ofFormula (argument : Scalar) {f : FormulaRef}
    (hf : f.index < w.workspace.formulas.size) :
    D.Keeps root (b :: outer) w (Traced.ofFormula inner n argument f) fun t now =>
      ∀ r ∈ t.2, r.Resolves now.workspace root (b :: outer) := by
  unfold Traced.ofFormula
  refine .bind (.liftQuiet hs (Build.quiet_callbackBuilder wf hs.enclosed.root_within hn owner
    argument)) fun child w₁ h₁ isChild => ?_
  refine Keeps.inside (g := child) ?_
  have hs₁ := isChild.scoped h₁.scope
  refine .bind (.liftQuiet hs₁ (Build.quiet_setFormulaBuilder h₁.advances.wellFormed
    hs₁.enclosed.root_within f)) fun _ w₂ h₂ hset => .workspace_bind ?_
  have formula := hset (Nat.lt_of_lt_of_le hf h₁.advances.grows.formulas)
  refine .bind (.lift (Build.follows_generate (h₂.scope.follows h₂.advances.wellFormed) formula
    true)) fun _ w₃ h₃ _ => ?_
  refine .bind (hinner w₃ root child _ h₃.advances.wellFormed h₃.scope)
    fun t w₄ h₄ ⟨_, ht⟩ => .pure h₄.advances.wellFormed h₄.scope fun r hr => ?_
  obtain ⟨r, hr', rfl⟩ := List.mem_map.1 hr
  rw [← (h₃.trans h₄).advances.passed.passed List.mem_cons_self]
  exact (ht r hr').under

variable (hcall : D.SafeCalls call)
include hcall

theorem resolves_ofCallback (argument : Scalar) {f : Callback}
    (hf : D.may w.workspace w.host (b :: outer) f.handle) :
    D.Keeps root (b :: outer) w (Traced.ofCallback call inner n argument f) fun t now =>
      ∀ r ∈ t.2, r.Resolves now.workspace root (b :: outer) := by
  unfold Traced.ofCallback
  refine .bind (.liftQuiet hs (Build.quiet_callbackBuilder wf hs.enclosed.root_within hn owner
    argument)) fun child w₁ h₁ isChild => ?_
  refine Keeps.inside (g := child) ?_
  have hs₁ := isChild.scoped h₁.scope
  have hf₁ := D.lasts h₁.advances.grows h₁.advances.passed h₁.later hf
  refine .bind (.liftQuiet hs₁ (Build.quiet_parentParameters h₁.advances.wellFormed
    hs₁.enclosed.root_within isChild.within)) fun accesses w₂ h₂ ⟨names, hnames, has⟩ =>
      .workspace_bind ?_
  refine .bind (.liftQuiet h₂.scope (Build.quiet_log h₂.advances.wellFormed
    h₂.scope.enclosed.root_within _)) fun _ w₃ h₃ _ => ?_
  have before := h₂.trans h₃
  have hf₃ := D.lasts before.advances.grows before.advances.of_cons.passed before.later hf₁
  have hnames₃ := (before.advances.passed child List.mem_cons_self).trans hnames
  have has₃ := has.imp fun _ _ is => is.grow h₂.advances.wellFormed h₃.advances.grows
  have wf₃ := h₃.advances.wellFormed
  refine Keeps.atomically wf₃ h₃.scope ?_
  refine .bind (hcall w₃ root child _ f names accesses wf₃ h₃.scope hf₃ hnames₃ has₃)
    fun v w₄ h₄ hv => ?_
  refine .bind (.lift (Build.follows_wrapList (h₄.scope.follows h₄.advances.wellFormed) hv))
    fun v w₅ h₅ _ => ?_
  refine .bind (.liftQuiet h₅.scope (Build.quiet_resultNode h₅.advances.wellFormed argument _ v))
    fun result w₆ h₆ _ => ?_
  refine .bind (.liftQuiet h₆.scope (Build.quiet_setResult h₆.advances.wellFormed result _))
    fun _ w₇ h₇ _ => ?_
  refine .bind (hinner w₇ root child _ h₇.advances.wellFormed h₇.scope)
    fun t w₈ h₈ ⟨_, ht⟩ => .pure h₈.advances.wellFormed h₈.scope fun r hr => ?_
  obtain ⟨r, hr', rfl⟩ := List.mem_map.1 hr
  have follows := ((((h₃.trans h₄).trans h₅).trans h₆).trans h₇).trans h₈
  rw [← follows.advances.passed.passed List.mem_cons_self]
  exact (ht r hr').under

/-- What the value refers to is in scope. -/
theorem resolves_ofObject (argument : Scalar) {v : Value}
    (hv : ∀ r ∈ v.refs, r.Covered (D.rule w.host) w.workspace root (b :: outer))
    (hin : v.Within w.workspace) :
    D.Keeps root (b :: outer) w (Traced.ofObject call inner n argument v) fun t now =>
      ∀ r ∈ t.2, r.Resolves now.workspace root (b :: outer) := by
  unfold Traced.ofObject
  split
  · refine .workspace_bind (.pure wf hs fun r hr => ?_)
    cases List.mem_singleton.1 hr
    exact .inl (hv _ (List.mem_singleton.2 rfl))
  · refine .workspace_bind (.pure wf hs fun r hr => ?_)
    cases List.mem_singleton.1 hr
    exact .inl (hv _ (List.mem_singleton.2 rfl))
  · exact resolves_ofFormula hinner wf hs hn owner argument (Value.within_formula.1 hin)
  · exact (hv _ (List.mem_singleton.2 rfl)).elim
  · exact resolves_ofCallback hinner wf hs hn owner hcall argument
      (hv _ (List.mem_singleton.2 rfl))
  · refine .bind (R := fun _ _ => True) ?_ fun _ _ h₁ _ =>
      .pure h₁.advances.wellFormed h₁.scope fun r hr => nomatch hr
    unfold Documents.ofObject
    split
    · refine .workspace_bind ?_
      split
      · exact .pure wf hs trivial
      · exact .throw wf hs
    all_goals first | exact .pure wf hs trivial | simp_all

end

section
variable {call : Callback → List Value → Run σ Value} {inner : BuilderRef → Run σ (Traced Value)}

mutual

theorem resolves_ofArgument (hinner : D.SafeTraces inner) (hcall : D.SafeCalls call)
    {w : World σ} (wf : w.workspace.WellFormed)
    (hs : w.workspace.Scoped (D.rule w.host) root (b :: outer)) {n : NodeRef}
    (hn : n.index < w.workspace.nodes.size) (owner : (w.workspace.node n).builder = b)
    (argument : Scalar) : ∀ v : Value,
    (∀ r ∈ v.refs, r.Covered (D.rule w.host) w.workspace root (b :: outer) ∧ r.Within w.workspace) →
    D.Keeps root (b :: outer) w (Traced.ofArgument call inner n argument v) fun t now =>
      ∀ r ∈ t.2, r.Resolves now.workspace root (b :: outer)
  | .list vs, hv => by
    unfold Traced.ofArgument
    exact (resolves_ofArguments hinner hcall wf hs hn owner argument vs fun v hv' r hr =>
      hv r (Value.mem_refs_list.2 ⟨v, hv', hr⟩)).bind
      fun t _ h₁ ht => .pure h₁.advances.wellFormed h₁.scope ht
  | .tuple vs, hv => by
    unfold Traced.ofArgument
    exact (resolves_ofArguments hinner hcall wf hs hn owner argument vs fun v hv' r hr =>
      hv r (Value.mem_refs_tuple.2 ⟨v, hv', hr⟩)).bind
      fun t _ h₁ ht => .pure h₁.advances.wellFormed h₁.scope ht
  | .dict d, hv => by
    unfold Traced.ofArgument
    exact (resolves_ofEntries hinner hcall wf hs hn owner argument d fun p hp r hr =>
      hv r (Value.mem_refs_dict.2 ⟨p, hp, hr⟩)).bind
      fun t _ h₁ ht => .pure h₁.advances.wellFormed h₁.scope ht
  | .node _, hv | .parameter _, hv | .access _, hv | .builder _, hv | .formula _, hv
  | .catalog _, hv | .callback _, hv | .null, hv | .bool _, hv | .int _, hv | .float _, hv
  | .str _, hv => by
    unfold Traced.ofArgument
    exact resolves_ofObject hinner wf hs hn owner hcall argument (fun r hr => (hv r hr).1)
      fun r hr => (hv r hr).2

theorem resolves_ofArguments (hinner : D.SafeTraces inner) (hcall : D.SafeCalls call)
    {w : World σ} (wf : w.workspace.WellFormed)
    (hs : w.workspace.Scoped (D.rule w.host) root (b :: outer)) {n : NodeRef}
    (hn : n.index < w.workspace.nodes.size) (owner : (w.workspace.node n).builder = b)
    (argument : Scalar) : ∀ vs : List Value,
    (∀ v ∈ vs, ∀ r ∈ v.refs,
      r.Covered (D.rule w.host) w.workspace root (b :: outer) ∧ r.Within w.workspace) →
    D.Keeps root (b :: outer) w (Traced.ofArguments call inner n argument vs) fun t now =>
      ∀ r ∈ t.2, r.Resolves now.workspace root (b :: outer)
  | [], _ => .pure wf hs fun _ hr => nomatch hr
  | v :: vs, hv => by
    unfold Traced.ofArguments
    refine (resolves_ofArgument hinner hcall wf hs hn owner argument v
      (hv v List.mem_cons_self)).bind fun t now h₁ ht => ?_
    have g := h₁.advances.grows
    refine (resolves_ofArguments hinner hcall h₁.advances.wellFormed h₁.scope
      (Nat.lt_of_lt_of_le hn g.nodes) ((g.node n hn).builder.trans owner) argument vs
      fun v hv' r hr => ?_).bind
      fun t' after h₂ ht' => .pure h₂.advances.wellFormed h₂.scope fun r hr => ?_
    · have hr := hv v (List.mem_cons_of_mem _ hv') r hr
      exact ⟨h₁.covered hr.1 hr.2, g.within hr.2⟩
    · rcases List.mem_append.1 hr with hr | hr
      · exact (ht r hr).follow h₂
      · exact ht' r hr

theorem resolves_ofEntries (hinner : D.SafeTraces inner) (hcall : D.SafeCalls call)
    {w : World σ} (wf : w.workspace.WellFormed)
    (hs : w.workspace.Scoped (D.rule w.host) root (b :: outer)) {n : NodeRef}
    (hn : n.index < w.workspace.nodes.size) (owner : (w.workspace.node n).builder = b)
    (argument : Scalar) : ∀ d : List (Scalar × Value),
    (∀ p ∈ d, ∀ r ∈ p.2.refs,
      r.Covered (D.rule w.host) w.workspace root (b :: outer) ∧ r.Within w.workspace) →
    D.Keeps root (b :: outer) w (Traced.ofEntries call inner n argument d) fun t now =>
      ∀ r ∈ t.2, r.Resolves now.workspace root (b :: outer)
  | [], _ => .pure wf hs fun _ hr => nomatch hr
  | (k, v) :: d, hv => by
    unfold Traced.ofEntries
    refine (resolves_ofArgument hinner hcall wf hs hn owner argument v
      (hv (k, v) List.mem_cons_self)).bind fun t now h₁ ht => ?_
    have g := h₁.advances.grows
    refine (resolves_ofEntries hinner hcall h₁.advances.wellFormed h₁.scope
      (Nat.lt_of_lt_of_le hn g.nodes) ((g.node n hn).builder.trans owner) argument d
      fun p hp r hr => ?_).bind
      fun t' after h₂ ht' => .pure h₂.advances.wellFormed h₂.scope fun r hr => ?_
    · have hr := hv p (List.mem_cons_of_mem _ hp) r hr
      exact ⟨h₁.covered hr.1 hr.2, g.within hr.2⟩
    · rcases List.mem_append.1 hr with hr | hr
      · exact (ht r hr).follow h₂
      · exact ht' r hr

end

variable (hinner : D.SafeTraces inner) (hcall : D.SafeCalls call)
include hinner hcall

theorem resolves_ofNamed {w : World σ} (wf : w.workspace.WellFormed)
    (hs : w.workspace.Scoped (D.rule w.host) root (b :: outer)) {n : NodeRef}
    (hn : n.index < w.workspace.nodes.size) (owner : (w.workspace.node n).builder = b) :
    ∀ d : List (Scalar × Value), (∀ r ∈ Value.refsInEntries d,
      r.Covered (D.rule w.host) w.workspace root (b :: outer) ∧ r.Within w.workspace) →
    D.Keeps root (b :: outer) w (Traced.ofNamed call inner n d) fun t now =>
      ∀ r ∈ t.2, r.Resolves now.workspace root (b :: outer)
  | [], _ => .pure wf hs fun _ hr => nomatch hr
  | (name, v) :: d, hv => by
    unfold Traced.ofNamed
    refine (resolves_ofArgument hinner hcall wf hs hn owner name v fun r hr =>
      hv r (List.mem_append_left _ hr)).bind fun t now h₁ ht => ?_
    have g := h₁.advances.grows
    refine (resolves_ofNamed h₁.advances.wellFormed h₁.scope (Nat.lt_of_lt_of_le hn g.nodes)
      ((g.node n hn).builder.trans owner) d fun r hr => ?_).bind
      fun t' after h₂ ht' => .pure h₂.advances.wellFormed h₂.scope fun r hr => ?_
    · have hr := hv r (List.mem_append_right _ hr)
      exact ⟨h₁.covered hr.1 hr.2, g.within hr.2⟩
    · rcases List.mem_append.1 hr with hr | hr
      · exact (ht r hr).follow h₂
      · exact ht' r hr

/-- A registered node refers to what is in scope. -/
theorem resolves_ofNode {w : World σ} (wf : w.workspace.WellFormed)
    (hs : w.workspace.Scoped (D.rule w.host) root (b :: outer)) {id : String} {n : NodeRef}
    (hn : (id, n) ∈ (w.workspace.builder b).nodes) :
    D.Keeps root (b :: outer) w (Traced.ofNode call inner n) fun t now =>
      ∀ r ∈ t.2, r.Resolves now.workspace root (b :: outer) := by
  have ok := (wf.builder b (hs.enclosed.within b List.mem_cons_self)).nodes id n hn
  unfold Traced.ofNode
  exact .workspace_bind ((resolves_ofNamed hinner hcall wf hs ok.1 ok.2.1 _ fun r hr =>
    ⟨hs.nodes.1 (id, n) hn r hr, ((wf.node n ok.1).arguments r hr).1⟩).bind
    fun t now h₁ ht => .workspace_bind (.pure h₁.advances.wellFormed h₁.scope ht))

theorem resolves_ofNodes {w : World σ} (wf : w.workspace.WellFormed)
    (hs : w.workspace.Scoped (D.rule w.host) root (b :: outer)) :
    ∀ nodes : List (String × NodeRef), (∀ p ∈ nodes, p ∈ (w.workspace.builder b).nodes) →
      D.Keeps root (b :: outer) w (Traced.ofNodes call inner nodes) fun t now =>
        ∀ r ∈ t.2, r.Resolves now.workspace root (b :: outer)
  | [], _ => .pure wf hs fun _ hr => nomatch hr
  | (id, n) :: rest, hn => by
    unfold Traced.ofNodes
    refine (resolves_ofNode hinner hcall wf hs (hn (id, n) List.mem_cons_self)).bind
      fun t now h₁ ht => ?_
    have still := h₁.advances.nodes b (hs.enclosed.within b List.mem_cons_self)
    refine (resolves_ofNodes h₁.advances.wellFormed h₁.scope rest fun p hp => ?_).bind
      fun t' after h₂ ht' => .pure h₂.advances.wellFormed h₂.scope fun r hr => ?_
    · obtain ⟨more, e, -⟩ := still
      exact e ▸ List.mem_append_left _ (hn p (List.mem_cons_of_mem _ hp))
    · rcases List.mem_append.1 hr with hr | hr
      · exact (ht r hr).follow h₂
      · exact ht' r hr

theorem safe_ofBuilder : D.SafeTraces (Traced.ofBuilder call inner) := by
  intro w root b outer wf hs
  unfold Traced.ofBuilder
  exact .workspace_bind ((resolves_ofNodes hinner hcall wf hs _ fun _ hp => hp).bind
    fun t now h₁ ht => .workspace_bind (.pure h₁.advances.wellFormed h₁.scope ⟨⟨_, rfl⟩, ht⟩))

end

/-! ## Any depth of nesting -/

theorem run_map_snd {α β : Type} (f : α → β) (step : Run σ α) (w : World σ) :
    ((f <$> step).run w).2 = (step.run w).2 := by
  rw [map_eq_pure_bind, run_bind_state]
  rcases step.run w with ⟨e | a, now⟩ <;> rfl

/-- The functions of a host that keeps to the discipline are safe if documents are. -/
theorem Governs.safeCalls {call : Documents σ → Callback → List Value → Run σ Value}
    (governed : D.Governs call) {n : Nat} (safe : D.Safe (Documents.within call n)) :
    D.SafeCalls (call (Documents.within call n)) := by
  intro w root b outer f names accesses wf hs hf hnames has
  obtain ⟨acts, returned⟩ := governed n wf hs.enclosed hf hnames has rfl
  have follows := acts.follows (fun made e => e ▸ safe) wf hs
  exact ⟨follows, follows.advances.grows, fun v e vs hv => returned vs (by
    rcases hv with rfl | rfl
    · exact .inl e
    · exact .inr e)⟩

/-- Documents keep their scope, and what they refer to can be looked up. -/
theorem Governs.safe {call : Documents σ → Callback → List Value → Run σ Value}
    (governed : D.Governs call) (n : Nat) :
    D.SafeTraces (Traced.within call n) ∧ D.Safe (Documents.within call n) := by
  induction n with
  | zero =>
    exact ⟨fun w root b outer wf hs => .throw wf hs, fun w root b outer wf hs =>
      ⟨.refl wf hs, fun _ _ _ => .refl wf hs⟩⟩
  | succ n ih =>
    have calls := governed.safeCalls ih.2
    have traces : D.SafeTraces (Traced.within call (n + 1)) := safe_ofBuilder ih.1 calls
    refine ⟨traces, fun w root b outer wf hs => ⟨?_, fun id m hm => ?_⟩⟩
    · rw [← Traced.within_eq, run_map_snd]
      exact (traces w root b outer wf hs).1
    · have inner : (fun b => Prod.fst <$> Traced.within call n b) =
          (Documents.within call n).builder := funext (Traced.within_eq call n)
      show D.Follows root (b :: outer) w ((Documents.ofNode (call (Documents.within call n))
        (Documents.within call n).builder m).run w).2
      rw [← inner, ← Traced.ofNode_eq, run_map_snd]
      exact (resolves_ofNode ih.1 calls wf hs hm).1

end Discipline

end

end ProcessGraph
