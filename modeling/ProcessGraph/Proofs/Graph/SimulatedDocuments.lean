import ProcessGraph.Proofs.Graph.Runs
import ProcessGraph.Proofs.Graph.SimulatedChildren

/-!
# Simulation of documents

`C.running H` is the logic of steps that may call functions of the host, where `H` says what the
hosts of the two runs have to do with each other. If calls of related functions simulate each other,
and so do documents further inside, then documents of related builders are equal
(`simulates_ofBuilder`).

Nodes of the outer part are exported, too (`simulates_ofNodes`): what their arguments show is
`C.Shown`, which is less than what may be worked on.
-/

set_option autoImplicit false

namespace ProcessGraph

/-- What two hosts have to do with each other, and how they go on. -/
structure HostRelation (σ τ : Type) where
  holds : Matching → σ → τ → Prop
  later : σ × τ → σ × τ → Prop
  refl : ∀ x, later x x
  trans : ∀ {x y z}, later x y → later y z → later x z
  grow : ∀ {R R' : Matching} {s t}, R.Grows R' → holds R s t → holds R' s t

section
variable {σ τ : Type}

def Stage.workspaces (p : Stage (World σ) (World τ)) : Stage Workspace Workspace :=
  ⟨p.matching, p.left.workspace, p.right.workspace⟩

/-- The logic of steps that may call functions of the host. -/
def Comparison.running (C : Comparison) (H : HostRelation σ τ) :
    SimulationLogic (World σ) (World τ) where
  holds p := C.building.holds p.workspaces ∧ H.holds p.matching p.left.host p.right.host
  later p q := p.matching ≤ q.matching ∧ p.left.workspace.Grows q.left.workspace ∧
    p.right.workspace.Grows q.right.workspace ∧
    H.later (p.left.host, p.right.host) (q.left.host, q.right.host)
  refl _ := ⟨le_refl _, .refl _, .refl _, H.refl _⟩
  trans h h' := ⟨le_trans h.1 h'.1, h.2.1.trans h'.2.1, h.2.2.1.trans h'.2.2.1,
    H.trans h.2.2.2 h'.2.2.2⟩

namespace Run

variable {C : Comparison} {H : HostRelation σ τ} {p : Stage (World σ) (World τ)} {α β : Type}

theorem workspace_bind {f : Workspace → Run σ α} {g : Workspace → Run τ β}
    {Q : Stage (World σ) (World τ) → α → β → Prop}
    (h : Simulates (C.running H) p (f p.left.workspace) (g p.right.workspace) Q) :
    Simulates (C.running H) p (workspace >>= f) (workspace >>= g) Q := h

section
variable (h : (C.running H).holds p)
include h

/-- Building steps do not touch the hosts. -/
theorem simulates_lift {step : Build α} {step' : Build β}
    {Q : Stage Workspace Workspace → α → β → Prop}
    (hs : Simulates C.building p.workspaces step step' Q) :
    Simulates (C.running H) p (liftM step : Run σ α) (liftM step' : Run τ β)
      fun q a b => Q q.workspaces a b := by
  obtain ⟨R, l, hR, o⟩ := hs
  exact ⟨R, ⟨l.1.le, l.2.1, l.2.2, H.refl _⟩, ⟨hR, H.grow l.1 h.2⟩, o⟩

theorem simulates_atomically {b c : BuilderRef} (hbc : p.matching (.builder b) (.builder c))
    {body : Run σ α} {body' : Run τ β} {Q : Stage (World σ) (World τ) → α → β → Prop}
    (hbody : Simulates (C.running H) p body body' Q) :
    Simulates (C.running H) p (atomically b body) (atomically c body') Q := by
  obtain ⟨R, ⟨le, gA, gB, later⟩, hR, o⟩ := hbody
  unfold Simulates
  rw [run_atomically, run_atomically]
  rcases hA : body.run p.left with ⟨e | a, A⟩ <;> rcases hB : body'.run p.right with ⟨e' | d, B⟩ <;>
    rw [hA, hB] at gA gB later hR o <;> cases o
  · have backA := Workspace.grows_rollBack h.1.wellFormed_left gA (h.1.within hbc).1
    have backB := Workspace.grows_rollBack h.1.wellFormed_right gB (h.1.within hbc).2
    have matched : C.Matches R (p.left.workspace.rollBack b A.workspace)
        (p.right.workspace.rollBack c B.workspace) := h.1.rollBack hR.1 le gA gB hbc
    exact ⟨R, ⟨le, gA.trans backA, gB.trans backB, later⟩, ⟨matched, hR.2⟩, .error e⟩
  · rename_i hq
    exact ⟨R, ⟨le, gA, gB, later⟩, hR, .ok hq⟩

end

end Run

end

/-! ## What is shown of arguments -/

/-- References of the outer part that are shown in the same way. -/
def Comparison.Outer (C : Comparison) : Matching
  | .node n, .node m => n.index < C.left.base.nodes.size ∧ m.index < C.right.base.nodes.size ∧
      (C.left.base.node n).id = (C.right.base.node m).id ∧
      C.outerBuilder (C.left.base.node n).builder (C.right.base.node m).builder
  | .parameter r, .parameter s => r.index < C.left.base.parameters.size ∧
      s.index < C.right.base.parameters.size ∧
      C.left.base.parameter r = C.right.base.parameter s
  | .access a, .access d => a.index < C.left.base.accesses.size ∧
      d.index < C.right.base.accesses.size ∧
      C.left.base.accessParameter a = C.right.base.accessParameter d
  | .formula f, .formula g => f.index < C.left.base.formulas.size ∧
      g.index < C.right.base.formulas.size ∧
      (C.left.base.formula f).text = (C.right.base.formula g).text ∧
      (C.left.base.formula f).tree = (C.right.base.formula g).tree
  | _, _ => False

/-- References that are shown in the same way. -/
def Comparison.Shown (C : Comparison) (R : Matching) : Matching := fun r s => R r s ∨ C.Outer r s

theorem Comparison.Shown.mono {C : Comparison} {R R' : Matching} (hle : R ≤ R') :
    C.Shown R ≤ C.Shown R' := fun _ _ h => h.imp_left (hle _ _)

theorem Comparison.le_shown (C : Comparison) (R : Matching) : R ≤ C.Shown R := fun _ _ => .inl

namespace Comparison.Matches

variable {C : Comparison} {R : Matching} {A B : Workspace} (h : C.Matches R A B)
include h

theorem shown_node {n m : NodeRef} (hnm : C.Shown R (.node n) (.node m)) :
    (A.node n).id = (B.node m).id ∧ C.Same R (A.node n).builder (B.node m).builder := by
  rcases hnm with hnm | ⟨hn, hm, id, owner⟩
  · exact ⟨(h.pair hnm).id, .inl (h.pair hnm).builder⟩
  · have keptA := h.left.kept.node n hn
    have keptB := h.right.kept.node m hm
    rw [keptA.id, keptB.id, keptA.builder, keptB.builder]
    exact ⟨id, .inr owner⟩

theorem shown_parameter {r s : ParameterRef} (hrs : C.Shown R (.parameter r) (.parameter s)) :
    A.parameter r = B.parameter s := by
  rcases hrs with hrs | ⟨hr, hs, e⟩
  · exact (h.pair hrs).1
  · rw [h.left.kept.parameter r hr, h.right.kept.parameter s hs, e]

theorem shown_access {a d : AccessRef} (had : C.Shown R (.access a) (.access d)) :
    A.accessParameter a = B.accessParameter d := by
  rcases had with had | ⟨ha, hd, e⟩
  · exact h.accessParameter_eq had
  · rw [h.left.kept.accessParameter ha (h.left.start.access a ha).parameter,
      h.right.kept.accessParameter hd (h.right.start.access d hd).parameter, e]

theorem shown_formula {f g : FormulaRef} (hfg : C.Shown R (.formula f) (.formula g)) :
    (f.index < A.formulas.size ∧ g.index < B.formulas.size) ∧
      (A.formula f).text = (B.formula g).text ∧ (A.formula f).tree = (B.formula g).tree := by
  rcases hfg with hfg | ⟨hf, hg, text, tree⟩
  · exact ⟨h.within hfg, h.pair hfg⟩
  · have keptA := h.left.kept.formula f hf
    have keptB := h.right.kept.formula g hg
    refine ⟨⟨Nat.lt_of_lt_of_le hf h.left.kept.formulas,
      Nat.lt_of_lt_of_le hg h.right.kept.formulas⟩, ?_, ?_⟩
    · rw [keptA.1, keptB.1, text]
    · rw [keptA.2, keptB.2, tree]

theorem same_process {n m : NodeRef} (hnm : C.SameNode R n m) :
    (A.node n).process = (B.node m).process := by
  rcases hnm with hnm | hnm
  · exact (h.pair hnm).process
  · exact (h.outerNode hnm).process

end Comparison.Matches

/-! ## Exported nodes -/

/-- The nodes of the outer part have the same flags to begin with. -/
structure Comparison.SameFlags (C : Comparison) (n m : NodeRef) : Prop where
  within : n.index < C.left.base.nodes.size ∧ m.index < C.right.base.nodes.size
  space : (C.left.base.node n).space = (C.right.base.node m).space
  result : (C.left.base.node n).result = (C.right.base.node m).result
  description : (C.left.base.node n).description = (C.right.base.node m).description

/-- The nodes of the outer part keep their flags. -/
theorem Comparison.Matches.flags_eq {C : Comparison} {R : Matching} {A B : Workspace}
    (h : C.Matches R A B) {n m : NodeRef} (flags : R (.node n) (.node m) ∨ C.SameFlags n m) :
    (A.node n).space = (B.node m).space ∧ (A.node n).result = (B.node m).result ∧
      (A.node n).description = (B.node m).description := by
  rcases flags with hnm | flags
  · exact ⟨(h.pair hnm).space, (h.pair hnm).result, (h.pair hnm).description⟩
  · obtain ⟨hn, hm⟩ := flags.within
    have keptA := h.left.kept.flags n hn
    have keptB := h.right.kept.flags m hm
    refine ⟨?_, ?_, ?_⟩
    · rw [(h.left.kept.node n hn).space, (h.right.kept.node m hm).space, flags.space]
    · rw [keptA.1, keptB.1, flags.result]
    · rw [keptA.2, keptB.2, flags.description]

/-- The nodes are exported in the same way. -/
structure Comparison.Exports (C : Comparison) (R : Matching) (A B : Workspace) (n m : NodeRef) :
    Prop where
  same : C.SameNode R n m
  arguments : Dictionary.Match (Value.Related (C.Shown R)) (A.node n).arguments
    (B.node m).arguments
  flags : R (.node n) (.node m) ∨ C.SameFlags n m

namespace Comparison.Exports

variable {C : Comparison} {R R' : Matching} {A A' B B' : Workspace} {n m : NodeRef}

theorem of_related (h : C.Matches R A B) (hnm : R (.node n) (.node m)) : C.Exports R A B n m :=
  ⟨.inl hnm, Value.related_entries_mono (C.le_shown R) (h.pair hnm).arguments, .inl hnm⟩

theorem later (h : C.Exports R A B n m) (hm : C.Matches R A B) (hle : R ≤ R') (gA : A.Grows A')
    (gB : B.Grows B') : C.Exports R' A' B' n m := by
  obtain ⟨hn, hm⟩ := hm.sameNode_within h.same
  refine ⟨h.same.mono hle, ?_, h.flags.imp_left (hle _ _)⟩
  rw [(gA.node n hn).arguments, (gB.node m hm).arguments]
  exact Value.related_entries_mono (Shown.mono hle) h.arguments

end Comparison.Exports

/-! ## Arguments -/

theorem Callback.accepted_related {R : Matching} {f g : Callback}
    (hfg : Value.Related R (.callback f) (.callback g)) {vs ws : List Value}
    (hvs : List.Forall₂ (Value.Related R) vs ws) :
    List.Forall₂ (Value.Related R) (f.accepted vs) (g.accepted ws) := by
  cases hfg with
  | callback _ positional variadic =>
    unfold accepted
    rw [positional, variadic]
    split
    · exact hvs
    · exact List.forall₂_take _ hvs

namespace Documents

section
variable {σ τ : Type} {C : Comparison} {H : HostRelation σ τ}

/-- Calls of related functions with related arguments simulate each other. -/
def SimulateCalls (C : Comparison) (H : HostRelation σ τ)
    (call : Callback → List Value → Run σ Value) (call' : Callback → List Value → Run τ Value) :
    Prop :=
  ∀ {p : Stage (World σ) (World τ)} {f g : Callback} {vs ws : List Value},
    (C.running H).holds p → Value.Related p.matching (.callback f) (.callback g) →
    List.Forall₂ (Value.Related p.matching) vs ws →
    Simulates (C.running H) p (call f vs) (call' g ws) fun q v w => Value.Related q.matching v w

/-- Documents of related builders are equal. -/
def SimulateBuilders (C : Comparison) (H : HostRelation σ τ) (inner : BuilderRef → Run σ Value)
    (inner' : BuilderRef → Run τ Value) : Prop :=
  ∀ {p : Stage (World σ) (World τ)} {b c : BuilderRef}, (C.running H).holds p →
    p.matching (.builder b) (.builder c) →
    Simulates (C.running H) p (inner b) (inner' c) fun _ => Eq

variable {call : Callback → List Value → Run σ Value} {call' : Callback → List Value → Run τ Value}
  {inner : BuilderRef → Run σ Value} {inner' : BuilderRef → Run τ Value}

/-- Nodes are exported in the same way if their arguments are. -/
theorem simulates_ofNode_of {p : Stage (World σ) (World τ)} (h : (C.running H).holds p)
    {n m : NodeRef} (same : C.SameNode p.matching n m)
    (flags : p.matching (.node n) (.node m) ∨ C.SameFlags n m)
    (arguments : Simulates (C.running H) p
      (ofNamed call inner n (p.left.workspace.node n).arguments)
      (ofNamed call' inner' m (p.right.workspace.node m).arguments) fun _ => Eq) :
    Simulates (C.running H) p (ofNode call inner n) (ofNode call' inner' m) fun _ => Eq := by
  have process : (p.left.workspace.node n).process = (p.right.workspace.node m).process :=
    h.1.same_process same
  have space : (p.left.workspace.node n).space = (p.right.workspace.node m).space :=
    (h.1.flags_eq flags).1
  unfold ofNode
  refine Run.workspace_bind (arguments.bind fun q x y l hq e => Run.workspace_bind (.pure hq ?_))
  have result : (q.left.workspace.node n).result = (q.right.workspace.node m).result ∧
      (q.left.workspace.node n).description = (q.right.workspace.node m).description :=
    (hq.1.flags_eq (flags.imp_left (l.1 _ _))).2
  rw [e, process, space, result.1, result.2]

section
variable (hinner : SimulateBuilders C H inner inner')
include hinner

theorem simulates_ofFormula {p : Stage (World σ) (World τ)} (h : (C.running H).holds p)
    {n m : NodeRef} (hnm : C.SameNode p.matching n m) (argument : Scalar) {f g : FormulaRef}
    (hfg : C.Shown p.matching (.formula f) (.formula g)) :
    Simulates (C.running H) p (ofFormula inner n argument f) (ofFormula inner' m argument g)
      fun _ => Eq := by
  unfold ofFormula
  refine (Run.simulates_lift h (Build.simulates_callbackBuilder h.1 hnm argument)).bind
    fun q b c l hq ⟨hbc, new⟩ => ?_
  have hfg₁ := Comparison.Shown.mono l.1 _ _ hfg
  obtain ⟨⟨hf, hg⟩, -⟩ := hq.1.shown_formula hfg₁
  refine (Run.simulates_lift hq (Build.simulates_setFormulaBuilder hq.1 b c hf hg)).bind
    fun r _ _ l' hr ⟨eA, eB⟩ => ?_
  have same := hr.1.shown_formula (Comparison.Shown.mono l'.1 _ _ hfg₁)
  have hbc₁ := l'.1 _ _ hbc
  refine (Run.simulates_lift hr (Build.simulates_generate hr.1 hbc₁ same.2 eA eB true
    fun _ => new)).bind fun s _ _ l'' hs _ => ?_
  exact hinner hs (l''.1 _ _ hbc₁)

variable (hcall : SimulateCalls C H call call')
include hcall

theorem simulates_ofCallback {p : Stage (World σ) (World τ)} (h : (C.running H).holds p)
    {n m : NodeRef} (hnm : C.SameNode p.matching n m) (argument : Scalar) {f g : Callback}
    (hfg : Value.Related p.matching (.callback f) (.callback g)) :
    Simulates (C.running H) p (ofCallback call inner n argument f)
      (ofCallback call' inner' m argument g) fun _ => Eq := by
  unfold ofCallback
  refine (Run.simulates_lift h (Build.simulates_callbackBuilder h.1 hnm argument)).bind
    fun q b c l hq ⟨hbc, newA, newB⟩ => ?_
  refine (Run.simulates_lift hq (Build.simulates_parentParameters hq.1 hbc)).bind
    fun r as ds l' hr had => Run.workspace_bind ?_
  dsimp only
  have process : (r.left.workspace.node n).process = (r.right.workspace.node m).process :=
    hr.1.same_process ((hnm.mono l.1).mono l'.1)
  rw [process]
  refine (Run.simulates_lift hr (Build.simulates_log hr.1 _ _)).bind fun s _ _ l'' hs _ => ?_
  have hbc₁ := l''.1 _ _ (l'.1 _ _ hbc)
  refine Run.simulates_atomically hs hbc₁ ?_
  have given : List.Forall₂ (Value.Related s.matching) (.builder b :: as.map .access)
      (.builder c :: ds.map .access) := by
    refine .cons (.builder hbc₁) ?_
    rw [List.forall₂_map_left_iff, List.forall₂_map_right_iff]
    exact had.imp fun _ _ had => .access (l''.1 _ _ had)
  have hfg₁ := ((hfg.mono l.1).mono l'.1).mono l''.1
  refine (hcall hs hfg₁ (Callback.accepted_related hfg₁ given)).bind fun t v w l₁ ht hvw => ?_
  have hbc₂ := l₁.1 _ _ hbc₁
  refine (Run.simulates_lift ht (Build.simulates_wrapList ht.1 hbc₂ hvw)).bind
    fun u v w l₂ hu hvw => ?_
  have hbc₃ := l₂.1 _ _ hbc₂
  refine (Run.simulates_lift hu (Build.simulates_resultNode hu.1 hbc₃ argument _ hvw)).bind
    fun x i j l₃ hx ⟨hij, ownA, ownB⟩ => ?_
  refine (Run.simulates_lift hx (Build.simulates_setResult hx.1 hij
    (Build.newNode_of_owner hx.1.left (ownA ▸ newA))
    (Build.newNode_of_owner hx.1.right (ownB ▸ newB)) _)).bind fun y _ _ l₄ hy _ => ?_
  exact hinner hy (l₄.1 _ _ (l₃.1 _ _ hbc₃))

end

mutual

/-- Arguments that are shown in the same way are exported in the same way. -/
theorem simulates_ofArgument (hinner : SimulateBuilders C H inner inner')
    (hcall : SimulateCalls C H call call')
    {p : Stage (World σ) (World τ)} (h : (C.running H).holds p)
    {n m : NodeRef} (hnm : C.SameNode p.matching n m) (argument : Scalar) (v : Value) {w : Value}
    (hvw : Value.Related (C.Shown p.matching) v w) :
    Simulates (C.running H) p (ofArgument call inner n argument v)
      (ofArgument call' inner' m argument w) fun _ => Eq :=
  match v with
  | .list vs => by
    cases hvw with
    | list hvs =>
      unfold ofArgument
      exact (simulates_ofArguments hinner hcall h hnm argument vs hvs).bind
        fun q x y _ hq e => .pure hq (congrArg Value.list e)
  | .tuple vs => by
    cases hvw with
    | tuple hvs =>
      unfold ofArgument
      exact (simulates_ofArguments hinner hcall h hnm argument vs hvs).bind
        fun q x y _ hq e => .pure hq (congrArg Value.list e)
  | .dict d => by
    cases hvw with
    | dict hd =>
      unfold ofArgument
      exact (simulates_ofEntries hinner hcall h hnm argument d hd).bind
        fun q x y _ hq e => .pure hq (congrArg Value.dict e)
  | .node r => by
    cases hvw with
    | node hrs =>
      obtain ⟨id, same⟩ := h.1.shown_node hrs
      refine Run.workspace_bind (.ite ?_ (fun _ => .pure h ?_) fun _ => ?_)
      · exact h.1.uniqueBuilder same (h.1.same_builder hnm)
      · exact congrArg (fun id => Value.object [("from_node", .str id)]) id
      · have process := h.1.same_process hnm
        unfold Stage.workspaces at id process
        rw [id, process]
        exact .throw h
  | .parameter r => by
    cases hvw with
    | parameter hrs =>
      exact Run.workspace_bind (.pure h (congrArg Parameter.reference (h.1.shown_parameter hrs)))
  | .access a => by
    cases hvw with
    | access had =>
      exact Run.workspace_bind (.pure h (congrArg Parameter.reference (h.1.shown_access had)))
  | .formula f => by
    cases hvw with
    | formula hfg => exact simulates_ofFormula hinner h hnm argument hfg
  | .builder b => by
    cases hvw with
    | builder hbc => exact hinner h (hbc.resolve_right id)
  | .callback f => by
    cases hvw with
    | callback hfg positional variadic =>
      exact simulates_ofCallback hinner hcall h hnm argument
        (.callback (hfg.resolve_right id) positional variadic)
  | .null => by
    cases hvw
    exact .pure h rfl
  | .bool _ => by
    cases hvw
    exact .pure h rfl
  | .int _ => by
    cases hvw
    exact .pure h rfl
  | .float _ => by
    cases hvw
    exact .pure h rfl
  | .str _ => by
    cases hvw
    exact .pure h rfl
  | .catalog _ => by
    cases hvw
    exact .pure h rfl

theorem simulates_ofArguments (hinner : SimulateBuilders C H inner inner')
    (hcall : SimulateCalls C H call call')
    {p : Stage (World σ) (World τ)} (h : (C.running H).holds p)
    {n m : NodeRef} (hnm : C.SameNode p.matching n m) (argument : Scalar) (vs : List Value)
    {ws : List Value} (hvs : List.Forall₂ (Value.Related (C.Shown p.matching)) vs ws) :
    Simulates (C.running H) p (ofArguments call inner n argument vs)
      (ofArguments call' inner' m argument ws) fun _ => Eq :=
  match vs with
  | [] => by
    cases hvs
    exact .pure h rfl
  | v :: vs => by
    cases hvs with
    | cons hvw hvs =>
      unfold ofArguments
      refine (simulates_ofArgument hinner hcall h hnm argument v hvw).bind fun q x y l hq e => ?_
      subst e
      have hvs₁ := hvs.imp fun _ _ hvw => hvw.mono (Comparison.Shown.mono l.1)
      refine (simulates_ofArguments hinner hcall hq (hnm.mono l.1) argument vs hvs₁).bind
        fun r xs ys _ hr e => .pure hr (congrArg (x :: ·) e)

theorem simulates_ofEntries (hinner : SimulateBuilders C H inner inner')
    (hcall : SimulateCalls C H call call')
    {p : Stage (World σ) (World τ)} (h : (C.running H).holds p)
    {n m : NodeRef} (hnm : C.SameNode p.matching n m) (argument : Scalar)
    (d : List (Scalar × Value)) {e : List (Scalar × Value)}
    (hde : Dictionary.Match (Value.Related (C.Shown p.matching)) d e) :
    Simulates (C.running H) p (ofEntries call inner n argument d)
      (ofEntries call' inner' m argument e) fun _ => Eq :=
  match d with
  | [] => by
    cases hde
    exact .pure h rfl
  | (k, v) :: d => by
    cases hde with
    | cons _ hvw hde =>
      unfold ofEntries
      refine (simulates_ofArgument hinner hcall h hnm argument v hvw).bind fun q x y l hq e => ?_
      subst e
      have hde₁ := Value.related_entries_mono (Comparison.Shown.mono l.1) hde
      exact (simulates_ofEntries hinner hcall hq (hnm.mono l.1) argument d hde₁).bind
        fun r xs ys _ hr e => .pure hr (congrArg ((k, x) :: ·) e)

end

variable (hinner : SimulateBuilders C H inner inner') (hcall : SimulateCalls C H call call')
include hinner hcall

theorem simulates_ofNamed {p : Stage (World σ) (World τ)} (h : (C.running H).holds p)
    {n m : NodeRef} (hnm : C.SameNode p.matching n m) {d e : List (Scalar × Value)}
    (hde : Dictionary.Match (Value.Related (C.Shown p.matching)) d e) :
    Simulates (C.running H) p (ofNamed call inner n d) (ofNamed call' inner' m e)
      fun _ => Eq := by
  induction d generalizing p e with
  | nil =>
    cases hde
    exact .pure h rfl
  | cons entry d ih =>
    cases hde with
    | @cons k v w _ e hvw hde =>
      unfold ofNamed
      refine (simulates_ofArgument hinner hcall h hnm k v hvw).bind fun q x y l hq same => ?_
      subst same
      have hde₁ := Value.related_entries_mono (Comparison.Shown.mono l.1) hde
      exact (ih hq (hnm.mono l.1) hde₁).bind
        fun r xs ys _ hr same => .pure hr (congrArg ((k, x) :: ·) same)

/-! ## Nodes and builders -/

theorem simulates_ofNode {p : Stage (World σ) (World τ)} (h : (C.running H).holds p)
    {n m : NodeRef} (hnm : C.Exports p.matching p.left.workspace p.right.workspace n m) :
    Simulates (C.running H) p (ofNode call inner n) (ofNode call' inner' m) fun _ => Eq :=
  simulates_ofNode_of h hnm.same hnm.flags
    (simulates_ofNamed hinner hcall h hnm.same hnm.arguments)

theorem simulates_ofNodes {p : Stage (World σ) (World τ)} (h : (C.running H).holds p)
    {d e : List (String × NodeRef)}
    (hde : Dictionary.Match (C.Exports p.matching p.left.workspace p.right.workspace) d e) :
    Simulates (C.running H) p (ofNodes call inner d) (ofNodes call' inner' e) fun _ => Eq := by
  induction d generalizing p e with
  | nil =>
    cases hde
    exact .pure h rfl
  | cons entry d ih =>
    cases hde with
    | @cons id n m _ e hnm hde =>
      unfold ofNodes
      refine (simulates_ofNode hinner hcall h hnm).bind fun q x y l hq same => ?_
      subst same
      have hde₁ := hde.mono fun _ _ hnm => hnm.later h.1 l.1 l.2.1 l.2.2.1
      exact (ih hq hde₁).bind fun r xs ys _ hr same => .pure hr (congrArg ((.str id, x) :: ·) same)

/-- Documents of related builders are equal. -/
theorem simulates_ofBuilder : SimulateBuilders C H (ofBuilder call inner)
    (ofBuilder call' inner') := by
  intro p b c h hbc
  unfold ofBuilder
  refine Run.workspace_bind ((simulates_ofNodes hinner hcall h ((h.1.pair hbc).1.nodes.mono
    fun _ _ hnm => .of_related h.1 hnm)).bind fun q x y l hq same => Run.workspace_bind
    (.pure hq ?_))
  have metadata := (hq.1.pair (l.1 _ _ hbc)).1.metadata
  unfold Stage.workspaces at metadata
  rw [same, metadata]

end

end Documents

end ProcessGraph
