import ProcessGraph.Proofs.Graph.Reachability

/-!
# Contracts of steps with a host

`Run.Ensures I w step Q`: run in `w`, the step leaves a world with the invariant `I` whose workspace
has grown, whether it fails or not, and if it returns a value then `Q` holds of the value and the
world. A building step ensures what its contract says (`Ensures.lift`), and an atomic step what its
body does if the invariant survives that the builder is rolled back (`Ensures.atomically`).

Documents are made by operations (`Documents.operates_within`), provided that the functions of the
host do nothing else (`Calls.Operate`). A node that gets a document has only nodes of its own builder
in its arguments (`Workspace.NativeNode`).
-/

set_option autoImplicit false

namespace ProcessGraph

variable {σ : Type}

namespace Run

variable {α β : Type}

def Ensures (I : World σ → Prop) (w : World σ) (step : Run σ α) (Q : α → World σ → Prop) : Prop :=
  I (step.run w).2 ∧ w.workspace.Grows (step.run w).2.workspace ∧
    ∀ a, (step.run w).1 = .ok a → Q a (step.run w).2

theorem run_atomically (b : BuilderRef) (body : Run σ α) (w : World σ) :
    (atomically b body).run w =
      match body.run w with
      | (.ok a, now) => (.ok a, now)
      | (.error e, now) =>
        (.error e, { now with workspace := w.workspace.rollBack b now.workspace }) := rfl

theorem run_liftM (step : Build α) (w : World σ) : (liftM step : Run σ α).run w =
    ((step.run w.workspace).1, { w with workspace := (step.run w.workspace).2 }) := rfl

section
variable {I : World σ → Prop} {w : World σ} {Q : α → World σ → Prop}

theorem Ensures.pure {a : α} (h : I w) (hq : Q a w) : Ensures I w (pure a) Q :=
  ⟨h, .refl _, fun _ e => by cases e; exact hq⟩

theorem Ensures.throw {e : Failure} (h : I w) : Ensures I w (throw e) Q :=
  ⟨h, .refl _, fun _ e => nomatch e⟩

theorem Ensures.bind {step : Run σ β} {f : β → Run σ α} {R : β → World σ → Prop}
    (h : Ensures I w step R)
    (hf : ∀ b now, I now → w.workspace.Grows now.workspace → R b now → Ensures I now (f b) Q) :
    Ensures I w (step >>= f) Q :=
  bind_ensures (R := fun w now : World σ => w.workspace.Grows now.workspace)
    Workspace.Grows.trans h hf

theorem Ensures.mono {step : Run σ α} {Q' : α → World σ → Prop} (h : Ensures I w step Q)
    (hq : ∀ a now, I now → w.workspace.Grows now.workspace → Q a now → Q' a now) :
    Ensures I w step Q' :=
  ⟨h.1, h.2.1, fun a e => hq a _ h.1 h.2.1 (h.2.2 a e)⟩

theorem Ensures.of_run {step : Run σ α} {a : α} {now : World σ} (h : Ensures I w step Q)
    (run : step.run w = (.ok a, now)) : I now ∧ w.workspace.Grows now.workspace ∧ Q a now := by
  obtain ⟨hi, g, hq⟩ := h
  rw [run] at hi g hq
  exact ⟨hi, g, hq a rfl⟩

theorem Ensures.workspace_bind {f : Workspace → Run σ α} (h : Ensures I w (f w.workspace) Q) :
    Ensures I w (Run.workspace >>= f) Q := h

/-- A building step leaves the host alone. -/
theorem Ensures.lift {J : Workspace → Prop} {step : Build α} {Q : α → Workspace → Prop}
    (h : Build.Ensures J w.workspace step Q) (hi : ∀ ws, J ws → I ⟨ws, w.host⟩) :
    Ensures I w (liftM step) fun a now => Q a now.workspace := ⟨hi _ h.1, h.2⟩

theorem Ensures.ite {c : Prop} [Decidable c] {step step' : Run σ α}
    (h : c → Ensures I w step Q) (h' : ¬ c → Ensures I w step' Q) :
    Ensures I w (if c then step else step') Q := by
  split
  · exact h ‹_›
  · exact h' ‹_›

theorem Ensures.atomically {b : BuilderRef} {body : Run σ α} (h : Ensures I w body Q)
    (hws : w.workspace.WellFormed) (hb : b.index < w.workspace.builders.size)
    (back : ∀ now, I now → w.workspace.Grows now.workspace →
      I { now with workspace := w.workspace.rollBack b now.workspace }) :
    Ensures I w (atomically b body) Q := by
  obtain ⟨hi, g, hq⟩ := h
  unfold Ensures
  rw [run_atomically]
  rcases hrun : body.run w with ⟨e | a, now⟩
  · rw [hrun] at hi g
    exact ⟨back now hi g, g.trans (Workspace.grows_rollBack hws g hb), fun _ e => nomatch e⟩
  · rw [hrun] at hi g hq
    exact ⟨hi, g, hq⟩

end

end Run

/-! ## Building steps as operations -/

namespace Build

variable {α : Type} {base ws : Workspace}

/-- An operation with a contract is a step, and keeps its contract. -/
theorem Ensures.operation {I : Workspace → Prop} {step : Build α} {Q : α → Workspace → Prop}
    (h : base.Steps ws) (op : ws.Operation (step.run ws).2) (hs : Ensures I ws step Q) :
    Ensures base.Steps ws step Q :=
  ⟨.operation h op, hs.2⟩

end Build

/-! ## Nodes of the same builder -/

namespace Workspace

/-- All nodes among the references belong to the builder of the node. -/
def Native (ws : Workspace) (n : NodeRef) (rs : List Ref) : Prop :=
  ∀ m, Ref.node m ∈ rs → (ws.node m).builder = (ws.node n).builder

/-- All nodes in the arguments of the node belong to its builder. -/
def NativeNode (ws : Workspace) (n : NodeRef) : Prop :=
  ws.Native n (Value.refsInEntries (ws.node n).arguments)

section
variable {ws now : Workspace} {n : NodeRef}

/-- Nodes stay with their builder, so it does not matter when they are looked at. -/
theorem Native.of_grow {rs : List Ref} (h : now.Native n rs) (g : ws.Grows now)
    (hn : n.index < ws.nodes.size) (hrs : ∀ r ∈ rs, r.Within ws) : ws.Native n rs := by
  intro m hm
  rw [← (g.node m (hrs _ hm)).builder, ← (g.node n hn).builder]
  exact h m hm

theorem NativeNode.of_grow (h : now.NativeNode n) (g : ws.Grows now) (wf : ws.WellFormed)
    (hn : n.index < ws.nodes.size) : ws.NativeNode n := by
  unfold NativeNode at h ⊢
  rw [(g.node n hn).arguments] at h
  exact h.of_grow g hn fun r hr => ((wf.node n hn).arguments r hr).1

end

end Workspace

/-! ## Documents -/

/-- The step is made of operations. -/
def Run.Operates {α : Type} (w : World σ) (step : Run σ α) (Q : α → World σ → Prop) : Prop :=
  Run.Ensures (fun now => w.workspace.Steps now.workspace) w step Q

/-- Calls of functions are made of operations, and what they return exists. -/
def Calls.Operate (call : Callback → List Value → Run σ Value) : Prop :=
  ∀ w f arguments, w.workspace.WellFormed → (∀ v ∈ arguments, v.Within w.workspace) →
    Run.Operates w (call f arguments) fun v now => v.Within now.workspace

/-- Builders are exported by operations. -/
def Builders.Operate (inner : BuilderRef → Run σ Value) : Prop :=
  ∀ w b, w.workspace.WellFormed → b.index < w.workspace.builders.size →
    Run.Operates w (inner b) fun _ _ => True

/-- What is made of operations after others. -/
theorem Run.Operates.after {α : Type} {base : Workspace} {w : World σ} {step : Run σ α}
    {Q : α → World σ → Prop} (hs : Run.Operates w step Q) (h : base.Steps w.workspace) :
    Run.Ensures (fun now => base.Steps now.workspace) w step Q :=
  ⟨h.trans hs.1, hs.2⟩

/-- An atomic step is made of operations if its body is. -/
theorem Run.Operates.atomically {α : Type} {w : World σ} {b : BuilderRef} {body : Run σ α}
    {Q : α → World σ → Prop} (hbody : Run.Operates w body Q) (h : w.workspace.WellFormed)
    (hb : b.index < w.workspace.builders.size) : Run.Operates w (Run.atomically b body) Q :=
  Run.Ensures.atomically hbody h hb fun _ h' _ => (Workspace.Steps.refl _).rollBack h' hb

theorem Callback.mem_of_mem_accepted {f : Callback} {arguments : List Value} {v : Value}
    (h : v ∈ f.accepted arguments) : v ∈ arguments := by
  unfold accepted at h
  split at h
  · exact h
  · exact List.mem_of_mem_take h

namespace Documents

/-- The document of a builder with the documents of its nodes. -/
def assemble (graph : List (Scalar × Value)) (metadata : Metadata) : Value :=
  .object (("process_graph", .dict graph) :: metadata.fields.filter fun p =>
    match p.2 with
    | .null => false
    | _ => true)

/-- The nodes are those from the beginning, the metadata those from the end. -/
theorem run_ofBuilder (call : Callback → List Value → Run σ Value)
    (inner : BuilderRef → Run σ Value) (b : BuilderRef) (w : World σ) :
    (ofBuilder call inner b).run w =
      match (ofNodes call inner (w.workspace.builder b).nodes).run w with
      | (.ok graph, now) => (.ok (assemble graph (now.workspace.builder b).metadata), now)
      | (.error e, now) => (.error e, now) := by
  unfold ofBuilder
  refine (run_bind_state (ofNodes call inner (w.workspace.builder b).nodes) _ w).trans ?_
  generalize (ofNodes call inner (w.workspace.builder b).nodes).run w = result
  obtain ⟨e | graph, now⟩ := result <;> rfl

section
variable {base ws : Workspace} (hbase : base.WellFormed) (h : base.Steps ws)
include hbase h

theorem ensures_callbackBuilder {n : NodeRef} (hn : n.index < ws.nodes.size) (argument : Scalar) :
    Build.Ensures base.Steps ws (callbackBuilder n argument) fun child now =>
      child.index < now.builders.size := by
  have wf := (h.appends hbase).wellFormed
  have owner := (wf.node n hn).owner
  unfold callbackBuilder
  refine .get_bind (.bind (R := fun child now => child.index < now.builders.size)
    ⟨.operation h (.createChild owner hn argument), ws.grows_newBuilder _, fun _ e => ?_⟩
    fun child now h₁ g₁ hc => ?_)
  · cases e
    show ws.builders.size < (ws.builders.push _).size
    simp
  · refine .bind (R := fun _ after => after.builders = now.builders)
      ⟨.operation h₁ (.setCallbackBuilder n argument child), now.grows_modifyNode n fun _ =>
        ⟨rfl, rfl, rfl, rfl, rfl, rfl⟩, fun _ _ => rfl⟩ fun _ after h₂ g₂ e => .pure h₂ ?_
    exact e ▸ hc

theorem ensures_wrapList {b : BuilderRef} (hb : b.index < ws.builders.size) {v : Value}
    (hv : v.Within ws) :
    Build.Ensures base.Steps ws (wrapList b v) fun v now => v.Within now := by
  have ext := (h.appends hbase).wellFormed.extends (fun _ => True) fun _ => True
  have wrapped : ∀ {vs : List Value}, Value.Within ws (.list vs) →
      Build.Ensures base.Steps ws (do
        return .node (← Build.invoke b (ws.builder b).settings.arrayCreateProcess
          (.list [.list vs])) : Build Value) fun v now => v.Within now := fun {vs} hvs => by
    have inside : Value.Within ws (.list [.list vs]) := by
      intro r hr
      obtain ⟨w, hw, hr⟩ := Value.mem_refs_list.1 hr
      exact hvs r (List.mem_singleton.1 hw ▸ hr)
    refine (Build.Ensures.operation h (.invoke hb _ inside .null none)
      (Build.ensures_invoke ext ⟨hb, .inl trivial, .inl trivial⟩ _ inside .null none)).bind
      fun n now h₁ _ ⟨is, _⟩ => .pure h₁ (Value.within_node.2 is.within)
  unfold wrapList
  refine .get_bind ?_
  dsimp only
  split
  · exact .ite (fun _ => wrapped hv) fun _ => .pure h hv
  · exact .ite (fun _ => wrapped hv) fun _ => .pure h hv
  · exact .pure h hv

omit hbase in
theorem ensures_resultNode (b : BuilderRef) (argument : Scalar) (process : String) (v : Value) :
    Build.Ensures base.Steps ws (resultNode b argument process v) fun n _ => v = .node n := by
  unfold resultNode
  split
  · exact .get_bind (.ite (fun _ => .pure h rfl) fun _ => .throw h)
  · exact .throw h

end

theorem ensures_setResult (n : NodeRef) (v : Value) {base ws : Workspace} (h : base.Steps ws) :
    Build.Ensures base.Steps ws (Build.setResult n v) fun _ _ => True :=
  .operation h (.setResult n v) (.change (I := fun _ => True) trivial
    (ws.grows_modifyNode n fun _ => ⟨rfl, rfl, rfl, rfl, rfl, rfl⟩) trivial)

theorem ensures_record (r : Log.Record) {base ws : Workspace} (h : base.Steps ws) :
    Build.Ensures base.Steps ws (Build.log r) fun _ _ => True :=
  .operation h (.records _ _) (.change (I := fun _ => True) trivial (ws.grows_addRecord r) trivial)

section
variable {call : Callback → List Value → Run σ Value} (hcall : Calls.Operate call)
  {inner : BuilderRef → Run σ Value} (hinner : Builders.Operate inner)
  {w : World σ} (h : w.workspace.WellFormed) {n : NodeRef} (hn : n.index < w.workspace.nodes.size)
include hinner h hn

theorem operates_ofFormula (argument : Scalar) {f : FormulaRef}
    (hf : f.index < w.workspace.formulas.size) :
    Run.Operates w (ofFormula inner n argument f) fun _ _ => True := by
  unfold ofFormula
  refine (Run.Ensures.lift (ensures_callbackBuilder h (.refl _) hn argument) fun _ => id).bind
    fun child now h₁ g₁ hc => ?_
  have set : Build.Ensures w.workspace.Steps now.workspace (Build.setFormulaBuilder f child)
      fun _ after => (after.formula f).builder = some child :=
    .operation h₁ (.setFormulaBuilder f hc) (.change (I := fun _ => True) trivial
      (now.workspace.grows_modifyFormula f fun _ => ⟨rfl, rfl⟩) (by
        rw [Workspace.formula_modifyFormula, if_pos ⟨rfl, Nat.lt_of_lt_of_le hf g₁.formulas⟩]))
  refine (Run.Ensures.lift set fun _ => id).bind fun _ after h₂ g₂ hb => ?_
  have inside : ∀ b ∈ (after.workspace.formula f).builder,
      b.index < after.workspace.builders.size := by
    intro b e
    rw [hb] at e
    cases e
    exact Nat.lt_of_lt_of_le hc g₂.builders
  have generate := Build.Ensures.operation h₂ (.generate f inside true)
    (Build.ensures_generate_appends (h₂.appends h).wellFormed.appends inside true)
  refine (Run.Ensures.lift generate fun _ => id).bind fun _ last h₃ g₃ _ => ?_
  have hc₃ := Nat.lt_of_lt_of_le hc (g₂.trans g₃).builders
  exact (hinner last child (h₃.appends h).wellFormed hc₃).after h₃

include hcall

theorem operates_ofCallback (argument : Scalar) (f : Callback) :
    Run.Operates w (ofCallback call inner n argument f) fun _ _ => True := by
  unfold ofCallback
  refine (Run.Ensures.lift (ensures_callbackBuilder h (.refl _) hn argument) fun _ => id).bind
    fun child now h₁ g₁ hc => ?_
  have ext := (h₁.appends h).wellFormed.extends (fun _ => True) fun _ => True
  refine (Run.Ensures.lift (.operation h₁ (.parentParameters hc)
    (Build.ensures_parentParameters ext hc)) fun _ => id).bind
    fun parameters after h₂ g₂ ⟨_, names, _, found⟩ => .workspace_bind ?_
  refine (Run.Ensures.lift (ensures_record _ h₂) fun _ => id).bind fun _ last h₃ g₃ _ => ?_
  have wf := (h₃.appends h).wellFormed
  have hc₃ := Nat.lt_of_lt_of_le hc (g₂.trans g₃).builders
  have arguments : ∀ v ∈ f.accepted (.builder child :: parameters.map .access),
      v.Within last.workspace := by
    intro v hv
    rcases List.mem_cons.1 (Callback.mem_of_mem_accepted hv) with rfl | hv
    · exact Value.within_builder.2 hc₃
    · obtain ⟨a, ha, rfl⟩ := List.mem_map.1 hv
      obtain ⟨_, _, is⟩ := exists_of_forall₂_of_mem found ha
      exact Value.within_access.2 (Nat.lt_of_lt_of_le is.within g₃.accesses)
  -- The block is made of operations that begin where it begins.
  have body : Run.Operates last (do
      let v ← call f (f.accepted (.builder child :: parameters.map .access))
      let v ← wrapList child v
      let result ← resultNode child argument (after.workspace.node n).process v
      Build.setResult result (.bool true)
      inner child) fun _ _ => True := by
    refine (hcall last f _ wf arguments).bind fun v w₄ h₄ g₄ hv => ?_
    have hc₄ := Nat.lt_of_lt_of_le hc₃ g₄.builders
    refine (Run.Ensures.lift (ensures_wrapList wf h₄ hc₄ hv) fun _ => id).bind
      fun v w₅ h₅ g₅ _ => ?_
    refine (Run.Ensures.lift (ensures_resultNode h₅ child argument _ v) fun _ => id).bind
      fun result w₆ h₆ g₆ _ => ?_
    refine (Run.Ensures.lift (ensures_setResult result _ h₆) fun _ => id).bind
      fun _ w₇ h₇ g₇ _ => ?_
    have hc₇ := Nat.lt_of_lt_of_le hc₄ ((g₅.trans g₆).trans g₇).builders
    exact (hinner w₇ child (h₇.appends wf).wellFormed hc₇).after h₇
  exact (body.atomically wf hc₃).after h₃

/-- A node is exported only if it belongs to the same builder. -/
theorem operates_ofObject (argument : Scalar) {v : Value} (hv : v.Within w.workspace) :
    Run.Operates w (ofObject call inner n argument v) fun _ _ => ∀ m, v = .node m →
      (w.workspace.node m).builder = (w.workspace.node n).builder := by
  have noNode {v : Value} {step : Run σ Value} (made : Run.Operates w step fun _ _ => True)
      (other : ∀ m, v ≠ .node m) : Run.Operates w step fun _ _ => ∀ m, v = .node m →
        (w.workspace.node m).builder = (w.workspace.node n).builder :=
    made.mono fun _ _ _ _ _ m e => absurd e (other m)
  unfold ofObject
  split
  · refine .workspace_bind (.ite (fun same => .pure (.refl _) ?_) fun _ => .throw (.refl _))
    rintro _ ⟨⟩
    exact same
  · exact noNode (.workspace_bind (.pure (.refl _) trivial)) nofun
  · exact noNode (.workspace_bind (.pure (.refl _) trivial)) nofun
  · exact noNode (operates_ofFormula hinner h hn argument (Value.within_formula.1 hv)) nofun
  · exact noNode (hinner w _ h (Value.within_builder.1 hv)) nofun
  · exact noNode (operates_ofCallback hcall hinner h hn argument _) nofun
  · rename_i other _ _ _ _ _
    exact noNode (.pure (.refl _) trivial) other

end

section
variable {call : Callback → List Value → Run σ Value} {inner : BuilderRef → Run σ Value}

mutual

theorem operates_ofArgument (hcall : Calls.Operate call) (hinner : Builders.Operate inner)
    {w : World σ} (h : w.workspace.WellFormed) {n : NodeRef}
    (hn : n.index < w.workspace.nodes.size) (argument : Scalar) :
    ∀ v : Value, v.Within w.workspace →
      Run.Operates w (ofArgument call inner n argument v) fun _ _ => w.workspace.Native n v.refs
  | .list vs, hv => by
    unfold ofArgument
    refine (operates_ofArguments hcall hinner h hn argument vs (Value.within_list.1 hv)).bind
      fun _ _ h₁ _ all => .pure h₁ fun m hm => ?_
    obtain ⟨v, hv, hm⟩ := Value.mem_refs_list.1 hm
    exact all v hv m hm
  | .tuple vs, hv => by
    unfold ofArgument
    refine (operates_ofArguments hcall hinner h hn argument vs (Value.within_tuple.1 hv)).bind
      fun _ _ h₁ _ all => .pure h₁ fun m hm => ?_
    obtain ⟨v, hv, hm⟩ := Value.mem_refs_tuple.1 hm
    exact all v hv m hm
  | .dict d, hv => by
    unfold ofArgument
    refine (operates_ofEntries hcall hinner h hn argument d (Value.within_dict.1 hv)).bind
      fun _ _ h₁ _ all => .pure h₁ fun m hm => ?_
    obtain ⟨p, hp, hm⟩ := Value.mem_refs_dict.1 hm
    exact all p hp m hm
  | .node m, hv => by
    unfold ofArgument
    refine (operates_ofObject hcall hinner h hn argument hv).mono fun _ _ _ _ same m' hm => ?_
    cases List.mem_singleton.1 hm
    exact same m rfl
  | .parameter _, hv | .access _, hv | .builder _, hv | .formula _, hv | .catalog _, hv
  | .callback _, hv | .null, hv | .bool _, hv | .int _, hv | .float _, hv | .str _, hv => by
    unfold ofArgument
    refine (operates_ofObject hcall hinner h hn argument hv).mono fun _ _ _ _ _ m hm => ?_
    simp [Value.refs] at hm

theorem operates_ofArguments (hcall : Calls.Operate call) (hinner : Builders.Operate inner)
    {w : World σ} (h : w.workspace.WellFormed) {n : NodeRef}
    (hn : n.index < w.workspace.nodes.size) (argument : Scalar) :
    ∀ vs : List Value, (∀ v ∈ vs, v.Within w.workspace) →
      Run.Operates w (ofArguments call inner n argument vs) fun _ _ =>
        ∀ v ∈ vs, w.workspace.Native n v.refs
  | [], _ => .pure (.refl _) nofun
  | v :: vs, hv => by
    unfold ofArguments
    refine (operates_ofArgument hcall hinner h hn argument v (hv v List.mem_cons_self)).bind
      fun _ now h₁ g₁ first => ?_
    have others := fun v hm => hv v (List.mem_cons_of_mem _ hm)
    refine ((operates_ofArguments hcall hinner (h₁.appends h).wellFormed
      (Nat.lt_of_lt_of_le hn g₁.nodes) argument vs fun v hm =>
        g₁.value_within (others v hm)).after h₁).bind
      fun _ _ h₂ _ rest => .pure h₂ (List.forall_mem_cons.2 ⟨first, fun v hm => ?_⟩)
    exact (rest v hm).of_grow g₁ hn (others v hm)

theorem operates_ofEntries (hcall : Calls.Operate call) (hinner : Builders.Operate inner)
    {w : World σ} (h : w.workspace.WellFormed) {n : NodeRef}
    (hn : n.index < w.workspace.nodes.size) (argument : Scalar) :
    ∀ d : List (Scalar × Value), Value.EntriesWithin w.workspace d →
      Run.Operates w (ofEntries call inner n argument d) fun _ _ =>
        ∀ p ∈ d, w.workspace.Native n p.2.refs
  | [], _ => .pure (.refl _) nofun
  | (k, v) :: d, hd => by
    unfold ofEntries
    refine (operates_ofArgument hcall hinner h hn argument v (hd (k, v) List.mem_cons_self)).bind
      fun _ now h₁ g₁ first => ?_
    have others := fun p hp => hd p (List.mem_cons_of_mem _ hp)
    refine ((operates_ofEntries hcall hinner (h₁.appends h).wellFormed
      (Nat.lt_of_lt_of_le hn g₁.nodes) argument d fun p hp =>
        g₁.value_within (others p hp)).after h₁).bind
      fun _ _ h₂ _ rest => .pure h₂ (List.forall_mem_cons.2 ⟨first, fun p hp => ?_⟩)
    exact (rest p hp).of_grow g₁ hn (others p hp)

end

variable (hcall : Calls.Operate call) (hinner : Builders.Operate inner)
include hcall hinner

theorem operates_ofNamed {w : World σ} (h : w.workspace.WellFormed) {n : NodeRef}
    (hn : n.index < w.workspace.nodes.size) :
    ∀ d : List (Scalar × Value), Value.EntriesWithin w.workspace d →
      Run.Operates w (ofNamed call inner n d) fun _ _ => ∀ p ∈ d, w.workspace.Native n p.2.refs
  | [], _ => .pure (.refl _) nofun
  | (name, v) :: d, hd => by
    unfold ofNamed
    refine (operates_ofArgument hcall hinner h hn name v (hd (name, v) List.mem_cons_self)).bind
      fun _ now h₁ g₁ first => ?_
    have others := fun p hp => hd p (List.mem_cons_of_mem _ hp)
    refine ((operates_ofNamed (h₁.appends h).wellFormed (Nat.lt_of_lt_of_le hn g₁.nodes) d
      fun p hp => g₁.value_within (others p hp)).after h₁).bind
      fun _ _ h₂ _ rest => .pure h₂ (List.forall_mem_cons.2 ⟨first, fun p hp => ?_⟩)
    exact (rest p hp).of_grow g₁ hn (others p hp)

theorem operates_ofNode {w : World σ} (h : w.workspace.WellFormed) {n : NodeRef}
    (hn : n.index < w.workspace.nodes.size) :
    Run.Operates w (ofNode call inner n) fun _ _ => w.workspace.NativeNode n := by
  unfold ofNode
  have inside : Value.EntriesWithin w.workspace (w.workspace.node n).arguments := fun p hp r hr =>
    ((h.node n hn).arguments r (Value.mem_refsInEntries.2 ⟨p, hp, hr⟩)).1
  refine .workspace_bind ((operates_ofNamed hcall hinner h hn _ inside).bind
    fun _ _ h₁ _ all => .workspace_bind (.pure h₁ fun m hm => ?_))
  obtain ⟨p, hp, hm⟩ := Value.mem_refsInEntries.1 hm
  exact all p hp m hm

theorem operates_ofNodes {w : World σ} (h : w.workspace.WellFormed) :
    ∀ nodes : List (String × NodeRef), (∀ p ∈ nodes, p.2.index < w.workspace.nodes.size) →
      Run.Operates w (ofNodes call inner nodes) fun _ _ =>
        ∀ p ∈ nodes, w.workspace.NativeNode p.2
  | [], _ => .pure (.refl _) nofun
  | (id, n) :: rest, hn => by
    unfold ofNodes
    refine (operates_ofNode hcall hinner h (hn (id, n) List.mem_cons_self)).bind
      fun _ now h₁ g₁ first => ?_
    have others := fun p hp => hn p (List.mem_cons_of_mem _ hp)
    refine ((operates_ofNodes (h₁.appends h).wellFormed rest fun p hp =>
      Nat.lt_of_lt_of_le (others p hp) g₁.nodes).after h₁).bind
      fun _ _ h₂ _ all => .pure h₂ (List.forall_mem_cons.2 ⟨first, fun p hp => ?_⟩)
    exact (all p hp).of_grow g₁ h (others p hp)

theorem operates_ofBuilder {w : World σ} (h : w.workspace.WellFormed) {b : BuilderRef}
    (hb : b.index < w.workspace.builders.size) :
    Run.Operates w (ofBuilder call inner b) fun _ _ =>
      ∀ p ∈ (w.workspace.builder b).nodes, w.workspace.NativeNode p.2 := by
  unfold ofBuilder
  exact .workspace_bind ((operates_ofNodes hcall hinner h _ fun p hp =>
    ((h.builder b hb).nodes p.1 p.2 hp).1).bind fun _ _ h₁ _ all =>
      .workspace_bind (.pure h₁ all))

end

/-- Documents are made of operations, for any depth of nesting, if the functions of the host do
nothing else. There are none for nodes with nodes of other builders in their arguments. -/
theorem operates_within {call : Documents σ → Callback → List Value → Run σ Value}
    (hcall : ∀ n, Calls.Operate (call (within call n))) (n : Nat) {w : World σ}
    (h : w.workspace.WellFormed) :
    (∀ b : BuilderRef, b.index < w.workspace.builders.size →
      Run.Operates w ((within call n).builder b) fun _ _ =>
        ∀ p ∈ (w.workspace.builder b).nodes, w.workspace.NativeNode p.2) ∧
    ∀ m : NodeRef, m.index < w.workspace.nodes.size →
      Run.Operates w ((within call n).node m) fun _ _ => w.workspace.NativeNode m := by
  induction n generalizing w with
  | zero => exact ⟨fun _ _ => .throw (.refl _), fun _ _ => .throw (.refl _)⟩
  | succ n ih =>
    have inner : ∀ (w : World σ) (b : BuilderRef), w.workspace.WellFormed →
        b.index < w.workspace.builders.size →
        Run.Operates w ((within call n).builder b) fun _ _ => True :=
      fun _ b h hb => ((ih h).1 b hb).mono fun _ _ _ _ _ => trivial
    exact ⟨fun b hb => operates_ofBuilder (hcall n) inner h hb,
      fun m hm => operates_ofNode (hcall n) inner h hm⟩

end Documents

end ProcessGraph
