import ProcessGraph.Proofs.Graph.ConfinedWork
import ProcessGraph.Proofs.Graph.FormulaGraphs
import ProcessGraph.Proofs.Graph.Traversal

/-!
# Functions that act on their builder only

A `Conduct` says which functions are modest. `Acts` is what a modest function may do: any operations
on the builder that is passed to it, whether they fail or not, blocks that are undone, and what its
owner does with their own state. It makes no documents, and to the nodes of the builder it gives
modest functions only (`Nests`).

When a builder with such nodes is exported, whatever functions are called on the way and however
deep, and whether something fails or not, the work is confined to new builders
(`Conduct.Governs.exports`).
-/

set_option autoImplicit false

namespace ProcessGraph

variable {σ : Type}

structure Conduct (σ : Type) where
  /-- One state of the owner may become another. -/
  later : σ → σ → Prop
  refl : ∀ h, later h h
  trans : ∀ {h h' h''}, later h h' → later h' h'' → later h h''
  modest : Workspace → σ → Nat → Prop
  lasts : ∀ {ws now : Workspace} {h h' : σ} {f : Nat}, ws.Grows now → later h h' →
    modest ws h f → modest now h' f

/-- The object may be exported with a builder: it makes no document of another one. -/
def Ref.Harmless (K : Conduct σ) (w : World σ) (b : BuilderRef) : Ref → Prop
  | callback f => K.modest w.workspace w.host f
  | builder c => c = b
  | _ => True

namespace Conduct

variable (K : Conduct σ)

inductive Acts (b : BuilderRef) : World σ → World σ → Prop
  | refl (w : World σ) : Acts b w w
  | operation {w now : World σ} {ws : Workspace} (h : Acts b w now)
      (op : now.workspace.InnerOperation b ws) : Acts b w { now with workspace := ws }
  | host {w now : World σ} {host : σ} (h : Acts b w now) (later : K.later now.host host) :
      Acts b w { now with host }
  | undone {w before now : World σ} (h : Acts b w before) (h' : Acts b before now) :
      Acts b w { now with workspace := before.workspace.rollBack b now.workspace }

/-- The nodes of the builder have harmless arguments. -/
def Nests (w : World σ) (b : BuilderRef) : Prop :=
  ∀ p ∈ (w.workspace.builder b).nodes,
    ∀ r ∈ Value.refsInEntries (w.workspace.node p.2).arguments, r.Harmless K w b

/-- A modest function that is given a new builder acts on it, and gives harmless arguments to its
nodes. If it returns a list, the same goes for the items, which become arguments. -/
def Governs (call : Documents σ → Callback → List Value → Run σ Value) : Prop :=
  ∀ (depth : Nat) {w : World σ} {b : BuilderRef} {f : Callback} {names : List Value}
    {accesses : List AccessRef}, w.workspace.WellFormed → b.index < w.workspace.builders.size →
    (w.workspace.builder b).nodes = [] → K.modest w.workspace w.host f.handle →
    w.workspace.parentNames b = .ok names →
    List.Forall₂ (w.workspace.IsCallbackParameter b) names accesses →
    ∀ {result : Except Failure Value} {now : World σ},
      (call (Documents.within call depth) f
        (f.accepted (.builder b :: accesses.map .access))).run w = (result, now) →
      K.Acts b w now ∧ ∀ v, result = .ok v → K.Nests now b ∧ ∀ vs, v = .list vs ∨ v = .tuple vs →
        ∀ x ∈ vs, x.Within now.workspace ∧ ∀ r ∈ x.refs, r.Harmless K now b

/-- The work is confined, and the owner of the functions has got on. -/
structure Stays (content : Prop) (root b : BuilderRef) (w now : World σ) : Prop extends
    Workspace.Confined content root b w.workspace now.workspace where
  later : K.later w.host now.host

def Keeps {α : Type} (content : Prop) (root b : BuilderRef) (w : World σ) (step : Run σ α)
    (Q : α → World σ → Prop) : Prop := Run.Ensures (K.Stays content root b w) w step Q

end Conduct

variable {K : Conduct σ} {content : Prop} {root b : BuilderRef} {w now after : World σ}

theorem Ref.Harmless.later {r : Ref} (h : r.Harmless K w b)
    (g : w.workspace.Grows now.workspace) (later : K.later w.host now.host) :
    r.Harmless K now b := by
  cases r with
  | callback f => exact K.lasts g later h
  | _ => exact h

/-- What a formula refers to is harmless. -/
theorem Ref.Plain.harmless {r : Ref} (h : r.Plain w.workspace b) : r.Harmless K w b := by
  cases r with
  | callback _ | builder _ => exact h.elim
  | _ => exact trivial

namespace Conduct

/-! ## Confined work with a host -/

theorem Stays.refl (wf : w.workspace.WellFormed) : K.Stays content root b w w :=
  ⟨.refl wf, K.refl _⟩

theorem Stays.trans (h : K.Stays content root b w now) (h' : K.Stays content root b now after) :
    K.Stays content root b w after :=
  ⟨h.toConfined.trans h'.toConfined, K.trans h.later h'.later⟩

theorem Stays.ofBuild {ws : Workspace} (h : w.workspace.Confined content root b ws) :
    K.Stays content root b w { w with workspace := ws } := ⟨h, K.refl _⟩

theorem Stays.under (h : K.Stays content root b w now) (hb : w.workspace.Under root b) :
    now.workspace.Under root b := hb.grow h.start h.grows

theorem Stays.rollBack {before : World σ} (h : K.Stays True root b w before)
    (h' : K.Stays True root b before now) (hb : before.workspace.Under root b) :
    K.Stays True root b w
      { now with workspace := before.workspace.rollBack b now.workspace } :=
  ⟨h.toConfined.rollBack h'.toConfined hb, K.trans h.later h'.later⟩

/-- What a modest function does is confined to its builder. -/
theorem Acts.stays (acts : K.Acts b w now) (wf : w.workspace.WellFormed)
    (hb : w.workspace.Under root b) : K.Stays True root b w now := by
  induction acts with
  | refl w => exact .refl wf
  | operation _ op ih =>
    have h := ih wf hb
    exact h.trans (.ofBuild (op.confined h.wellFormed (h.under hb)))
  | host _ later ih =>
    have h := ih wf hb
    exact ⟨h.toConfined, K.trans h.later later⟩
  | undone _ _ ih ih' =>
    have h := ih wf hb
    exact h.rollBack (ih' h.wellFormed (h.under hb)) (h.under hb)

/-- Where only new builders get nodes, those of the builder stay as they are. -/
theorem Stays.nodes_eq (h : K.Stays False root b w now)
    {c : BuilderRef} (hc : c.index < w.workspace.builders.size) :
    (now.workspace.builder c).nodes = (w.workspace.builder c).nodes ∧
      (now.workspace.builder c).counters = (w.workspace.builder c).counters :=
  ((h.keeps w.workspace (h.start.extends _ _) nofun).kept.content c hc).untouched.resolve_left id

theorem Nests.of_stays (nests : K.Nests w b) (hb : b.index < w.workspace.builders.size)
    (h : K.Stays False root b w now) : K.Nests now b := by
  intro p hp r hr
  rw [(h.nodes_eq hb).1] at hp
  have old := ((h.start.builder b hb).nodes p.1 p.2 hp).1
  rw [(h.grows.node p.2 old).arguments] at hr
  exact (nests p hp r hr).later h.grows h.later

theorem Nests.of_plain (plain : w.workspace.PlainNodes b) : K.Nests w b :=
  fun p hp r hr => (plain p hp r hr).harmless

/-! ## Rules -/

section
variable {α β : Type} {step : Run σ α} {Q : α → World σ → Prop}

theorem Keeps.bind {step : Run σ β} {f : β → Run σ α} {R : β → World σ → Prop}
    (h : K.Keeps content root b w step R)
    (hf : ∀ x now, K.Stays content root b w now → R x now →
      K.Keeps content root b now (f x) Q) : K.Keeps content root b w (step >>= f) Q :=
  Run.Ensures.bind h fun x now h₁ _ hr =>
    have next := hf x now h₁ hr
    ⟨h₁.trans next.1, next.2⟩

theorem Keeps.lift {step : Build α} {Q : α → Workspace → Prop}
    (h : Build.Ensures (w.workspace.Confined content root b) w.workspace step Q) :
    K.Keeps content root b w (liftM step) fun a now => Q a now.workspace :=
  Run.Ensures.lift h fun _ => .ofBuild

theorem Keeps.atomically (wf : w.workspace.WellFormed) (hb : w.workspace.Under root b)
    (h : K.Keeps True root b w step Q) : K.Keeps True root b w (Run.atomically b step) Q :=
  Run.Ensures.atomically h wf hb.within fun _ h₁ _ => (Stays.refl wf).rollBack h₁ hb

end

/-! ## Steps that are undone if they fail -/

/-- The work is confined to the builder, and if it fails then the builder is as it was. -/
structure Undoes {α : Type} (K : Conduct σ) (root b : BuilderRef) (w : World σ) (step : Run σ α) :
    Prop where
  keeps : K.Keeps True root b w step fun _ _ => True
  undone : ∀ e now, step.run w = (.error e, now) → w.workspace.Undone now.workspace b

section
variable {α β : Type} {step : Run σ α}

theorem Undoes.atomically (wf : w.workspace.WellFormed) (hb : w.workspace.Under root b)
    (h : K.Keeps True root b w step fun _ _ => True) :
    K.Undoes root b w (Run.atomically b step) where
  keeps := h.atomically wf hb
  undone e now run := by
    rw [Run.run_atomically] at run
    have g := h.2.1
    rcases ended : step.run w with ⟨e' | a, after⟩ <;> rw [ended] at run g <;> cases run
    exact Workspace.undone_rollBack wf g hb.within

/-- Before, at most callback parameters may be made. -/
theorem Undoes.lift_bind {step : Build β} {f : β → Run σ α} {R : β → Workspace → Prop}
    (wf : w.workspace.WellFormed) (hb : w.workspace.Under root b)
    (h : Build.Ensures (w.workspace.Confined True root b) w.workspace step R)
    (same : w.workspace.SameContents (step.run w.workspace).2)
    (hf : ∀ x now, K.Stays True root b w now → R x now.workspace → K.Undoes root b now (f x)) :
    K.Undoes root b w (liftM step >>= f) where
  keeps := (Keeps.lift h).bind fun x now h₁ hr => (hf x now h₁ hr).keeps
  undone e now run := by
    rw [run_bind_state, Run.run_liftM] at run
    obtain ⟨h₁, g, made⟩ := h
    rcases ended : (step.run w.workspace).1 with e' | x <;> rw [ended] at run
    · cases run
      exact same.undone wf g hb.within ⟨rfl, rfl, rfl⟩
    · exact same.undone wf g hb.within ((hf x _ (.ofBuild h₁) (made x ended)).undone e now run)

theorem Undoes.workspace_bind {f : Workspace → Run σ α}
    (h : K.Undoes root b w (f w.workspace)) : K.Undoes root b w (Run.workspace >>= f) := ⟨h.1, h.2⟩

end

/-! ## Exports -/

/-- The documents of builders with harmless nodes are confined. -/
def Exports (K : Conduct σ) (inner : BuilderRef → Run σ Value) : Prop :=
  ∀ (w : World σ) (root b : BuilderRef), w.workspace.WellFormed → w.workspace.Under root b →
    K.Nests w b → K.Keeps False root b w (inner b) fun _ _ => True

/-- What a call of a function leaves is confined to the builder that was passed to it. -/
def SafeCalls (K : Conduct σ) (call : Callback → List Value → Run σ Value) : Prop :=
  ∀ (w : World σ) (root b : BuilderRef) (f : Callback) (names : List Value)
    (accesses : List AccessRef), w.workspace.WellFormed → w.workspace.Under root b →
    (w.workspace.builder b).nodes = [] → K.modest w.workspace w.host f.handle →
    w.workspace.parentNames b = .ok names →
    List.Forall₂ (w.workspace.IsCallbackParameter b) names accesses →
    K.Keeps True root b w (call f (f.accepted (.builder b :: accesses.map .access)))
      fun v now => K.Nests now b ∧ ∀ vs, v = .list vs ∨ v = .tuple vs →
        ∀ x ∈ vs, x.Within now.workspace ∧ ∀ r ∈ x.refs, r.Harmless K now b

theorem Governs.safeCalls {call : Documents σ → Callback → List Value → Run σ Value}
    (governed : K.Governs call) (depth : Nat) :
    K.SafeCalls (call (Documents.within call depth)) := by
  intro w root b f names accesses wf hb nodes hf hnames has
  obtain ⟨acts, returned⟩ := governed depth wf hb.within nodes hf hnames has rfl
  have stays := acts.stays wf hb
  exact ⟨stays, stays.grows, returned⟩

theorem Keeps.weaken {α : Type} {step : Run σ α} {Q : α → World σ → Prop}
    (h : K.Keeps False root b w step Q) : K.Keeps content root b w step Q :=
  ⟨⟨h.1.toConfined.weaken, h.1.later⟩, h.2⟩

section
variable {call : Callback → List Value → Run σ Value} {inner : BuilderRef → Run σ Value}
  (hinner : K.Exports inner) (wf : w.workspace.WellFormed)
include hinner wf

section
variable (hb : w.workspace.Under root b)
include hb

/-- From the call of a function to the document of its builder. -/
theorem keeps_lowering (hcall : K.SafeCalls call) (nodes : (w.workspace.builder b).nodes = [])
    {f : Callback} (hf : K.modest w.workspace w.host f.handle) {names : List Value}
    {accesses : List AccessRef} (hnames : w.workspace.parentNames b = .ok names)
    (has : List.Forall₂ (w.workspace.IsCallbackParameter b) names accesses) (argument : Scalar)
    (process : String) :
    K.Keeps True root b w (do
      let v ← call f (f.accepted (.builder b :: accesses.map .access))
      let v ← Documents.wrapList b v
      let result ← Documents.resultNode b argument process v
      Build.setResult result (.bool true)
      inner b) fun _ _ => True := by
  refine (hcall w root b f names accesses wf hb nodes hf hnames has).bind
    fun v w₁ h₁ ⟨nests, hv⟩ => ?_
  have hb₁ := h₁.under hb
  refine .bind (.lift (Build.confined_wrapList h₁.wellFormed hb₁ nests hv)) fun v w₂ h₂ meet₂ => ?_
  have hb₂ := h₂.under hb₁
  refine .bind (.lift (Build.confined_resultNode h₂.wellFormed meet₂ argument process v))
    fun n w₃ h₃ ⟨own, meet₃⟩ => ?_
  have hb₃ := h₃.under hb₂
  refine .bind (.lift (Build.confined_setResult h₃.wellFormed hb₃ meet₃ own _))
    fun _ w₄ h₄ meet₄ => ?_
  have g := (h₂.trans h₃).trans h₄
  exact (hinner w₄ root b h₄.wellFormed (h₄.under hb₃) fun p hp r hr =>
    (meet₄ p hp r hr).later g.grows g.later).weaken

end

end

/-! ## Children -/

/-- What is done in the builder of a callback argument. -/
theorem Keeps.inChild {α : Type} (wf : w.workspace.WellFormed) {n : NodeRef}
    (hn : n.index < w.workspace.nodes.size) (argument : Scalar) {f : BuilderRef → Run σ α}
    {Q : α → World σ → Prop} (h : K.Keeps True root ⟨w.workspace.builders.size⟩
      { w with workspace := w.workspace.withChild n argument }
      (f ⟨w.workspace.builders.size⟩) Q) :
    K.Keeps False root (w.workspace.node n).builder w
      (liftM (Documents.callbackBuilder n argument) >>= f) Q := by
  have confined := h.1.toConfined.ofChild wf hn argument rfl
  exact ⟨⟨confined, h.1.later⟩, confined.grows, h.2.2⟩

end Conduct

namespace Documents

/-- What is done with a function as an argument once it has got its builder. -/
def lowerCallback (call : Callback → List Value → Run σ Value) (inner : BuilderRef → Run σ Value)
    (n : NodeRef) (argument : Scalar) (f : Callback) (child : BuilderRef) : Run σ Value := do
  let parameters ← Build.parentParameters child
  let ws ← Run.workspace
  let names := parameters.map fun a => (ws.accessParameter a).name
  Build.log (.debug Log.nodeLogger ("Lowering callback for " ++ (ws.node n).id ++ "." ++
    argument.display ++ " with parameters " ++ ws.literal (.list names)))
  Run.atomically child do
    let v ← call f (f.accepted (.builder child :: parameters.map .access))
    let v ← wrapList child v
    let result ← resultNode child argument (ws.node n).process v
    Build.setResult result (.bool true)
    inner child

theorem ofCallback_eq (call : Callback → List Value → Run σ Value)
    (inner : BuilderRef → Run σ Value) (n : NodeRef) (argument : Scalar) (f : Callback) :
    ofCallback call inner n argument f =
      (do
        let child ← callbackBuilder n argument
        lowerCallback call inner n argument f child) := rfl

end Documents

namespace Conduct

section
variable {call : Callback → List Value → Run σ Value} {inner : BuilderRef → Run σ Value}
  (hinner : K.Exports inner) (wf : w.workspace.WellFormed)
include hinner wf

theorem undoes_lowerCallback (hcall : K.SafeCalls call) (hb : w.workspace.Under root b)
    (nodes : (w.workspace.builder b).nodes = []) (n : NodeRef) (argument : Scalar) {f : Callback}
    (hf : K.modest w.workspace w.host f.handle) :
    K.Undoes root b w (Documents.lowerCallback call inner n argument f b) := by
  unfold Documents.lowerCallback
  refine .lift_bind wf hb (Build.confined_parentParameters wf hb)
    (Build.sameContents_parentParameters b _)
    fun accesses w₁ h₁ ⟨same, names, hnames, has⟩ => .workspace_bind ?_
  have hb₁ := h₁.under hb
  refine .lift_bind h₁.wellFormed hb₁ (Build.confined_log h₁.wellFormed _) (.refl _)
    fun _ w₂ h₂ recorded => ?_
  have hb₂ := h₂.under hb₁
  refine .atomically h₂.wellFormed hb₂ ?_
  have begun := h₁.trans h₂
  refine keeps_lowering hinner h₂.wellFormed hb₂ hcall ?_ (K.lasts begun.grows begun.later hf) ?_
    (has.imp fun _ _ is => is.grow h₁.wellFormed h₂.grows) argument _
  · rw [recorded]
    exact same.trans nodes
  · rw [recorded]
    exact hnames

variable {n : NodeRef} (hn : n.index < w.workspace.nodes.size)
  (hb : w.workspace.Under root (w.workspace.node n).builder) (argument : Scalar)
include hn hb

/-- A function as an argument, from the workspace with its builder on. -/
theorem undoes_newChild (hcall : K.SafeCalls call) {f : Callback}
    (hf : K.modest w.workspace w.host f.handle) :
    K.Undoes root ⟨w.workspace.builders.size⟩
      { w with workspace := w.workspace.withChild n argument }
      (Documents.lowerCallback call inner n argument f ⟨w.workspace.builders.size⟩) := by
  have appends := (Workspace.Steps.withChild wf hn argument).appends wf
  have hc := Workspace.Under.child wf argument hb hn
  have nodes := congrArg Builder.nodes (w.workspace.builder_withChild_self n argument)
  have modest := K.lasts appends.grows (K.refl w.host) hf
  exact undoes_lowerCallback (w := { w with workspace := w.workspace.withChild n argument }) hinner
    appends.wellFormed hcall hc nodes n argument modest

theorem keeps_ofCallback (hcall : K.SafeCalls call) {f : Callback}
    (hf : K.modest w.workspace w.host f.handle) :
    K.Keeps False root (w.workspace.node n).builder w (Documents.ofCallback call inner n argument f)
      fun _ _ => True := by
  rw [Documents.ofCallback_eq]
  exact .inChild wf hn argument (undoes_newChild hinner wf hn hb argument hcall hf).keeps

theorem keeps_ofFormula {f : FormulaRef} (hf : f.index < w.workspace.formulas.size) :
    K.Keeps False root (w.workspace.node n).builder w (Documents.ofFormula inner n argument f)
      fun _ _ => True := by
  have appends := (Workspace.Steps.withChild wf hn argument).appends wf
  have hc := Workspace.Under.child wf argument hb hn
  have nodes := congrArg Builder.nodes (w.workspace.builder_withChild_self n argument)
  unfold Documents.ofFormula
  refine .inChild wf hn argument ?_
  refine .bind (.lift (Build.confined_setFormulaBuilder appends.wellFormed hc f))
    fun _ w₁ h₁ ⟨builders, set⟩ => ?_
  have hc₁ := h₁.under hc
  have plain : w₁.workspace.PlainNodes ⟨w.workspace.builders.size⟩ := fun p hp => by
    unfold Workspace.builder at hp
    rw [builders] at hp
    exact absurd (nodes ▸ hp) List.not_mem_nil
  refine .bind (.lift (Build.confined_generate h₁.wellFormed hc₁ plain
    (set (Nat.lt_of_lt_of_le hf appends.grows.formulas)) true)) fun _ w₂ h₂ plain₂ => ?_
  exact (hinner w₂ root _ h₂.wellFormed (h₂.under hc₁) (.of_plain plain₂)).weaken

end

/-! ## Documents -/

/-- What is needed to export an object as an argument of a node of the builder. -/
structure Ready (K : Conduct σ) (root b : BuilderRef) (w : World σ) (n : NodeRef) (r : Ref) :
    Prop where
  wellFormed : w.workspace.WellFormed
  node : n.index < w.workspace.nodes.size
  own : (w.workspace.node n).builder = b
  under : w.workspace.Under root b
  nests : K.Nests w b
  within : r.Within w.workspace
  harmless : r.Harmless K w b

/-- While a builder is exported, all work is confined. -/
def passage (K : Conduct σ) (root b : BuilderRef) : Passage σ where
  moves w now := w.workspace.WellFormed → K.Stays False root b w now
  refl _ := .refl
  trans h h' wf := (h wf).trans (h' (h wf).wellFormed)
  ready := K.Ready root b
  lasts h r :=
    have stays := h r.wellFormed
    { wellFormed := stays.wellFormed
      node := Nat.lt_of_lt_of_le r.node stays.grows.nodes
      own := (stays.grows.node _ r.node).builder.trans r.own
      under := stays.under r.under
      nests := r.nests.of_stays r.under.within stays
      within := stays.grows.within r.within
      harmless := r.harmless.later stays.grows stays.later }

/-- What has been done so far has not touched the builder: its nodes are still harmless. -/
theorem readyNode (wf : w.workspace.WellFormed) (hb : w.workspace.Under root b)
    (nests : K.Nests w b) :
    ∀ p ∈ (w.workspace.builder b).nodes, (K.passage root b).ReadyNode w p.2 := by
  intro p hp now h r hr
  have stays := h wf
  have registered := (stays.nodes_eq hb.within).1 ▸ hp
  have ok := (stays.wellFormed.builder b (stays.under hb).within).nodes p.1 p.2 registered
  exact {
    wellFormed := stays.wellFormed
    node := ok.1
    own := ok.2.1
    under := stays.under hb
    nests := nests.of_stays hb.within stays
    within := ((stays.wellFormed.node p.2 ok.1).arguments r hr).1
    harmless := nests.of_stays hb.within stays p registered r hr }

section
variable {call : Callback → List Value → Run σ Value} {inner : BuilderRef → Run σ Value}
  (hinner : K.Exports inner) (hcall : K.SafeCalls call)
include hinner hcall

theorem through_ofObject (w : World σ) (n : NodeRef) (argument : Scalar) (v : Value)
    (hv : ∀ r ∈ v.refs, (K.passage root b).ready w n r) :
    (K.passage root b).Through w (Documents.ofObject call inner n argument v) := by
  unfold Documents.ofObject
  split
  · refine .workspace_bind ?_
    split
    · exact .pure _
    · exact .throw _
  · exact .workspace_bind (.pure _)
  · exact .workspace_bind (.pure _)
  · have r := hv _ (List.mem_singleton.2 rfl)
    obtain rfl := r.own
    exact fun wf => (keeps_ofFormula hinner wf r.node r.under argument r.within).1
  · have r := hv _ (List.mem_singleton.2 rfl)
    obtain rfl : _ = b := r.harmless
    exact fun wf => (hinner w root _ wf r.under r.nests).1
  · have r := hv _ (List.mem_singleton.2 rfl)
    obtain rfl := r.own
    exact fun wf => (keeps_ofCallback hinner wf r.node r.under argument hcall r.harmless).1
  · exact .pure _

theorem exports_ofBuilder : K.Exports (Documents.ofBuilder call inner) := by
  intro w root b wf hb nests
  have through : (K.passage root b).Through w (Documents.ofBuilder call inner b) :=
    Passage.through_ofBuilder (through_ofObject hinner hcall) (readyNode wf hb nests)
  have stays := through wf
  exact ⟨stays, stays.grows, fun _ _ => trivial⟩

end

/-- Documents of any depth are confined if functions act on their builders only. -/
theorem Governs.exports {call : Documents σ → Callback → List Value → Run σ Value}
    (governed : K.Governs call) (depth : Nat) :
    K.Exports (Documents.within call depth).builder := by
  induction depth with
  | zero => exact fun w root b wf _ _ => Run.Ensures.throw (.refl wf)
  | succ depth ih => exact exports_ofBuilder ih (governed.safeCalls depth)

end Conduct

end ProcessGraph
