import ProcessGraph.Graph.Document
import ProcessGraph.Proofs.Graph.Lowering

/-!
# Reachable workspaces

`Workspace.Operation ws now`: one operation on objects of `ws` leads to `now`, whether it fails or
not. `Workspace.Steps ws now`: operations one after the other do, where an atomic step that fails
takes its builder back to where it began. Workspaces that arise from the empty one are `Reachable`;
they are well-formed (`Reachable.wellFormed`). What is done inside callbacks while a document is
made are operations, too, so that these workspaces are all that anyone gets to see.

An operation registers new nodes behind those that a builder has and does nothing else to them
(`Operation.appends`), and so do steps, apart from nodes that come and go in between
(`Steps.appends`).
-/

set_option autoImplicit false

namespace ProcessGraph

/-- An operation on objects that exist. -/
inductive Workspace.Operation (ws : Workspace) : Workspace → Prop where
  /-- Catalogs do not depend on the rest and may change in any way. -/
  | catalogs (catalogs : Arena Catalog) : Operation ws { ws with catalogs }
  | callbackNames (names : Dictionary String CallbackNames) :
      Operation ws { ws with callbackNames := names }
  | records (log : List Log.Record) (warnings : List String) : Operation ws { ws with log, warnings }
  | createBuilder (processes id : Value) (settings : Option Settings)
      (parent : Option BuilderRef) (env : Environment)
      (hp : ∀ p ∈ parent, p.index < ws.builders.size) :
      Operation ws ((Build.createBuilder processes id settings parent env).run ws).2
  | createChild {b : BuilderRef} (hb : b.index < ws.builders.size) {n : NodeRef}
      (hn : n.index < ws.nodes.size) (argument : Scalar) :
      Operation ws ((Build.createChild b n argument).run ws).2
  | setParent (b : BuilderRef) {n : NodeRef} (hn : n.index < ws.nodes.size) (argument : Scalar) :
      Operation ws ((Build.setParent b n argument).run ws).2
  | setMetadata (b : BuilderRef) (name : String) (v : Value) :
      Operation ws (ws.modifyBuilder b fun builder =>
        { builder with metadata := builder.metadata.set name v })
  | newParameter (p : Parameter) : Operation ws ((Build.newParameter p).run ws).2
  | callbackParameter {b : BuilderRef} (hb : b.index < ws.builders.size) (name : Value) :
      Operation ws ((Build.callbackParameter b name).run ws).2
  | parentParameters {b : BuilderRef} (hb : b.index < ws.builders.size) :
      Operation ws ((Build.parentParameters b).run ws).2
  | addParameter {b : BuilderRef} (hb : b.index < ws.builders.size) (declaration : Value.Entries)
      (onRoot : Bool) : Operation ws ((Build.addParameter b declaration onRoot).run ws).2
  | generateId {b : BuilderRef} (hb : b.index < ws.builders.size) (name : String) :
      Operation ws ((Build.generateId b name).run ws).2
  | invoke {b : BuilderRef} (hb : b.index < ws.builders.size) (process : String)
      {arguments : Value} (hv : arguments.Within ws) (description : Value)
      (space : Option String) :
      Operation ws ((Build.invoke b process arguments description space).run ws).2
  | shortcut {b : BuilderRef} (hb : b.index < ws.builders.size) (process : String)
      (spec : Specification) {arguments : List Value} (hv : ∀ v ∈ arguments, v.Within ws)
      {named : Value.Entries} (hnamed : Value.EntriesWithin ws named) :
      Operation ws ((Build.callShortcut b process spec arguments named).run ws).2
  | element {a : AccessRef} (ha : a.index < ws.accesses.size) (key : Value) :
      Operation ws ((Build.elementAt a key).run ws).2
  | resolve {b : BuilderRef} (hb : b.index < ws.builders.size) (name : String) :
      Operation ws ((Build.resolve b name).run ws).2
  | addOperator {b : BuilderRef} (hb : b.index < ws.builders.size) (op : String)
      {left right : Value} (hl : left.Within ws) (hr : right.Within ws) :
      Operation ws ((Build.addOperator b op left right).run ws).2
  | lower {b : BuilderRef} (hb : b.index < ws.builders.size) (t : Formula.Tree) :
      Operation ws ((Build.lower b t).run ws).2
  | createFormula (text : String) : Operation ws ((Build.createFormula text).run ws).2
  | setFormulaBuilder (f : FormulaRef) {b : BuilderRef} (hb : b.index < ws.builders.size) :
      Operation ws ((Build.setFormulaBuilder f b).run ws).2
  | generate (f : FormulaRef) (hb : ∀ b ∈ (ws.formula f).builder, b.index < ws.builders.size)
      (asResult : Bool) : Operation ws ((Build.generate f asResult).run ws).2
  | compile {b : BuilderRef} (hb : b.index < ws.builders.size) (text : String) (asResult : Bool) :
      Operation ws ((Build.compile b text asResult).run ws).2
  | setResult (n : NodeRef) (v : Value) : Operation ws ((Build.setResult n v).run ws).2
  | setDescription (n : NodeRef) (description : Value) :
      Operation ws (ws.modifyNode n fun node => { node with description })
  /-- Making a document remembers which builders it has made for callback arguments. -/
  | setCallbackBuilder (n : NodeRef) (argument : Scalar) (b : BuilderRef) :
      Operation ws (ws.modifyNode n fun node =>
        { node with callbackBuilders := Dictionary.insert argument b node.callbackBuilders })

inductive Workspace.Steps : Workspace → Workspace → Prop where
  | refl (ws : Workspace) : Steps ws ws
  | operation {ws now after : Workspace} (h : Steps ws now) (op : now.Operation after) :
      Steps ws after
  /-- An atomic step that began in `before` and failed in `now`. -/
  | rollBack {ws before now : Workspace} (h : Steps ws before) (h' : Steps before now)
      {b : BuilderRef} (hb : b.index < before.builders.size) :
      Steps ws (rollBack before b now)

/-- The workspace arises from the empty one. -/
def Workspace.Reachable (ws : Workspace) : Prop := Workspace.Steps {} ws

/-! ## What operations do to the nodes of builders -/

/-- A well-formed workspace that has come from `ws`, in which builders have the nodes that they had
and new ones behind them. -/
structure Workspace.Appends (ws now : Workspace) : Prop where
  start : ws.WellFormed
  wellFormed : now.WellFormed
  grows : ws.Grows now
  nodes : ∀ b : BuilderRef, b.index < ws.builders.size →
    (ws.builder b).nodes.GrowsBy ws.NewNode (now.builder b).nodes

theorem Dictionary.GrowsBy.trans {κ α : Type} {fresh fresh' : α → Prop} {d e f : Dictionary κ α}
    (h : GrowsBy fresh d e) (h' : GrowsBy fresh' e f) (hf : ∀ a, fresh' a → fresh a) :
    GrowsBy fresh d f := by
  obtain ⟨more, rfl, new⟩ := h'
  exact h.append fun p hp => hf _ (new p hp)

namespace Workspace

variable {base ws now after before : Workspace} {S P : BuilderRef → Prop} {b : BuilderRef}

theorem WellFormed.appends (h : ws.WellFormed) : ws.Appends ws := ⟨h, h, .refl ws, fun _ _ => .refl ..⟩

theorem Extends.appends (h : ws.Extends S P now) : ws.Appends now :=
  ⟨h.start, h.wellFormed, h.kept.toGrows, fun b hb => (h.kept.content b hb).nodes⟩

theorem Appends.trans (h : ws.Appends now) (h' : now.Appends after) : ws.Appends after where
  start := h.start
  wellFormed := h'.wellFormed
  grows := h.grows.trans h'.grows
  nodes b hb := (h.nodes b hb).trans (h'.nodes b (Nat.lt_of_lt_of_le hb h.grows.builders))
    fun _ => Nat.le_trans h.grows.nodes

/-- Steps that leave the nodes of builders alone. -/
theorem WellFormed.appends_of_eq (h : ws.WellFormed) (h' : now.WellFormed) (g : ws.Grows now)
    (e : ∀ b : BuilderRef, b.index < ws.builders.size →
      (now.builder b).nodes = (ws.builder b).nodes) : ws.Appends now :=
  ⟨h, h', g, fun b hb => e b hb ▸ .refl ..⟩

/-- A builder that is rolled back has the nodes from before, and all others keep theirs. -/
theorem Appends.nodes_rollBack (h : before.Appends now) (hb : b.index < before.builders.size)
    (c : BuilderRef) : ((before.rollBack b now).builder c).nodes =
      if c = b then (before.builder b).nodes else (now.builder c).nodes := by
  rw [builder_rollBack (Nat.lt_of_lt_of_le hb h.grows.builders)
    (Nat.lt_of_lt_of_le (h.start.root_lt hb) h.grows.builders), restored_nodes]

theorem Appends.rollBack (h : ws.Appends before) (h' : before.Appends now)
    (hb : b.index < before.builders.size) : ws.Appends (before.rollBack b now) where
  start := h.start
  wellFormed := .rollBack h.wellFormed h'.wellFormed h'.grows hb
  grows := (h.grows.trans h'.grows).trans (grows_rollBack h.wellFormed h'.grows hb)
  nodes c hc := by
    rw [h'.nodes_rollBack hb]
    split
    · rename_i e
      exact e ▸ h.nodes c hc
    · exact (h.trans h').nodes c hc

theorem WellFormed.ofEmpty : WellFormed {} where
  node _ h := absurd h (Nat.not_lt_zero _)
  builder _ h := absurd h (Nat.not_lt_zero _)
  access _ h := absurd h (Nat.not_lt_zero _)
  distinct _ _ h := absurd h (Nat.not_lt_zero _)

/-- Changes of a builder that leave its nodes and callback parameters alone. -/
theorem WellFormed.modifyFields (h : ws.WellFormed) (b : BuilderRef) {f : Builder → Builder}
    (hf : ∀ c, (f c).parent = c.parent ∧ (f c).settings = c.settings ∧ (f c).catalog = c.catalog)
    (hn : ∀ c, (f c).nodes = c.nodes ∧ (f c).callbackParameters = c.callbackParameters)
    (hp : ∀ c n, (f c).parentNode = some n → c.parentNode = some n ∨ n.index < ws.nodes.size) :
    ws.Appends (ws.modifyBuilder b f) := by
  refine h.appends_of_eq ?_ (ws.grows_modifyBuilder b hf) fun c _ => ?_
  · refine h.modifyBuilder b hf (fun hlt => ?_) (fun id n hid => ?_) fun k a hk => ?_
    · have ok := h.builder b hlt
      refine ⟨?_, fun n hn => ?_, ?_, ?_, ?_, ?_⟩
      · rw [(hf _).1]; exact ok.parent
      · exact (hp _ n hn).elim (ok.parentNode n) id
      · rw [(hn _).1]; exact ok.nodes
      · rw [(hn _).1]; exact ok.nodup
      · rw [(hn _).1]; exact ok.ordered
      · rw [(hn _).2]; exact ok.callbackParameters
    · rw [(hn _).1]; exact hid
    · rw [(hn _).2]; exact hk
  · rw [builder_modifyBuilder]
    split
    · exact (hn _).1
    · rfl

/-- A node may get other flags. -/
theorem WellFormed.modifyFlags (h : ws.WellFormed) (n : NodeRef) {f : Node → Node}
    (hf : ∀ m : Node, m.SameCall (f m)) : ws.Appends (ws.modifyNode n f) :=
  h.appends_of_eq (h.modifyNode n hf) (ws.grows_modifyNode n hf) fun _ _ => rfl

theorem WellFormed.addBuilder (h : ws.WellFormed) {builder : Builder}
    (hb : builder.Ok ws ⟨ws.builders.size⟩) :
    ws.Appends { ws with builders := ws.builders.push builder } := by
  refine h.appends_of_eq (h.newBuilder hb) (ws.grows_newBuilder builder) fun c hc => ?_
  have e : ({ ws with builders := ws.builders.push builder } : Workspace).builder c =
      ws.builder c := Arena.get_push_of_lt hc builder
  rw [e]

end Workspace

/-! ## Operations that are no building steps on one builder -/

namespace Build

variable {α : Type} {base ws : Workspace}

theorem Ensures.imp {I J : Workspace → Prop} {step : Build α} {Q : α → Workspace → Prop}
    (h : Ensures I ws step Q) (hij : ∀ now, I now → J now) : Ensures J ws step Q :=
  ⟨hij _ h.1, h.2⟩

/-- What a step does after earlier ones. -/
theorem Ensures.appends {S P : BuilderRef → Prop} {step : Build α} {Q : α → Workspace → Prop}
    (h : base.Appends ws) (hs : Ensures (ws.Extends S P) ws step Q) :
    Ensures base.Appends ws step Q :=
  hs.imp fun _ h' => h.trans h'.appends

/-- The catalog of a new builder. -/
def catalogFor : Value → Build CatalogRef
  | .catalog r => pure r
  | v => do
    let (result, records) := Catalog.ofValue v
    change fun ws => ws.addRecords records
    newCatalog (← ofExcept result)

/-- The settings of a new builder. -/
def settingsFor (ws : Workspace) (env : Environment) :
    Option Settings → Option BuilderRef → Build Settings
  | some s, _ => pure s
  | none, some p => pure (ws.builder p).settings
  | none, none => ofExcept (Settings.ofEnvironment env)

theorem createBuilder_eq (processes id : Value) (settings : Option Settings)
    (parent : Option BuilderRef) (env : Environment) :
    createBuilder processes id settings parent env = (do
      let catalog ← catalogFor processes
      let ws ← get
      if (ws.catalog catalog).length = 0 then throw .emptyCatalog
      let settings ← settingsFor ws env settings parent
      newBuilder { catalog, settings, parent, metadata.id := id }) := by
  cases processes <;> cases settings <;> cases parent <;>
    simp only [createBuilder, catalogFor, settingsFor, bind_assoc, pure_bind]

section
variable (h : base.Appends ws)
include h

theorem ensures_catalogFor (processes : Value) :
    Ensures base.Appends ws (catalogFor processes) fun _ _ => True := by
  unfold catalogFor
  split
  · exact .pure h trivial
  · dsimp only
    have same {ws : Workspace} (h : base.Appends ws) (catalogs : Arena Catalog)
        (log : List Log.Record) : base.Appends { ws with catalogs, log } :=
      h.trans (h.wellFormed.appends_of_eq
        (h.wellFormed.of_same { Workspace.Grows.refl ws with } rfl rfl rfl)
        { Workspace.Grows.refl ws with } fun _ _ => rfl)
    refine .bind (R := fun _ _ => True) ?_ fun _ now h₁ g₁ _ => ?_
    · exact .change (same h ws.catalogs _) { Workspace.Grows.refl ws with } trivial
    · refine .bind (R := fun _ _ => True) (.ofExcept h₁ fun _ _ => trivial)
        fun catalog after h₂ g₂ _ => ?_
      exact ⟨same h₂ _ after.log, { Workspace.Grows.refl after with }, fun _ _ => trivial⟩

theorem ensures_settingsFor (other : Workspace) (env : Environment) (settings : Option Settings)
    (parent : Option BuilderRef) :
    Ensures base.Appends ws (settingsFor other env settings parent) fun _ now => now = ws := by
  unfold settingsFor
  split
  · exact .pure h rfl
  · exact .pure h rfl
  · exact .ofExcept h fun _ _ => rfl

theorem ensures_createBuilder (processes id : Value) (settings : Option Settings)
    {parent : Option BuilderRef} (env : Environment)
    (hp : ∀ p ∈ parent, p.index < ws.builders.size) :
    Ensures base.Appends ws (createBuilder processes id settings parent env)
      fun _ _ => True := by
  rw [createBuilder_eq]
  refine (ensures_catalogFor h processes).bind fun catalog now h₁ g₁ _ => .get_bind ?_
  refine .ite (fun _ => ?_) fun _ => ?_
  · exact .bind (R := fun _ _ => False) (.throw h₁) fun _ _ _ _ hf => hf.elim
  · refine (ensures_settingsFor h₁ now env settings parent).bind fun settings after h₂ g₂ e => ?_
    subst after
    refine ⟨h₂.trans (h₂.wellFormed.addBuilder ?_), now.grows_newBuilder _, fun _ _ => trivial⟩
    exact ⟨fun p e => Nat.lt_of_lt_of_le (hp p e) g₁.builders, fun _ e => (nomatch e),
      fun _ _ e => (nomatch e), List.nodup_nil, .nil, fun _ _ e => (nomatch e)⟩

theorem ensures_generate_appends {f : FormulaRef}
    (hf : ∀ b ∈ (ws.formula f).builder, b.index < ws.builders.size) (asResult : Bool) :
    Ensures base.Appends ws (generate f asResult) fun _ _ => True := by
  unfold generate
  refine .get_bind ?_
  dsimp only
  cases hb : (ws.formula f).builder with
  | none => exact .throw h
  | some b =>
    have opened : Workspace.Open (fun _ => True) (fun _ => True) ws ws b :=
      ⟨hf b hb, .inl trivial, .inl trivial⟩
    have finish : ∀ {now : Workspace} (n : NodeRef), base.Appends now →
        Ensures base.Appends now (do
          log (.debug Log.formulaLogger ("Generated formula '" ++ (ws.formula f).text ++ "' -> " ++
            ((← get).node n).id))
          return n) fun _ _ => True := fun {now} n h₁ =>
      .get_bind (.bind (R := fun _ _ => True)
        ((ensures_log (h₁.wellFormed.extends (fun _ => True) fun _ => True) _).appends h₁ |>.mono
          fun _ _ _ _ _ => trivial)
        fun _ _ h₂ _ _ => .pure h₂ trivial)
    refine ((ensures_lowerToNode (h.wellFormed.extends _ _) opened _ _).appends h).bind
      fun n now h₁ _ _ => .ite (fun _ => ?_) fun _ => finish n h₁
    have call : ∀ m : Node, m.SameCall { m with result := .bool true } :=
      fun _ => ⟨rfl, rfl, rfl, rfl, rfl, rfl⟩
    exact .bind (R := fun _ _ => True)
      (.change (h₁.trans (h₁.wellFormed.modifyFlags n call)) (now.grows_modifyNode n call) trivial)
      fun _ _ h₂ _ _ => finish n h₂

theorem ensures_compile_appends {b : BuilderRef} (hb : b.index < ws.builders.size)
    (text : String) (asResult : Bool) :
    Ensures base.Appends ws (compile b text asResult) fun _ _ => True := by
  unfold compile
  have ext := h.wellFormed.extends (fun _ => True) fun _ => True
  refine ((ensures_createFormula ext text).appends h).bind fun f now h₁ g₁ ⟨hf, _⟩ => ?_
  have ext₁ := h₁.wellFormed.extends (fun _ => True) fun _ => True
  refine ((ensures_setFormulaBuilder ext₁ f b).appends h₁).bind
    fun _ after h₂ g₂ ⟨_, hset⟩ => ensures_generate_appends h₂ (fun c hc => ?_) asResult
  rw [hset hf] at hc
  cases hc
  exact Nat.lt_of_lt_of_le hb (g₁.trans g₂).builders

end

end Build

/-! ## Operations and steps -/

namespace Workspace

variable {ws now : Workspace}

theorem Operation.appends (h : ws.WellFormed) (op : ws.Operation now) : ws.Appends now := by
  have ext := h.extends (fun _ => True) fun _ => True
  have opened : ∀ {b : BuilderRef}, b.index < ws.builders.size →
      Open (fun _ => True) (fun _ => True) ws ws b :=
    fun hb => ⟨hb, .inl trivial, .inl trivial⟩
  have of : ∀ {α : Type} {step : Build α} {Q : α → Workspace → Prop},
      Build.Ensures (ws.Extends (fun _ => True) fun _ => True) ws step Q →
      ws.Appends (step.run ws).2 := fun h => h.1.appends
  have same : ∀ (catalogs : Arena Catalog) (names : Dictionary String CallbackNames)
      (log : List Log.Record) (warnings : List String),
      ws.Appends { ws with catalogs, callbackNames := names, log, warnings } := fun _ _ _ _ =>
    h.appends_of_eq (h.of_same { Grows.refl ws with } rfl rfl rfl) { Grows.refl ws with }
      fun _ _ => rfl
  cases op with
  | catalogs catalogs => exact same catalogs _ _ _
  | callbackNames names => exact same _ names _ _
  | records log warnings => exact same _ _ log warnings
  | createBuilder processes id settings parent env hp =>
    exact (Build.ensures_createBuilder h.appends processes id settings env hp).1
  | @createChild b hb n hn argument =>
    exact h.addBuilder ⟨fun p e => by cases e; exact hb, fun m e => by cases e; exact hn,
      fun _ _ e => (nomatch e), List.nodup_nil, .nil, fun _ _ e => (nomatch e)⟩
  | @setParent b n hn argument =>
    exact h.modifyFields b (fun _ => ⟨rfl, rfl, rfl⟩) (fun _ => ⟨rfl, rfl⟩)
      fun _ m e => by cases e; exact .inr hn
  | setMetadata b name v =>
    exact h.modifyFields b (fun _ => ⟨rfl, rfl, rfl⟩) (fun _ => ⟨rfl, rfl⟩) fun _ m e => .inl e
  | newParameter p =>
    exact h.appends_of_eq (h.newParameter p) (ws.grows_newParameter p) fun _ _ => rfl
  | callbackParameter hb name => exact of (Build.ensures_callbackParameter ext hb name)
  | parentParameters hb => exact of (Build.ensures_parentParameters ext hb)
  | addParameter hb declaration onRoot =>
    exact of (Build.ensures_addParameter ext hb declaration onRoot (.inl trivial))
  | generateId hb name => exact of (Build.ensures_generateId ext (opened hb) name)
  | invoke hb process hv description space =>
    exact of (Build.ensures_invoke ext (opened hb) process hv description space)
  | shortcut hb process spec hv hnamed =>
    exact of (Build.ensures_callShortcut ext (opened hb) process spec hv hnamed)
  | element ha key =>
    exact of (Build.ensures_elementAt ext ha (opened (h.access _ ha).builder) key)
  | resolve hb name => exact of (Build.ensures_resolve ext (opened hb) name)
  | addOperator hb op hl hr => exact of (Build.ensures_addOperator ext (opened hb) op hl hr)
  | lower hb t => exact of (Build.ensures_lower ext (opened hb) t)
  | createFormula text => exact of (Build.ensures_createFormula ext text)
  | @setFormulaBuilder f b hb => exact of (Build.ensures_setFormulaBuilder ext f b)
  | generate f hb asResult => exact (Build.ensures_generate_appends h.appends hb asResult).1
  | compile hb text asResult =>
    exact (Build.ensures_compile_appends h.appends hb text asResult).1
  | setResult n v => exact h.modifyFlags n fun _ => ⟨rfl, rfl, rfl, rfl, rfl, rfl⟩
  | setDescription n description =>
    exact h.modifyFlags n fun _ => ⟨rfl, rfl, rfl, rfl, rfl, rfl⟩
  | setCallbackBuilder n argument b =>
    exact h.modifyFlags n fun _ => ⟨rfl, rfl, rfl, rfl, rfl, rfl⟩

theorem Steps.appends (h : ws.WellFormed) (steps : ws.Steps now) : ws.Appends now := by
  induction steps with
  | refl ws => exact h.appends
  | operation _ op ih =>
    have h₁ := ih h
    exact h₁.trans (op.appends h₁.wellFormed)
  | rollBack _ _ hb ih ih' =>
    have h₁ := ih h
    exact h₁.rollBack (ih' h₁.wellFormed) hb

theorem Reachable.wellFormed (h : ws.Reachable) : ws.WellFormed :=
  (Steps.appends .ofEmpty h).wellFormed

theorem Steps.trans {after : Workspace} (h : ws.Steps now) (h' : now.Steps after) :
    ws.Steps after := by
  induction h' with
  | refl => exact h
  | operation _ op ih => exact .operation (ih h) op
  | rollBack _ h'' hb ih => exact .rollBack (ih h) h'' hb

end Workspace

end ProcessGraph
