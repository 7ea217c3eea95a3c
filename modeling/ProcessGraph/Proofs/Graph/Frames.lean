import ProcessGraph.Proofs.Graph.Lowering

/-!
# What calls leave alone

Building steps up to calls and operators are sequences of a few primitive steps: they log, make
parameters, callback parameters and nodes, and change fields of builders. A relation between
workspaces that all of these keep (`Workspace.Frame`) holds between the beginning and the end of
such a step, whether it fails or not. To number a node and to register it are steps of their own,
which fewer relations keep (`Frame.keeps_declareAll`, `Frame.keeps_makeNode`, `Frame.keeps_invoke`).
Formulas do more (`FullFrame.keeps_compile`): they remember elements, and may be rolled back.

Three such relations: no element is remembered that was not remembered before
(`Workspace.SameElements`); as long as no node is registered, builders have the same nodes
(`Workspace.SameRegistered`); as long as none is numbered, the numbers go on from where they were
(`Workspace.SameCounters`).
-/

set_option autoImplicit false

namespace ProcessGraph

/-- A relation that is kept by all primitive steps but the numbering and registration of nodes. -/
structure Workspace.Frame (R : Workspace → Workspace → Prop) : Prop where
  refl : ∀ ws, R ws ws
  trans : ∀ {ws now after : Workspace}, R ws now → R now after → R ws after
  addRecord : ∀ (ws : Workspace) (r : Log.Record), R ws (ws.addRecord r)
  pushParameter : ∀ (ws : Workspace) (p : Parameter),
    R ws { ws with parameters := ws.parameters.push p }
  pushAccess : ∀ (ws : Workspace) (p : ParameterRef) (b : BuilderRef),
    R ws { ws with accesses := ws.accesses.push { parameter := p, builder := b } }
  pushNode : ∀ (ws : Workspace) (n : Node), n.result = .bool false →
    R ws { ws with nodes := ws.nodes.push n }
  modifyBuilder : ∀ (ws : Workspace) (b : BuilderRef) {f : Builder → Builder},
    (∀ builder, (f builder).nodes = builder.nodes ∧ (f builder).counters = builder.counters) →
      R ws (ws.modifyBuilder b f)

/-- The relation is kept by the numbering of nodes, too. -/
def Workspace.KeptByNumbering (R : Workspace → Workspace → Prop) : Prop :=
  ∀ (ws : Workspace) (b : BuilderRef) (stem : String) (n : Nat),
    R ws (ws.modifyBuilder b fun builder =>
      { builder with counters := Dictionary.insert stem n builder.counters })

/-- The relation is kept by the registration of nodes, too. -/
def Workspace.KeptByRegistration (R : Workspace → Workspace → Prop) : Prop :=
  ∀ (ws : Workspace) (b : BuilderRef) (id : String) (n : NodeRef),
    R ws (ws.modifyBuilder b fun builder =>
      { builder with nodes := Dictionary.insert id n builder.nodes })

/-- A relation that is kept by all building steps but those that change what is said about nodes. -/
structure Workspace.FullFrame (R : Workspace → Workspace → Prop) : Prop extends
    Workspace.Frame R where
  numbering : KeptByNumbering R
  registration : KeptByRegistration R
  /-- The element of a callback parameter is remembered. -/
  modifyElements : ∀ (ws : Workspace) (a : AccessRef) (key : ElementKey) (n : NodeRef),
    R ws (ws.modifyAccess a fun access =>
      { access with elements := Dictionary.insert key n access.elements })
  pushFormula : ∀ (ws : Workspace) (f : Formula), R ws { ws with formulas := ws.formulas.push f }
  modifyFormula : ∀ (ws : Workspace) (r : FormulaRef) (f : Formula → Formula),
    R ws (ws.modifyFormula r f)
  rollBack : ∀ {ws now : Workspace} (b : BuilderRef), R ws now → R ws (ws.rollBack b now)

/-- The relation holds between the beginning and the end of the step. -/
def Build.Keeps {α : Type} (R : Workspace → Workspace → Prop) (step : Build α) : Prop :=
  ∀ ws : Workspace, R ws (step.run ws).2

theorem Build.Keeps.of_run {α : Type} {R : Workspace → Workspace → Prop} {step : Build α}
    {ws now : Workspace} {result : Except Failure α} (h : Keeps R step)
    (run : step.run ws = (result, now)) : R ws now := by
  have kept := h ws
  rwa [run] at kept

namespace Workspace.Frame

open Build

variable {R : Workspace → Workspace → Prop} (F : Frame R) {α β : Type}
include F

/-! ## Rules -/

theorem keeps_pure (a : α) : Keeps R (pure a : Build α) := fun ws => F.refl ws

theorem keeps_throw (e : Failure) : Keeps R (throw e : Build α) := fun ws => F.refl ws

theorem keeps_get : Keeps R (get : Build Workspace) := fun ws => F.refl ws

theorem keeps_ofExcept (e : Except Failure α) : Keeps R (Build.ofExcept e) := fun ws => F.refl ws

theorem keeps_log (r : Log.Record) : Keeps R (Build.log r) := fun ws => F.addRecord ws r

theorem keeps_bind {step : Build α} {f : α → Build β} (h : Keeps R step)
    (hf : ∀ a, Keeps R (f a)) : Keeps R (step >>= f) := by
  intro ws
  rw [run_bind_state]
  have first := h ws
  rcases run : step.run ws with ⟨e | a, now⟩ <;> rw [run] at first
  · exact first
  · exact F.trans first (hf a now)

/-- A step that looks at the workspace first. -/
theorem keeps_get_bind {f : Workspace → Build β} (hf : ∀ ws, Keeps R (f ws)) :
    Keeps R (get >>= f) := F.keeps_bind F.keeps_get hf

/-! ## Parameters -/

theorem keeps_callbackParameter (b : BuilderRef) (name : Value) :
    Keeps R (callbackParameter b name) := by
  refine F.keeps_get_bind fun ws => ?_
  split
  · exact F.keeps_throw _
  · split
    · exact F.keeps_pure _
    · exact F.keeps_bind (fun ws => F.pushParameter ws _) fun p =>
        F.keeps_bind (fun ws => F.pushAccess ws p b) fun a =>
          F.keeps_bind (fun ws => F.modifyBuilder ws b fun _ => ⟨rfl, rfl⟩) fun _ => F.keeps_pure _

theorem keeps_callbackParameterList (b : BuilderRef) (names : List Value) :
    Keeps R (callbackParameterList b names) := by
  induction names with
  | nil => exact F.keeps_pure _
  | cons name names ih =>
    exact F.keeps_bind (F.keeps_callbackParameter b name) fun _ => F.keeps_bind ih fun _ =>
      F.keeps_pure _

theorem keeps_parentParameters (b : BuilderRef) : Keeps R (parentParameters b) := by
  intro ws
  rw [run_parentParameters]
  exact F.keeps_bind (F.keeps_ofExcept _) (fun _ => F.keeps_callbackParameterList b _) ws

theorem keeps_addParameter (b : BuilderRef) (declaration : Value.Entries) (onRoot : Bool) :
    Keeps R (addParameter b declaration onRoot) := by
  refine F.keeps_bind (F.keeps_parentParameters b) fun accesses => ?_
  refine F.keeps_bind (F.keeps_get_bind fun _ => F.keeps_pure _) fun known => ?_
  split
  · exact F.keeps_pure _
  · refine F.keeps_get_bind fun ws => F.keeps_bind (F.keeps_ofExcept _) fun declared => ?_
    refine F.keeps_bind (fun ws => F.modifyBuilder ws _ fun _ => ⟨rfl, rfl⟩) fun _ => ?_
    split
    · exact F.keeps_log _
    · exact F.keeps_pure _

theorem keeps_declareAll (b : BuilderRef) (rs : List ParameterRef) :
    Keeps R (declareAll b rs) := by
  induction rs with
  | nil => exact F.keeps_pure _
  | cons r rs ih =>
    refine F.keeps_get_bind fun ws => ?_
    dsimp only
    split
    · exact F.keeps_bind (F.keeps_addParameter b _ _) fun _ => ih
    · exact ih

/-! ## Calls -/

section
variable (numbers : KeptByNumbering R)
include numbers

theorem keeps_generateId (b : BuilderRef) (name : String) : Keeps R (generateId b name) :=
  F.keeps_get_bind fun _ => F.keeps_bind (fun ws => numbers ws b _ _) fun _ => F.keeps_pure _

/-- Making a node that is not registered. -/
theorem keeps_makeNode (b : BuilderRef) (process : String) (arguments description : Value)
    (space : Option String) : Keeps R (makeNode b process arguments description space) := by
  refine F.keeps_get_bind fun ws => ?_
  dsimp only
  split
  · exact F.keeps_throw _
  · exact F.keeps_bind (F.keeps_ofExcept _) fun _ =>
      F.keeps_bind (F.keeps_generateId numbers b _) fun _ => F.keeps_get_bind fun _ =>
        F.keeps_bind (F.keeps_declareAll b _) fun _ ws => F.pushNode ws _ rfl

variable (registers : KeptByRegistration R)
include registers

omit numbers in
theorem keeps_register (b : BuilderRef) (n : NodeRef) : Keeps R (register b n) :=
  F.keeps_get_bind fun _ => F.keeps_bind (fun ws => registers ws b _ n) fun _ => F.keeps_log _

theorem keeps_invoke (b : BuilderRef) (process : String) (arguments description : Value)
    (space : Option String) : Keeps R (invoke b process arguments description space) := by
  rw [invoke_eq]
  exact F.keeps_bind (F.keeps_makeNode numbers b _ _ _ _) fun n =>
    F.keeps_bind (F.keeps_register registers b n) fun _ => F.keeps_pure _

theorem keeps_callShortcut (b : BuilderRef) (process : String) (spec : Specification)
    (arguments : List Value) (named : Value.Entries) :
    Keeps R (callShortcut b process spec arguments named) := by
  unfold callShortcut
  split
  · exact F.keeps_invoke numbers registers b _ _ _ _
  · exact F.keeps_bind (F.keeps_ofExcept _) fun _ => F.keeps_invoke numbers registers b _ _ _ _

theorem keeps_addOperator (b : BuilderRef) (op : String) (left right : Value) :
    Keeps R (addOperator b op left right) := by
  unfold addOperator
  split
  · exact F.keeps_throw _
  · refine F.keeps_get_bind fun ws => ?_
    split
    · exact F.keeps_throw _
    · exact F.keeps_bind (F.keeps_ofExcept _) fun _ => F.keeps_invoke numbers registers b _ _ _ _

end

end Workspace.Frame

/-! ## Formulas -/

namespace Workspace.FullFrame

open Build

variable {R : Workspace → Workspace → Prop} (F : FullFrame R) {α : Type}
include F

/-- A step that is undone if it fails. -/
theorem keeps_atomically (b : BuilderRef) {body : Build α} (h : Keeps R body) :
    Keeps R (atomically b body) := by
  intro ws
  have kept := h ws
  rw [run_atomically]
  rcases run : body.run ws with ⟨e | a, now⟩ <;> rw [run] at kept
  · exact F.rollBack b kept
  · exact kept

theorem keeps_invoke (b : BuilderRef) (process : String) (arguments description : Value)
    (space : Option String) : Keeps R (invoke b process arguments description space) :=
  F.toFrame.keeps_invoke F.numbering F.registration b process arguments description space

theorem keeps_addOperator (b : BuilderRef) (op : String) (left right : Value) :
    Keeps R (addOperator b op left right) :=
  F.toFrame.keeps_addOperator F.numbering F.registration b op left right

theorem keeps_applySign (b : BuilderRef) (op : String) (v : Value) :
    Keeps R (applySign b op v) := by
  unfold applySign
  split
  · exact F.keeps_pure _
  · split
    · exact F.keeps_pure _
    · exact F.keeps_pure _
    · exact F.keeps_bind (F.keeps_addOperator b _ _ _) fun _ => F.keeps_pure _

theorem keeps_element (a : AccessRef) (key : ElementKey) : Keeps R (element a key) := by
  refine F.keeps_get_bind fun ws => ?_
  dsimp only
  split
  · exact F.keeps_pure _
  · exact F.keeps_bind (F.keeps_invoke _ _ _ _ _) fun n =>
      F.keeps_bind (fun ws => F.modifyElements ws a key n) fun _ => F.keeps_get_bind fun _ =>
        F.keeps_bind (F.keeps_log _) fun _ => F.keeps_pure _

theorem keeps_elementAt (a : AccessRef) (key : Value) : Keeps R (elementAt a key) :=
  F.keeps_get_bind fun _ => F.keeps_bind (F.keeps_ofExcept _) fun _ => F.keeps_element a _

theorem keeps_resolve (b : BuilderRef) (name : String) : Keeps R (resolve b name) := by
  rw [resolve_eq]
  refine F.keeps_bind ?_ fun accesses => ?_
  · unfold accessesFor
    split
    · exact F.keeps_parentParameters b
    · exact F.keeps_pure _
  · unfold resolveWith
    split
    · exact F.keeps_pure _
    · refine F.keeps_get_bind fun ws => ?_
      split
      · exact F.keeps_pure _
      · exact F.keeps_throw _
    · have found (a : AccessRef) (key : String) :
          Keeps R (do return .node (← elementAt a (.str key)) : Build Value) :=
        F.keeps_bind (F.keeps_elementAt a _) fun _ => F.keeps_pure _
      dsimp only
      split <;> split
      · exact F.keeps_bind (F.keeps_throw _) fun _ => found _ _
      · exact F.keeps_bind (F.keeps_throw _) fun _ => F.keeps_throw _
      · exact found _ _
      · exact F.keeps_throw _
    · exact F.keeps_bind (fun ws => F.pushParameter ws _) fun _ =>
        F.keeps_bind (F.keeps_addParameter b _ _) fun _ => F.keeps_pure _

mutual

theorem keeps_lower (b : BuilderRef) : (t : Formula.Tree) → Keeps R (lower b t)
  | .number _ => F.keeps_pure _
  | .identifier name => F.keeps_resolve b name
  | .binary op left right => by
    unfold lower
    exact F.keeps_bind (keeps_lower b left) fun _ => F.keeps_bind (keeps_lower b right) fun _ =>
      F.keeps_bind (F.keeps_addOperator b op _ _) fun _ => F.keeps_pure _
  | .unary op operand => by
    unfold lower
    exact F.keeps_bind (keeps_lower b operand) fun v => F.keeps_applySign b op v
  | .call name arguments => by
    unfold lower
    exact F.keeps_bind (keeps_lowerAll b arguments) fun _ =>
      F.keeps_bind (F.keeps_invoke b _ _ _ _) fun _ => F.keeps_pure _
  | .group inner => by
    unfold lower
    exact keeps_lower b inner

theorem keeps_lowerAll (b : BuilderRef) : (ts : List Formula.Tree) → Keeps R (lowerAll b ts)
  | [] => F.keeps_pure _
  | t :: ts => by
    unfold lowerAll
    exact F.keeps_bind (keeps_lower b t) fun _ => F.keeps_bind (keeps_lowerAll b ts) fun _ =>
      F.keeps_pure _

end

theorem keeps_lowerToNode (b : BuilderRef) (text : String) (t : Formula.Tree) :
    Keeps R (lowerToNode b text t) := by
  refine F.keeps_atomically b (F.keeps_bind (F.keeps_lower b t) fun v => ?_)
  split
  · exact F.keeps_pure _
  · exact F.keeps_throw _

theorem keeps_createFormula (text : String) : Keeps R (createFormula text) := by
  unfold createFormula
  split
  · exact fun ws => F.pushFormula ws _
  · exact F.keeps_throw _
  · exact F.keeps_throw _

/-- Generating nodes may flag one of them, if the relation is kept by that. -/
theorem keeps_generate {asResult : Bool}
    (flags : asResult = true → ∀ n, Keeps R (setResult n (.bool true))) (f : FormulaRef) :
    Keeps R (generate f asResult) := by
  refine F.keeps_get_bind fun ws => ?_
  dsimp only
  split
  · exact F.keeps_throw _
  · refine F.keeps_bind (F.keeps_lowerToNode _ _ _) fun n => ?_
    have finish (r : Workspace → Log.Record) : Keeps R (do Build.log (r (← get)); return n) :=
      F.keeps_get_bind fun _ => F.keeps_bind (F.keeps_log _) fun _ => F.keeps_pure _
    split
    · rename_i flagged
      exact F.keeps_bind (flags flagged n) fun _ => finish _
    · exact finish _

theorem keeps_compile {asResult : Bool}
    (flags : asResult = true → ∀ n, Keeps R (setResult n (.bool true))) (b : BuilderRef)
    (text : String) : Keeps R (compile b text asResult) :=
  F.keeps_bind (F.keeps_createFormula text) fun f =>
    F.keeps_bind (fun ws => F.modifyFormula ws f _) fun _ => F.keeps_generate flags f

end Workspace.FullFrame

/-! ## Elements, registered nodes, numbers -/

namespace Workspace

/-- The callback parameters remember the same elements, and new ones remember none. -/
def SameElements (ws now : Workspace) : Prop :=
  ∀ a : AccessRef, (now.access a).elements = (ws.access a).elements

/-- All builders have the same nodes. -/
def SameRegistered (ws now : Workspace) : Prop :=
  ∀ b : BuilderRef, (now.builder b).nodes = (ws.builder b).nodes

/-- The same numbers have been used up. -/
def SameCounters (ws now : Workspace) : Prop :=
  ∀ b : BuilderRef, (now.builder b).counters = (ws.builder b).counters

/-- A field that a change of a builder leaves alone. -/
theorem field_modifyBuilder {α : Type} (field : Builder → α) (ws : Workspace)
    (b c : BuilderRef) {f : Builder → Builder} (hf : ∀ builder, field (f builder) = field builder) :
    field ((ws.modifyBuilder b f).builder c) = field (ws.builder c) := by
  rw [builder_modifyBuilder]
  split
  · exact hf _
  · rfl

theorem frame_sameElements : Frame SameElements where
  refl _ _ := rfl
  trans h h' a := (h' a).trans (h a)
  addRecord _ _ _ := rfl
  pushParameter _ _ _ := rfl
  pushAccess ws p b a := by
    show ((ws.accesses.push _).get a.index).elements = (ws.accesses.get a.index).elements
    rw [Arena.get_push]
    split
    · rename_i new
      rw [Arena.get_of_size_le (Nat.le_of_eq new.symm)]
      rfl
    · rfl
  pushNode _ _ _ _ := rfl
  modifyBuilder _ _ _ _ _ := rfl

theorem sameElements_of_numbering : KeptByNumbering SameElements := fun _ _ _ _ _ => rfl

theorem sameElements_of_registration : KeptByRegistration SameElements := fun _ _ _ _ _ => rfl

theorem SameElements.of_invoke {ws now : Workspace} {b : BuilderRef} {process : String}
    {arguments description : Value} {space : Option String} {result : Except Failure NodeRef}
    (run : (Build.invoke b process arguments description space).run ws = (result, now)) :
    ws.SameElements now :=
  (frame_sameElements.keeps_invoke sameElements_of_numbering sameElements_of_registration b process
    arguments description space).of_run run

theorem SameElements.of_accessesFor {ws now : Workspace} {b : BuilderRef} {name : String}
    {result : Except Failure (List AccessRef)}
    (run : (Build.accessesFor b name).run ws = (result, now)) : ws.SameElements now := by
  unfold Build.accessesFor at run
  split at run
  · exact (frame_sameElements.keeps_parentParameters b).of_run run
  · exact (frame_sameElements.keeps_pure _).of_run run

/-- A field of builders that is left alone where the nodes and the counters are is the same behind
an operation. -/
theorem frame_sameField {α : Type} (field : Builder → α)
    (hfield : ∀ {before after : Builder}, after.nodes = before.nodes →
      after.counters = before.counters → field after = field before) :
    Frame fun ws now => ∀ b, field (now.builder b) = field (ws.builder b) where
  refl _ _ := rfl
  trans h h' b := (h' b).trans (h b)
  addRecord _ _ _ := rfl
  pushParameter _ _ _ := rfl
  pushAccess _ _ _ _ := rfl
  pushNode _ _ _ _ := rfl
  modifyBuilder ws b _ hf c := field_modifyBuilder field ws b c fun builder =>
    hfield (hf builder).1 (hf builder).2

theorem frame_sameRegistered : Frame SameRegistered :=
  frame_sameField (·.nodes) fun nodes _ => nodes

theorem frame_sameCounters : Frame SameCounters :=
  frame_sameField (·.counters) fun _ counters => counters

theorem sameRegistered_of_numbering : KeptByNumbering SameRegistered := fun ws b _ _ c =>
  field_modifyBuilder (·.nodes) ws b c fun _ => rfl

/-- There are as many builders. -/
theorem frame_builderCount : Frame fun ws now => now.builders.size = ws.builders.size where
  refl _ := rfl
  trans h h' := h'.trans h
  addRecord _ _ := rfl
  pushParameter _ _ := rfl
  pushAccess _ _ _ := rfl
  pushNode _ _ _ := rfl
  modifyBuilder _ _ _ _ := Arena.size_modify ..

end Workspace

end ProcessGraph
