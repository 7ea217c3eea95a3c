import ProcessGraph.Proofs.Graph.ScopedLowering

/-!
# What functions do in a scope

A `Discipline` says which functions may be given as callbacks where, and `Acts` what a function does
that works on the builder passed to it: any operations on this builder with usable arguments,
elements of callback parameters that it or an enclosing function has received, documents, and blocks
that are undone. Whatever happens elsewhere does not matter. All of this keeps a scope
(`Acts.follows`), provided that documents do.
-/

set_option autoImplicit false

namespace ProcessGraph

variable {σ : Type}

/-- Which functions of the host may be called for a node in a chain of builders. What has been
allowed stays so while the host goes on in its way. -/
structure Discipline (σ : Type) where
  later : σ → σ → Prop
  refl : ∀ h, later h h
  trans : ∀ {h h' h''}, later h h' → later h' h'' → later h h''
  may : Workspace → σ → List BuilderRef → Nat → Prop
  lasts : ∀ {ws now : Workspace} {h h' : σ} {chain : List BuilderRef} {f : Nat}, ws.Grows now →
    ws.SamePassed now chain → later h h' → may ws h chain f → may now h' chain f

namespace Discipline

variable (D : Discipline σ)

def rule (h : σ) : CallbackRule where
  allows ws := D.may ws h
  lasts g same := D.lasts g same (D.refl h)

/-- One thing that is done in a builder, given the enclosing ones. -/
inductive Act (documents : Documents σ → Prop) (root b : BuilderRef) (outer : List BuilderRef)
    (w : World σ) : World σ → Prop
  | invoke (process : String) {arguments : Value}
      (hv : arguments.Usable (D.rule w.host) w.workspace (b :: outer)) (description : Value)
      (space : Option String) : Act documents root b outer w
        { w with workspace := ((Build.invoke b process arguments description space).run w.workspace).2 }
  | shortcut (process : String) (spec : Specification) {arguments : List Value}
      (hv : ∀ v ∈ arguments, v.Usable (D.rule w.host) w.workspace (b :: outer))
      {named : Value.Entries}
      (hnamed : ∀ p ∈ named, p.2.Usable (D.rule w.host) w.workspace (b :: outer)) :
      Act documents root b outer w
        { w with workspace := ((Build.callShortcut b process spec arguments named).run w.workspace).2 }
  | formula (text : String) (asResult : Bool) : Act documents root b outer w
      { w with workspace := ((Build.compile b text asResult).run w.workspace).2 }
  | element {a : AccessRef} (ha : w.workspace.Received (b :: outer) a) (key : Value) :
      Act documents root b outer w
        { w with workspace := ((Build.elementAt a key).run w.workspace).2 }
  | addParameter {d : Value.Entries} (hd : d.keys.Nodup) (onRoot : Bool) :
      Act documents root b outer w
        { w with workspace := ((Build.addParameter b d onRoot).run w.workspace).2 }
  | document {made : Documents σ} (h : documents made) :
      Act documents root b outer w ((made.builder b).run w).2
  | nodeDocument {made : Documents σ} (h : documents made) {id : String} {n : NodeRef}
      (hn : (id, n) ∈ (w.workspace.builder b).nodes) :
      Act documents root b outer w ((made.node n).run w).2
  /-- Anything that leaves alone the nodes of the builders of the chain, the parameters of the root
  and the names of callback parameters. -/
  | elsewhere {now : World σ} (appends : w.workspace.Appends now.workspace)
      (same : ∀ c ∈ b :: outer, (now.workspace.builder c).nodes = (w.workspace.builder c).nodes)
      (parameters : (now.workspace.builder root).metadata.parameters =
        (w.workspace.builder root).metadata.parameters)
      (passed : w.workspace.SamePassed now.workspace (b :: outer)) (later : D.later w.host now.host) :
      Act documents root b outer w now

/-- Things that are done one after the other, some of them in blocks that are undone. -/
inductive Acts (documents : Documents σ → Prop) (root b : BuilderRef) (outer : List BuilderRef) :
    World σ → World σ → Prop
  | refl (w : World σ) : Acts documents root b outer w w
  | act {w now after : World σ} (h : Acts documents root b outer w now)
      (op : D.Act documents root b outer now after) : Acts documents root b outer w after
  | undone {w before now : World σ} (h : Acts documents root b outer w before)
      (h' : Acts documents root b outer before now) : Acts documents root b outer w
        { now with workspace := before.workspace.rollBack b now.workspace }

/-- Functions that may be called act on the builder passed to them only, and if they return a list
then it can be an argument there. -/
def Governs (call : Documents σ → Callback → List Value → Run σ Value) : Prop :=
  ∀ (n : Nat) {w : World σ} {root b : BuilderRef} {outer : List BuilderRef} {f : Callback}
    {names : List Value} {accesses : List AccessRef},
    w.workspace.WellFormed → w.workspace.Chain root (b :: outer) →
    D.may w.workspace w.host outer f.handle → w.workspace.parentNames b = .ok names →
    List.Forall₂ (w.workspace.IsCallbackParameter b) names accesses →
    ∀ {result : Except Failure Value} {now : World σ},
      (call (Documents.within call n) f
        (f.accepted (.builder b :: accesses.map .access))).run w = (result, now) →
      D.Acts (· = Documents.within call n) root b outer w now ∧
      ∀ vs, result = .ok (.list vs) ∨ result = .ok (.tuple vs) →
        ∀ v ∈ vs, v.Usable (D.rule now.host) now.workspace (b :: outer)

/-- A scope that has come from the world `w` by work on the first builder of the chain. -/
structure Follows (root : BuilderRef) (chain : List BuilderRef) (w now : World σ) : Prop where
  advances : w.workspace.Advances root chain now.workspace
  later : D.later w.host now.host
  scope : now.workspace.Scoped (D.rule now.host) root chain

/-- The step keeps the scope that it begins in. -/
def Keeps {α : Type} (root : BuilderRef) (chain : List BuilderRef) (w : World σ) (step : Run σ α)
    (Q : α → World σ → Prop) : Prop := Run.Ensures (D.Follows root chain w) w step Q

end Discipline

section
variable {D : Discipline σ} {w now after : World σ} {root b : BuilderRef}
  {outer chain : List BuilderRef}

theorem Workspace.Scoped.later {ws : Workspace} {h h' : σ} (hs : ws.Scoped (D.rule h) root chain)
    (hl : D.later h h') : ws.Scoped (D.rule h') root chain := by
  refine ⟨hs.enclosed, ?_⟩
  have inside := hs.nodes
  clear hs
  induction chain with
  | nil => trivial
  | cons c rest ih =>
    refine ⟨fun p hp r hr => ?_, ih inside.2⟩
    have covered := inside.1 p hp r hr
    cases r with
    | callback f => exact D.lasts (.refl ws) (fun _ _ => rfl) hl covered
    | node _ | parameter _ | access _ | builder _ | formula _ => exact covered

theorem Ref.Covered.later {ws : Workspace} {h h' : σ} {r : Ref}
    (hr : r.Covered (D.rule h) ws root chain) (hl : D.later h h') :
    r.Covered (D.rule h') ws root chain := by
  cases r with
  | callback f => exact D.lasts (.refl ws) (fun _ _ => rfl) hl hr
  | node _ | parameter _ | access _ | builder _ | formula _ => exact hr

namespace Discipline

theorem Follows.refl (wf : w.workspace.WellFormed)
    (hs : w.workspace.Scoped (D.rule w.host) root chain) : D.Follows root chain w w :=
  ⟨.refl wf hs.enclosed.within, D.refl _, hs⟩

theorem Follows.trans (h : D.Follows root chain w now) (h' : D.Follows root chain now after) :
    D.Follows root chain w after :=
  ⟨h.advances.trans h'.advances, D.trans h.later h'.later, h'.scope⟩

/-- What a building step leaves behind. -/
theorem Follows.ofBuild {ws : Workspace}
    (h : w.workspace.Follows (D.rule w.host) root chain ws) :
    D.Follows root chain w { w with workspace := ws } := ⟨h.advances, D.refl _, h.scope⟩

/-- A block that has failed. -/
theorem Follows.rollBack (hs : w.workspace.Scoped (D.rule w.host) root (b :: outer))
    (h : D.Follows root (b :: outer) w now) : D.Follows root (b :: outer) w
      { now with workspace := w.workspace.rollBack b now.workspace } := by
  have back := Workspace.Follows.rollBack (K := D.rule now.host) (hs.later h.later)
    ⟨h.advances, h.scope⟩
  exact ⟨back.advances, h.later, back.scope⟩

/-! ## Rules -/

section
variable {α β : Type} {step : Run σ α} {Q : α → World σ → Prop}

theorem Keeps.pure (wf : w.workspace.WellFormed)
    (hs : w.workspace.Scoped (D.rule w.host) root chain) {a : α} (hq : Q a w) :
    D.Keeps root chain w (pure a) Q := Run.Ensures.pure (.refl wf hs) hq

theorem Keeps.throw (wf : w.workspace.WellFormed)
    (hs : w.workspace.Scoped (D.rule w.host) root chain) {e : Failure} :
    D.Keeps root chain w (throw e) Q := Run.Ensures.throw (.refl wf hs)

theorem Keeps.bind {step : Run σ β} {f : β → Run σ α} {R : β → World σ → Prop}
    (h : D.Keeps root chain w step R)
    (hf : ∀ x now, D.Follows root chain w now → R x now → D.Keeps root chain now (f x) Q) :
    D.Keeps root chain w (step >>= f) Q := by
  refine Run.Ensures.bind h fun x now h₁ _ hx => ?_
  obtain ⟨hi, g, hq⟩ := hf x now h₁ hx
  exact ⟨h₁.trans hi, g, hq⟩

theorem Keeps.workspace_bind {f : Workspace → Run σ α} (h : D.Keeps root chain w (f w.workspace) Q) :
    D.Keeps root chain w (Run.workspace >>= f) Q := h

/-- Building steps do not touch the host. -/
theorem Keeps.lift {step : Build α} {Q : α → Workspace → Prop}
    (hs : Build.Ensures (w.workspace.Follows (D.rule w.host) root chain) w.workspace step Q) :
    D.Keeps root chain w (liftM step) fun a now => Q a now.workspace :=
  Run.Ensures.lift hs fun _ => Follows.ofBuild

theorem Keeps.liftQuiet (hs : w.workspace.Scoped (D.rule w.host) root (b :: outer)) {step : Build α}
    {Q : α → Workspace → Prop}
    (hq : Build.Ensures (w.workspace.Quiet root) w.workspace step Q) :
    D.Keeps root (b :: outer) w (liftM step) fun a now => Q a now.workspace :=
  .lift (hq.imp fun _ q => q.follows hs)

theorem Keeps.atomically (wf : w.workspace.WellFormed)
    (hs : w.workspace.Scoped (D.rule w.host) root (b :: outer))
    (h : D.Keeps root (b :: outer) w step Q) :
    D.Keeps root (b :: outer) w (Run.atomically b step) Q :=
  Run.Ensures.atomically h wf (hs.enclosed.within b List.mem_cons_self)
    fun _ hi _ => hi.rollBack hs

end

/-! ## Actions -/

/-- The documents that may be made in a builder keep its scope. -/
def Safe (D : Discipline σ) (made : Documents σ) : Prop :=
  ∀ (w : World σ) (root b : BuilderRef) (outer : List BuilderRef), w.workspace.WellFormed →
    w.workspace.Scoped (D.rule w.host) root (b :: outer) →
    D.Follows root (b :: outer) w ((made.builder b).run w).2 ∧
    ∀ id n, (id, n) ∈ (w.workspace.builder b).nodes →
      D.Follows root (b :: outer) w ((made.node n).run w).2

variable {documents : Documents σ → Prop}

theorem Act.follows (safe : ∀ made, documents made → D.Safe made)
    (act : D.Act documents root b outer w now) (wf : w.workspace.WellFormed)
    (hs : w.workspace.Scoped (D.rule w.host) root (b :: outer)) :
    D.Follows root (b :: outer) w now := by
  have start := hs.follows wf
  have hb := hs.enclosed.within b List.mem_cons_self
  cases act with
  | invoke process hv description space =>
    exact .ofBuild (Build.follows_invoke start process (.own hv) description space).1
  | shortcut process spec hv hnamed =>
    exact .ofBuild (Build.follows_callShortcut start process spec hv hnamed).1
  | formula text asResult => exact .ofBuild (Build.follows_compile start text asResult).1
  | element ha key => exact .ofBuild (Build.follows_elementAt start ha key).1
  | addParameter hd onRoot =>
    exact .ofBuild ((Build.quiet_addParameter wf hs.enclosed.root_within hb hd onRoot).1.follows hs)
  | document h => exact (safe _ h w root b outer wf hs).1
  | nodeDocument h hn => exact (safe _ h w root b outer wf hs).2 _ _ hn
  | elsewhere appends same parameters passed later =>
    have follows := (hs.later later).advance { appends with
      within := hs.enclosed.within
      passed
      declared := fun s hs => by unfold Workspace.Declared at *; rw [parameters]; exact hs
      elements := fun c hc p hp hnew => by
        have hc := List.mem_cons_of_mem b hc
        rw [same c hc] at hp
        exact absurd ((wf.builder c (hs.enclosed.within c hc)).nodes p.1 p.2 hp).1
          (Nat.not_lt.2 hnew) } fun p hp => .inl (same b List.mem_cons_self ▸ hp)
    exact ⟨follows.advances, later, follows.scope⟩

/-- Whatever is done one after the other keeps the scope. -/
theorem Acts.follows (safe : ∀ made, documents made → D.Safe made)
    (acts : D.Acts documents root b outer w now) (wf : w.workspace.WellFormed)
    (hs : w.workspace.Scoped (D.rule w.host) root (b :: outer)) :
    D.Follows root (b :: outer) w now := by
  induction acts with
  | refl w => exact .refl wf hs
  | act h op ih =>
    have follows := ih wf hs
    exact follows.trans (op.follows safe follows.advances.wellFormed follows.scope)
  | undone h h' ih ih' =>
    have before := ih wf hs
    exact before.trans ((ih' before.advances.wellFormed before.scope).rollBack before.scope)

end Discipline

end

end ProcessGraph
