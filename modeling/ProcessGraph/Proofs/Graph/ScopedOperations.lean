import ProcessGraph.Proofs.Graph.Discovery
import ProcessGraph.Proofs.Graph.Scope

/-!
# Operations in a scope

Steps that register no node leave a scope as it is (`Workspace.Quiet`), also those that declare
parameters. A call declares every parameter in its arguments before its node is registered
(`quiet_makeNode`), unless a callback parameter of the builder has the name, so that what the new
node refers to is in scope (`follows_invoke`). Elements of callback parameters may be made in any
builder of the chain, as they refer to nothing that must be declared (`follows_element`).
-/

set_option autoImplicit false

namespace ProcessGraph

namespace Workspace

/-- No nodes are registered, and names stay declared. -/
structure Quiet (root : BuilderRef) (ws now : Workspace) : Prop extends ws.Appends now where
  passed : ∀ c : BuilderRef, c.index < ws.builders.size → now.parentNames c = ws.parentNames c
  same : ∀ c : BuilderRef, c.index < ws.builders.size →
    (now.builder c).nodes = (ws.builder c).nodes
  declared : ∀ s, ws.Declared root s → now.Declared root s

variable {K : CallbackRule} {base ws now after : Workspace} {root b c : BuilderRef}
  {chain outer : List BuilderRef} {S P : BuilderRef → Prop}

theorem WellFormed.quiet (h : ws.WellFormed) : ws.Quiet root ws :=
  { h.appends with
    passed := fun _ _ => rfl
    same := fun _ _ => rfl
    declared := fun _ hs => hs }

theorem Quiet.trans (h : ws.Quiet root now) (h' : now.Quiet root after) : ws.Quiet root after :=
  { h.toAppends.trans h'.toAppends with
    passed := fun c hc => (h'.passed c (Nat.lt_of_lt_of_le hc h.grows.builders)).trans (h.passed c hc)
    same := fun c hc => (h'.same c (Nat.lt_of_lt_of_le hc h.grows.builders)).trans (h.same c hc)
    declared := fun s hs => h'.declared s (h.declared s hs) }

/-- Steps that give no builder content. -/
theorem Extends.quiet (h : ws.Extends (fun _ => False) P now)
    (declared : ∀ s, ws.Declared root s → now.Declared root s) : ws.Quiet root now :=
  { h.appends with
    passed := fun _ hc => h.kept.parentNames h.start hc
    same := fun c hc => ((h.kept.content c hc).untouched.resolve_left id).1
    declared }

/-- The parameters of other builders are as they were. -/
theorem Extends.declared (h : ws.Extends S P now) (hr : root.index < ws.builders.size)
    (hP : ¬ P root) (s : String) : ws.Declared root s → now.Declared root s := by
  unfold Declared
  rw [(h.kept.content root hr).parameters.resolve_left hP]
  exact id

theorem Quiet.follows (h : ws.Quiet root now) (hs : ws.Scoped K root (b :: outer)) :
    ws.Follows K root (b :: outer) now := by
  have within := hs.enclosed.within
  refine hs.advance { h.toAppends with
    within
    passed := fun c hc => h.passed c (within c hc)
    declared := h.declared
    elements := fun c hc p hp hnew => ?_ } fun p hp => .inl (h.same b (within b List.mem_cons_self) ▸ hp)
  have hc := within c (List.mem_cons_of_mem _ hc)
  rw [h.same c hc] at hp
  exact absurd ((h.start.builder c hc).nodes p.1 p.2 hp).1 (Nat.not_lt.2 hnew)

/-- Nothing that the scope is about has changed. -/
theorem Appends.quiet (h : ws.Appends now) (names : now.callbackNames = ws.callbackNames)
    (same : now.builders = ws.builders) : ws.Quiet root now := by
  have e : ∀ c, now.builder c = ws.builder c := fun c => by simp only [builder, same]
  exact { h with
    passed := fun c hc => parentNames_of_same h.start h.grows hc names (by rw [e]) (by rw [e])
    same := fun c _ => by rw [e]
    declared := fun s hs => by unfold Declared; rw [e]; exact hs }

end Workspace

namespace Build

variable {α : Type} {K : CallbackRule} {base ws : Workspace} {root b : BuilderRef}
  {outer : List BuilderRef} {step : Build α} {Q : α → Workspace → Prop}

theorem Ensures.afterQuiet (h : base.Quiet root ws) (hs : Ensures (ws.Quiet root) ws step Q) :
    Ensures (base.Quiet root) ws step Q := hs.imp fun _ h' => h.trans h'

theorem Ensures.follow (h : base.Follows K root (b :: outer) ws)
    (hs : Ensures (ws.Follows K root (b :: outer)) ws step Q) :
    Ensures (base.Follows K root (b :: outer)) ws step Q := hs.imp fun _ h' => h.trans h'

/-- A quiet step may be taken in any scope. -/
theorem Ensures.inScope (h : base.Follows K root (b :: outer) ws)
    (hs : Ensures (ws.Quiet root) ws step Q) :
    Ensures (base.Follows K root (b :: outer)) ws step Q :=
  .follow h (hs.imp fun _ h' => h'.follows h.scope)

/-- A step that gives no builder content, and declares nothing. -/
theorem Ensures.untouched (hr : root.index < ws.builders.size)
    (hs : Ensures (ws.Extends (fun _ => False) fun _ => False) ws step Q) :
    Ensures (ws.Quiet root) ws step Q :=
  hs.imp fun _ h => h.quiet (h.declared hr id)

end Build

/-! ## Declarations -/

/-- No entry of a declaration is written twice. -/
theorem Parameter.nodup_declaration (p : Parameter) : p.declaration.keys.Nodup := by
  unfold declaration
  cases p.default? <;> simp [Dictionary.keys]

/-- Nothing else is the same as a text. -/
theorem Value.eq_str_of_same_str {v : Value} {s : String} (h : v.same (.str s)) : v = .str s := by
  cases v <;> simp [same, sameNumber, integral?] at h
  · split at h <;> simp_all
  · exact congrArg Value.str h

namespace Build

section
variable {base ws : Workspace} {root b : BuilderRef}

section
variable (h : ws.WellFormed) (hr : root.index < ws.builders.size)
include h hr

theorem quiet_log (r : Log.Record) : Ensures (ws.Quiet root) ws (log r) fun _ _ => True :=
  (Ensures.untouched hr (ensures_log (h.extends _ _) r)).mono fun _ _ _ _ _ => trivial

theorem quiet_newParameter (p : Parameter) :
    Ensures (ws.Quiet root) ws (newParameter p) fun r now =>
      r.index < now.parameters.size ∧ now.parameter r = p :=
  (Ensures.untouched hr (ensures_newParameter (h.extends _ _) p)).mono
    fun _ _ _ _ is => ⟨is.2.2.1, is.2.2.2⟩

theorem quiet_createFormula (text : String) :
    Ensures (ws.Quiet root) ws (createFormula text) fun f now => f.index < now.formulas.size :=
  (Ensures.untouched hr (ensures_createFormula (h.extends _ _) text)).mono fun _ _ _ _ is => is.1

theorem quiet_setFormulaBuilder (f : FormulaRef) :
    Ensures (ws.Quiet root) ws (setFormulaBuilder f b) fun _ now =>
      f.index < ws.formulas.size → (now.formula f).builder = some b :=
  (Ensures.untouched hr (ensures_setFormulaBuilder (h.extends _ _) f b)).mono
    fun _ _ _ _ is => is.2

omit hr in
theorem quiet_setResult (n : NodeRef) (v : Value) :
    Ensures (ws.Quiet root) ws (setResult n v) fun _ _ => True :=
  let flag (node : Node) : Node := { node with result := v }
  have same (node : Node) : node.SameCall (flag node) := ⟨rfl, rfl, rfl, rfl, rfl, rfl⟩
  .change ((h.modifyFlags n same).quiet rfl rfl) (ws.grows_modifyNode n same) trivial

theorem quiet_parentParameters (hb : b.index < ws.builders.size) :
    Ensures (ws.Quiet root) ws (parentParameters b) fun as now =>
      ∃ names, ws.parentNames b = .ok names ∧
        List.Forall₂ (now.IsCallbackParameter b) names as :=
  (Ensures.untouched hr (ensures_parentParameters (h.extends _ _) hb)).mono
    fun _ _ _ _ is => is.2

omit hr in
/-- A new id uses up a number. -/
theorem quiet_generateId (hb : b.index < ws.builders.size) (name : String) :
    Ensures (ws.Quiet root) ws (generateId b name) fun _ _ => True := by
  have content := ensures_generateId (h.extends (· = b) fun _ => True)
    ⟨hb, .inl rfl, .inl trivial⟩ name
  -- The step cannot fail, so that the nodes are always as they were.
  obtain ⟨id, now, run⟩ : ∃ id now, (generateId b name).run ws = (.ok id, now) := ⟨_, _, rfl⟩
  obtain ⟨ext, g, same, -⟩ := content.of_run run
  have parameters : (now.builder root).metadata.parameters =
      (ws.builder root).metadata.parameters := by
    cases run
    show ((ws.modifyBuilder b _).builder root).metadata.parameters = _
    rw [Workspace.builder_modifyBuilder]
    split <;> rfl
  unfold Ensures
  rw [run]
  refine ⟨{ ext.appends with
    passed := fun _ hc => ext.kept.parentNames h hc
    same := same.registered
    declared := fun s hs => ?_ }, g, fun _ _ => trivial⟩
  unfold Workspace.Declared at *
  rw [parameters]
  exact hs

/-- The parameters of a builder are replaced by those with a declaration. -/
theorem quiet_setParameters {target : BuilderRef} {d : Value.Entries} (hd : d.keys.Nodup) {v : Value}
    (declared : declare (ws.builder target).metadata.parameters d = .ok v) :
    Ensures (ws.Quiet root) ws (change fun ws => ws.modifyBuilder target fun builder =>
      { builder with metadata.parameters := v }) fun _ now =>
      target = root → ∀ s, Value.field "name" d = .str s → now.Declared root s := by
  have ensures := ensures_setParameters (h.extends (fun _ => False) (· = target)) v
    (b := target) (.inl rfl)
  by_cases ht : target = root
  · subst ht
    have e := ws.builder_modifyBuilder target target fun builder =>
      { builder with metadata.parameters := v }
    rw [if_pos ⟨rfl, hr⟩] at e
    have found : ∀ s, ws.Declared target s ∨ Value.field "name" d = .str s →
        Workspace.Declared (ws.modifyBuilder target fun builder =>
          { builder with metadata.parameters := v }) target s := by
      intro s hs
      unfold Workspace.Declared
      rw [e]
      exact Value.Declares.declare hd declared hs
    exact ⟨ensures.1.quiet fun s hs => found s (.inl hs), ensures.2.1,
      fun _ _ _ s hs => found s (.inr hs)⟩
  · exact ⟨ensures.1.quiet (ensures.1.declared hr fun e => ht e.symm), ensures.2.1,
      fun _ _ e => absurd e ht⟩

/-- A declaration gets onto the root, unless a callback parameter of the builder has its name. -/
theorem quiet_addParameter (hb : b.index < ws.builders.size) {d : Value.Entries}
    (hd : d.keys.Nodup) (onRoot : Bool) :
    Ensures (ws.Quiet root) ws (addParameter b d onRoot) fun _ now =>
      onRoot = true → ws.root b = root → ∀ s, Value.field "name" d = .str s →
        now.Declared root s ∨ .str s ∈ ws.passed b := by
  unfold addParameter
  refine (quiet_parentParameters h hr hb).bind fun as now h₁ g₁ ⟨names, hnames, has⟩ => ?_
  refine .bind (R := fun known after => after = now ∧ (known = true → ∀ s,
    Value.field "name" d = .str s → .str s ∈ ws.passed b)) ?_ fun known after h₂ g₂ ⟨e, hknown⟩ => ?_
  · refine .get_bind (.pure h₁ ⟨rfl, fun hk s hs => ?_⟩)
    obtain ⟨a, ha, same⟩ := List.any_eq_true.1 hk
    obtain ⟨name, hname, is⟩ := exists_of_forall₂_of_mem has ha
    rw [hs, is.parameter] at same
    have e : name = .str s := Value.eq_str_of_same_str same
    unfold Workspace.passed
    rw [hnames]
    exact e ▸ hname
  subst e
  refine .ite (fun hk => .pure h₁ fun _ _ s hs => .inr (hknown hk s hs)) fun _ => .get_bind ?_
  refine .bind (R := fun result last => last = after ∧
    declare (after.builder (if onRoot then after.root b else b)).metadata.parameters d =
      .ok result.1) (.ofExcept h₁ fun result hres => ⟨rfl, by rw [declare, hres]; rfl⟩) ?_
  rintro result last - - ⟨rfl, declared⟩
  have hr₁ := Nat.lt_of_lt_of_le hr g₁.builders
  refine (Ensures.afterQuiet h₁ (quiet_setParameters h₁.wellFormed hr₁ hd declared)).bind
    fun _ last' h₂ g₂ hset => ?_
  have onTarget : onRoot = true → ws.root b = root → ∀ s, Value.field "name" d = .str s →
      last'.Declared root s := by
    intro ho he
    refine hset ?_
    rw [if_pos ho, h.root_eq g₁ hb, he]
  refine .ite (fun _ => ?_) fun _ => .pure h₂ fun ho he s hs => .inl (onTarget ho he s hs)
  have hr₂ := Nat.lt_of_lt_of_le hr₁ g₂.builders
  exact .afterQuiet h₂ ((quiet_log h₂.wellFormed hr₂ _).mono fun _ _ q _ _ ho he s hs =>
    .inl (q.declared s (onTarget ho he s hs)))

/-- All parameters that are declarable are declared, or called like callback parameters. -/
theorem quiet_declareAll (hb : b.index < ws.builders.size) (hroot : ws.root b = root)
    (rs : List ParameterRef) :
    Ensures (ws.Quiet root) ws (declareAll b rs) fun _ now =>
      ∀ r ∈ rs, r.index < ws.parameters.size → (ws.parameter r).isDeclarable →
        ∀ s, (ws.parameter r).name = .str s → now.Declared root s ∨ .str s ∈ ws.passed b := by
  induction rs generalizing ws with
  | nil => exact .pure h.quiet fun r hr => nomatch hr
  | cons r rs ih =>
    unfold declareAll
    refine .get_bind ?_
    -- What the rest of the list declares, after the first parameter.
    have rest {now : Workspace} (q : ws.Quiet root now) : Ensures (ws.Quiet root) now
        (declareAll b rs) fun _ after => (∀ s, now.Declared root s → after.Declared root s) ∧
          ∀ r ∈ rs, r.index < ws.parameters.size → (ws.parameter r).isDeclarable →
            ∀ s, (ws.parameter r).name = .str s → after.Declared root s ∨ .str s ∈ ws.passed b := by
      have g := q.grows
      refine .afterQuiet q ((ih q.wellFormed (Nat.lt_of_lt_of_le hr g.builders)
        (Nat.lt_of_lt_of_le hb g.builders) ((h.root_eq g hb).trans hroot)).mono
        fun _ after q' _ all => ⟨q'.declared, fun r hr hlt hdecl s hs => ?_⟩)
      have e : now.passed b = ws.passed b := by unfold Workspace.passed; rw [q.passed b hb]
      rw [← g.parameter r hlt] at hdecl hs
      exact e ▸ all r hr (Nat.lt_of_lt_of_le hlt g.parameters) hdecl s hs
    refine .ite (fun _ => ?_) fun hdecl => ?_
    · refine (quiet_addParameter h hr hb (ws.parameter r).nodup_declaration true).bind
        fun _ now q g declared => ?_
      refine (rest q).mono fun _ after _ _ both r' hr' hlt hdecl' s hs => ?_
      obtain ⟨kept, all⟩ := both
      rcases List.mem_cons.1 hr' with rfl | hr'
      · exact (declared rfl hroot s hs).imp_left (kept s)
      · exact all r' hr' hlt hdecl' s hs
    · refine (rest h.quiet).mono fun _ after _ _ both r' hr' hlt hdecl' s hs => ?_
      rcases List.mem_cons.1 hr' with rfl | hr'
      · exact absurd hdecl' hdecl
      · exact both.2 r' hr' hlt hdecl' s hs

end

end

end Build

/-! ## Calls -/

namespace Build

section
variable {ws : Workspace} {root b : BuilderRef} (h : ws.WellFormed)
  (hr : root.index < ws.builders.size) (hb : b.index < ws.builders.size) (hroot : ws.root b = root)
include h hr hb hroot

/-- What the arguments of a new node refer to has been declared. -/
theorem quiet_makeNode (process : String) {arguments : Value} (hv : arguments.Within ws)
    (description : Value) (space : Option String) :
    Ensures (ws.Quiet root) ws (makeNode b process arguments description space) fun n now =>
      ∀ p, Ref.parameter p ∈ Value.refsInEntries (now.node n).arguments →
        (ws.parameter p).isDeclarable → ∀ s, (ws.parameter p).name = .str s →
        now.Declared root s ∨ .str s ∈ ws.passed b := by
  unfold makeNode
  refine .get_bind ?_
  dsimp only
  cases (ws.catalogOf b).get? process space with
  | none => exact .throw h.quiet
  | some spec =>
    refine .bind (R := fun entries now => now = ws ∧ spec.bindArguments arguments = .ok entries)
      (.ofExcept h.quiet fun _ e => ⟨rfl, e⟩) ?_
    rintro entries now - - ⟨same, hbind⟩
    subst now
    refine (quiet_generateId h hb process).bind fun id now q g _ => .get_bind ?_
    have hb₁ := Nat.lt_of_lt_of_le hb g.builders
    refine (Ensures.afterQuiet q (quiet_declareAll q.wellFormed (Nat.lt_of_lt_of_le hr g.builders)
      hb₁ ((h.root_eq g hb).trans hroot) _)).bind fun _ after q' g' declared => ?_
    have inside := fun r hr => (hv.entries hbind) r hr
    -- The new node refers to what existed before its own place.
    have ok : Node.Ok after ⟨after.nodes.size⟩ ⟨b, spec, process, space, entries, id, .bool false,
        description, []⟩ := by
      refine ⟨Nat.lt_of_lt_of_le hb₁ g'.builders, fun r hr =>
        ⟨(g.trans g').within (inside r hr).1, ?_⟩⟩
      cases r with
      | node m => exact Nat.lt_of_lt_of_le (inside _ hr).2 (g.trans g').nodes
      | _ => trivial
    generalize hnode : (⟨b, spec, process, space, entries, id, .bool false, description, []⟩ :
      Node) = node at ok ⊢
    have e : ({ after with nodes := after.nodes.push node } : Workspace).node
        ⟨after.nodes.size⟩ = node := Arena.get_push_size ..
    have grows := after.grows_newNode node
    have appends := q'.wellFormed.appends_of_eq (q'.wellFormed.newNode ok) grows fun _ _ => rfl
    refine ⟨q'.trans (appends.quiet rfl rfl), grows, fun n hn p hp hdecl s hs => ?_⟩
    obtain rfl := Except.ok.inj hn
    change Ref.parameter p ∈ Value.refsInEntries
      (Workspace.node { after with nodes := after.nodes.push node } _).arguments at hp
    rw [e, ← hnode] at hp
    have hlt : p.index < ws.parameters.size := (inside _ hp).1
    rw [← g.parameter p hlt] at hdecl hs
    have e' : now.passed b = ws.passed b := by unfold Workspace.passed; rw [q.passed b hb]
    have older : ∀ r ∈ Value.refsInEntries entries, r.Below ⟨now.nodes.size⟩ := by
      intro r hr
      cases r with
      | node m => exact Nat.lt_of_lt_of_le (inside _ hr).2 g.nodes
      | _ => trivial
    have found : p ∈ now.discover entries :=
      (q.wellFormed.mem_discover_iff older).2 ⟨_, hp, .parameter p⟩
    exact e' ▸ declared p found (Nat.lt_of_lt_of_le hlt g.parameters) hdecl s hs

end

end Build

/-- Arguments that a call in a builder of the chain may have: in the first builder whatever is
usable there, and in all of them callback parameters of the builder itself. -/
inductive Value.Suits (K : CallbackRule) (ws : Workspace) (b : BuilderRef) (outer : List BuilderRef)
    (v : Value) : BuilderRef → Prop
  | own (h : v.Usable K ws (b :: outer)) : Suits K ws b outer v b
  | element {c : BuilderRef} (hc : c ∈ b :: outer)
      (h : ∀ r ∈ v.refs, ∃ p, r = .parameter p ∧ p.index < ws.parameters.size ∧
        (ws.parameter p).name ∈ ws.passed c) : Suits K ws b outer v c

section
variable {K : CallbackRule} {base ws now : Workspace} {root b c : BuilderRef}
  {outer : List BuilderRef}

theorem Value.Suits.mem {v : Value} (h : v.Suits K ws b outer c) : c ∈ b :: outer := by
  cases h with
  | own h => exact List.mem_cons_self
  | element hc h => exact hc

theorem Value.Suits.within {v : Value} (h : v.Suits K ws b outer c) : v.Within ws := by
  cases h with
  | own h => exact h.within
  | element hc h =>
    intro r hr
    obtain ⟨p, rfl, hp, -⟩ := h r hr
    exact hp

/-- What a new node refers to is in scope once it has been declared. -/
theorem Ref.Usable.covered {r : Ref} (h : r.Usable K ws (b :: outer)) (wf : ws.WellFormed)
    (g : ws.Grows now) (same : ws.SamePassed now (b :: outer))
    (declared : ∀ p, r = .parameter p → (ws.parameter p).isDeclarable →
      ∀ s, (ws.parameter p).name = .str s → now.Declared root s ∨ .str s ∈ ws.passed b) :
    r.Covered K now root (b :: outer) := by
  cases r with
  | parameter p =>
    show now.Names root (b :: outer) (now.parameter p).name
    rw [g.parameter p h.1]
    rcases h.2 with ⟨hdecl, s, hs⟩ | hbound
    · rw [hs]
      rcases declared p rfl hdecl s hs with hd | hd
      · exact .inl ⟨s, rfl, hd⟩
      · rw [← same.passed List.mem_cons_self] at hd
        exact .inr (Workspace.mem_bound.2 ⟨b, List.mem_cons_self, hd⟩)
    · exact .inr (same.bound ▸ hbound)
  | access a =>
    have received : now.Received (b :: outer) a := Workspace.Received.grow h wf g same
    exact .inr (Workspace.mem_bound.2 ⟨_, received.builder, received.name⟩)
  | builder c => exact h.elim
  | callback f => exact K.lasts g same h
  | node n => trivial
  | formula f => trivial

/-- A new node of a builder further out must be an element, and one of the first builder must refer
to what it may. -/
theorem Workspace.Scoped.addNode (h : ws.Scoped K root (b :: outer)) {id : String} {n : NodeRef}
    (ext : ws.Extends (· = c) (· = root) now)
    (nodes : (now.builder c).nodes = (ws.builder c).nodes ++ [(id, n)])
    (declared : ∀ s, ws.Declared root s → now.Declared root s)
    (element : c ∈ outer → now.ElementOf c n)
    (own : c = b → ∀ r ∈ Value.refsInEntries (now.node n).arguments,
      r.Covered K now root (b :: outer)) :
    ws.Follows K root (b :: outer) now := by
  have within := h.enclosed.within
  have other (d : BuilderRef) (hd : d ∈ b :: outer) (hdc : d ≠ c) :
      (now.builder d).nodes = (ws.builder d).nodes :=
    ((ext.kept.content d (within d hd)).untouched.resolve_left hdc).1
  refine h.advance { ext.appends with
    within
    passed := fun d hd => ext.kept.parentNames ext.start (within d hd)
    declared
    elements := fun d hd p hp hnew => ?_ } fun p hp => ?_
  · have hd' := List.mem_cons_of_mem b hd
    have old : ∀ p ∈ (ws.builder d).nodes, ¬ ws.NewNode p.2 := fun p hp =>
      Nat.not_le.2 ((ext.start.builder d (within d hd')).nodes p.1 p.2 hp).1
    by_cases hdc : d = c
    · subst hdc
      rw [nodes] at hp
      rcases List.mem_append.1 hp with hp | hp
      · exact absurd hnew (old p hp)
      · cases List.mem_singleton.1 hp
        exact element hd
    · rw [other d hd' hdc] at hp
      exact absurd hnew (old p hp)
  · by_cases hbc : b = c
    · subst hbc
      rw [nodes] at hp
      rcases List.mem_append.1 hp with hp | hp
      · exact .inl hp
      · cases List.mem_singleton.1 hp
        exact .inr (own rfl)
    · rw [other b List.mem_cons_self hbc] at hp
      exact .inl hp

namespace Build

/-- A call in a builder of the chain. -/
theorem follows_invoke (h : base.Follows K root (b :: outer) ws) (process : String)
    {arguments : Value} (hv : arguments.Suits K ws b outer c) (description : Value)
    (space : Option String) :
    Ensures (base.Follows K root (b :: outer)) ws (invoke c process arguments description space)
      fun n now => ws.Extends (· = c) (· = root) now ∧
        ws.IsCall now c (callKey process space) arguments n ∧ ws.SameAccesses now ∧
        Dictionary.get? (now.node n).id (now.builder c).nodes = some n := by
  have wf := h.advances.wellFormed
  have chain := h.scope.enclosed
  have hc := chain.within c hv.mem
  have hroot := chain.root_eq wf c hv.mem
  have whole := ensures_invoke (wf.extends (· = c) (· = root)) (b := c)
    ⟨hc, .inl rfl, .inl hroot⟩ process hv.within description space
  have made := quiet_makeNode wf chain.root_within hc hroot (callKey process space).1 hv.within
    description (callKey process space).2
  refine .follow h ?_
  rw [invoke_eq] at whole ⊢
  unfold Ensures at whole ⊢
  rw [run_bind_state] at whole ⊢
  rcases hm : (makeNode c (callKey process space).1 arguments description
    (callKey process space).2).run ws with ⟨e | n, now⟩
  · rw [hm] at whole
    have q := made.1
    rw [hm] at q
    exact ⟨q.follows h.scope, whole.2.1, nofun⟩
  · obtain ⟨q, g, declared⟩ := made.of_run hm
    -- Registering the node does not fail.
    obtain ⟨last, run⟩ : ∃ last, ((do register c n; return n : Build NodeRef).run now) =
      (.ok n, last) := ⟨_, rfl⟩
    rw [hm] at whole
    dsimp only at whole ⊢
    rw [run] at whole ⊢
    obtain ⟨ext, g', result⟩ := whole
    obtain ⟨is, same, -, nodes, registered⟩ := result n rfl
    refine ⟨?_, g', fun m hn => by cases hn; exact ⟨ext, is, same, registered⟩⟩
    have fields : last.nodes = now.nodes ∧ (last.builder root).metadata.parameters =
        (now.builder root).metadata.parameters := by
      cases run
      refine ⟨rfl, ?_⟩
      show ((now.modifyBuilder c _).builder root).metadata.parameters = _
      rw [Workspace.builder_modifyBuilder]
      split <;> rfl
    have kept : ∀ s, now.Declared root s → last.Declared root s := fun s hs => by
      unfold Workspace.Declared at *
      rw [fields.2]
      exact hs
    have passed : ws.SamePassed last (b :: outer) := fun d hd =>
      ext.kept.parentNames wf (chain.within d hd)
    have node : last.node n = now.node n := by simp only [Workspace.node, fields.1]
    have refs := Specification.refs_of_bindArguments is.arguments
    have element (hv : ∀ r ∈ arguments.refs, ∃ p, r = .parameter p ∧
        p.index < ws.parameters.size ∧ (ws.parameter p).name ∈ ws.passed c) (hc : c ∈ b :: outer) :
        last.ElementOf c n := by
      intro r hr
      obtain ⟨p, rfl, hlt, hname⟩ := hv r (refs r hr)
      refine ⟨p, rfl, Nat.lt_of_lt_of_le hlt g'.parameters, ?_⟩
      rw [g'.parameter p hlt, passed.passed hc]
      exact hname
    refine h.scope.addNode ext nodes (fun s hs => kept s (q.declared s hs)) (fun hc => ?_)
      fun hcb => ?_
    · cases hv with
      | own hv => exact absurd (chain.lt wf b hc) (Nat.lt_irrefl _)
      | element hc hv => exact element hv hc
    · subst hcb
      cases hv with
      | own hv =>
        refine fun r hr => (hv r (refs r hr)).covered wf g' passed fun p e hdecl s hs => ?_
        subst e
        rw [node] at hr
        exact (declared p hr hdecl s hs).imp_left (kept s)
      | element hc hv => exact (element hv hc).covered hc

end Build

end

end ProcessGraph
