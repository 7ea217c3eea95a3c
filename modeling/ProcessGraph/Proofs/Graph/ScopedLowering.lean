import ProcessGraph.Proofs.Graph.ScopedOperations

/-!
# Lowering in a scope

Elements of callback parameters, and formulas. What a formula mentions is usable in its builder when
the formula gets to it (`follows_resolve`), and so are the values of its parts (`follows_lower`). A
block that is undone leaves a scope (`follows_atomically`).
-/

set_option autoImplicit false

namespace ProcessGraph

section
variable {K : CallbackRule} {base ws now after : Workspace} {root b c : BuilderRef}
  {outer : List BuilderRef}

namespace Workspace

theorem Follows.samePassed {chain : List BuilderRef} (h : base.Follows K root chain now)
    (h' : base.Follows K root chain after) : now.SamePassed after chain := fun c hc =>
  (h'.advances.passed c hc).trans (h.advances.passed c hc).symm

/-- A callback parameter that a builder has looked up is one that it has received. -/
theorem IsCallbackParameter.received {name : Value} {a : AccessRef} {names : List Value}
    (is : now.IsCallbackParameter b name a) (hn : now.parentNames b = .ok names)
    (mem : name ∈ names) : now.Received (b :: outer) a where
  within := is.within
  builder := is.builder ▸ List.mem_cons_self
  name := by
    rw [is.builder, is.parameter]
    unfold Workspace.passed
    rw [hn]
    exact mem

end Workspace

/-- What is usable stays so while work goes on. -/
theorem Value.Usable.follow {chain : List BuilderRef} {v : Value} (hv : v.Usable K now chain)
    (h : base.Follows K root chain now) (h' : base.Follows K root chain after)
    (g : now.Grows after) : v.Usable K after chain :=
  hv.grow h.advances.wellFormed g (h.samePassed h')

theorem Value.usable_of_refs_eq_nil {chain : List BuilderRef} {v : Value} (h : v.refs = []) :
    v.Usable K ws chain := by
  intro r hr
  rw [h] at hr
  cases hr

theorem Value.usable_node {chain : List BuilderRef} {n : NodeRef} (hn : n.index < ws.nodes.size) :
    (Value.node n).Usable K ws chain := by
  intro r hr
  cases List.mem_singleton.1 hr
  exact hn

theorem Value.usable_access {chain : List BuilderRef} {a : AccessRef} :
    (Value.access a).Usable K ws chain ↔ ws.Received chain a := by
  refine ⟨fun h => h _ (List.mem_singleton.2 rfl), fun h r hr => ?_⟩
  cases List.mem_singleton.1 hr
  exact h

theorem Value.usable_list {chain : List BuilderRef} {vs : List Value} :
    (Value.list vs).Usable K ws chain ↔ ∀ v ∈ vs, v.Usable K ws chain := by
  simp only [Value.Usable, mem_refs_list]
  refine ⟨fun h v hv r hr => h r ⟨v, hv, hr⟩, fun h r hr => ?_⟩
  obtain ⟨v, hv, hr⟩ := hr
  exact h v hv r hr

theorem Value.usable_dict {chain : List BuilderRef} {d : Value.Entries} :
    (Value.dict d).Usable K ws chain ↔ ∀ p ∈ d, p.2.Usable K ws chain := by
  simp only [Value.Usable, mem_refs_dict]
  refine ⟨fun h p hp r hr => h r ⟨p, hp, hr⟩, fun h r hr => ?_⟩
  obtain ⟨p, hp, hr⟩ := hr
  exact h p hp r hr

namespace Build

/-! ## Elements -/

/-- An element may be made for any callback parameter that a builder of the chain has received. -/
theorem follows_element (h : base.Follows K root (b :: outer) ws) {a : AccessRef}
    (ha : ws.Received (b :: outer) a) (key : ElementKey) :
    Ensures (base.Follows K root (b :: outer)) ws (element a key) fun n now =>
      n.index < now.nodes.size := by
  have wf := h.advances.wellFormed
  unfold element
  refine .get_bind ?_
  dsimp only
  cases hk : Dictionary.get? key (ws.access a).elements with
  | some n =>
    exact .pure h ((wf.access a ha.within).elements key n (Dictionary.mem_of_get? hk)).within
  | none =>
    have suits : (Value.object [("data", .parameter (ws.access a).parameter),
        (key.argument, key.toValue)]).Suits K ws b outer (ws.access a).builder :=
      .element ha.builder fun r hr => ⟨(ws.access a).parameter, refs_elementArguments r hr,
        (wf.access a ha.within).parameter, ha.name⟩
    refine (follows_invoke h _ suits .null none).bind
      fun n now h₁ g₁ ⟨ext, is, same, registered⟩ => ?_
    have e := same a ha.within
    have element : now.IsElement (now.access a) key n := by
      rw [e]
      refine ⟨is.within, ?_, (Except.ok.inj is.arguments).symm, registered⟩
      rw [(g₁.builder _ (wf.access a ha.within).builder).2.1]
      exact is.process
    have ha₁ := Nat.lt_of_lt_of_le ha.within g₁.accesses
    have remember := ensures_remember ext ha₁ (.inl (congrArg ArrayAccess.builder e)) element is.new
      (e ▸ hk)
    have quiet : now.Quiet root _ := (h₁.advances.wellFormed.appends_of_eq remember.1.wellFormed
      remember.2.1 fun _ _ => rfl).quiet rfl rfl
    refine .bind (R := fun _ _ => True) (.inScope h₁ (.change quiet remember.2.1 trivial))
      fun _ after h₂ g₂ _ => .get_bind ?_
    refine (Ensures.inScope h₂ (quiet_log h₂.advances.wellFormed h₂.scope.enclosed.root_within
      _)).bind fun _ last h₃ g₃ _ => .pure h₃ ?_
    exact Nat.lt_of_lt_of_le is.within (g₂.trans g₃).nodes

theorem follows_elementAt (h : base.Follows K root (b :: outer) ws) {a : AccessRef}
    (ha : ws.Received (b :: outer) a) (key : Value) :
    Ensures (base.Follows K root (b :: outer)) ws (elementAt a key) fun n now =>
      n.index < now.nodes.size := by
  unfold elementAt
  refine .get_bind ?_
  refine .bind (R := fun _ now => now = ws) (.ofExcept h fun _ _ => rfl) fun k now h₁ _ e => ?_
  subst e
  exact follows_element h₁ ha k

/-! ## Shortcuts -/

theorem follows_callShortcut (h : base.Follows K root (b :: outer) ws) (process : String)
    (spec : Specification) {arguments : List Value} {named : Value.Entries}
    (hv : ∀ v ∈ arguments, v.Usable K ws (b :: outer))
    (hnamed : ∀ p ∈ named, p.2.Usable K ws (b :: outer)) :
    Ensures (base.Follows K root (b :: outer)) ws (callShortcut b process spec arguments named)
      fun n now => n.index < now.nodes.size := by
  unfold callShortcut
  split
  · exact (follows_invoke h process (.own (Value.usable_list.2 hv)) .null none).mono
      fun n now _ _ is => is.2.1.within
  · refine .bind (R := fun entries now => now = ws ∧ spec.bind arguments = .ok entries)
      (.ofExcept h fun _ e => ⟨rfl, e⟩) fun entries now h₁ _ ⟨e, hbind⟩ => ?_
    subst e
    have usable : (Value.dict (Dictionary.insertAll entries named)).Usable K now (b :: outer) := by
      refine Value.usable_dict.2 fun p hp => ?_
      rcases Dictionary.mem_insertAll hp with hp | hp
      · exact hnamed p hp
      · exact hv _ (Specification.mem_of_bind hbind p hp)
    exact (follows_invoke h₁ process (.own usable) .null none).mono fun n now _ _ is => is.2.1.within

/-! ## Trees -/

/-- An identifier becomes a literal, a node of the builder, or a parameter that is called by a
text. -/
theorem follows_resolve (h : base.Follows K root (b :: outer) ws) (name : String) :
    Ensures (base.Follows K root (b :: outer)) ws (resolve b name) fun v now =>
      v.Usable K now (b :: outer) := by
  have hb := h.scope.enclosed.within b List.mem_cons_self
  have found : Ensures (ws.Quiet root) ws (accessesFor b name) fun as now =>
      ∀ a ∈ as, now.Received (b :: outer) a := by
    refine (Ensures.untouched h.scope.enclosed.root_within
      (ensures_accessesFor (h.advances.wellFormed.extends _ _) hb name)).mono
      fun as now q _ ⟨_, names, hnames, has⟩ a ha => ?_
    obtain ⟨text, htext, is⟩ := exists_of_forall₂_of_mem has ha
    split at hnames
    · exact is.received ((q.passed b hb).trans hnames) htext
    · cases hnames
      cases htext
  rw [resolve_eq]
  refine (Ensures.inScope h found).bind fun as now h₁ g₁ received => ?_
  unfold resolveWith
  split
  · rename_i v hv
    exact .pure h₁ (Value.usable_of_refs_eq_nil
      (Value.refs_of_literals (Reference.ofName_eq_literal hv)))
  · refine .get_bind ?_
    split
    · rename_i n hn
      have hb₁ := h₁.scope.enclosed.within b List.mem_cons_self
      exact .pure h₁ (Value.usable_node ((h₁.advances.wellFormed.builder b hb₁).nodes _ n
        (Dictionary.mem_of_get? hn)).1)
    · exact .throw h₁
  · rename_i depth key _
    refine .ite (fun _ => .bind (R := fun _ _ => False) (.throw h₁) fun _ _ _ _ hf => hf.elim)
      fun _ => ?_
    split
    · rename_i a ha
      exact (follows_elementAt h₁ (received a (List.mem_of_getElem? ha)) (.str key)).bind
        fun n after h₂ _ hn => .pure h₂ (Value.usable_node hn)
    · exact .throw h₁
  · rename_i text _
    dsimp only
    refine (Ensures.inScope h₁ (quiet_newParameter h₁.advances.wellFormed
      h₁.scope.enclosed.root_within (.named text))).bind fun r after h₂ _ ⟨hr, hp⟩ => ?_
    refine (Ensures.inScope h₂ (quiet_addParameter h₂.advances.wellFormed
      h₂.scope.enclosed.root_within (h₂.scope.enclosed.within b List.mem_cons_self)
      (Parameter.nodup_declaration _) true)).bind fun _ last h₃ g₃ _ => .pure h₃ ?_
    intro q hq
    cases List.mem_singleton.1 hq
    refine ⟨Nat.lt_of_lt_of_le hr g₃.parameters, .inl ?_⟩
    rw [g₃.parameter r hr, hp]
    exact ⟨rfl, text, rfl⟩

theorem follows_addOperator (h : base.Follows K root (b :: outer) ws) (op : String)
    {left right : Value} (hl : left.Usable K ws (b :: outer)) (hr : right.Usable K ws (b :: outer)) :
    Ensures (base.Follows K root (b :: outer)) ws (addOperator b op left right) fun n now =>
      n.index < now.nodes.size := by
  unfold addOperator
  split
  · exact .throw h
  · rename_i process _
    refine .get_bind ?_
    split
    · exact .throw h
    · rename_i spec _
      refine .bind (R := fun entries now => now = ws ∧
        operatorArguments op spec left right = .ok entries)
        (.ofExcept h fun _ e => ⟨rfl, e⟩) fun entries now h₁ _ ⟨same, hargs⟩ => ?_
      subst same
      have usable : (Value.dict entries).Usable K now (b :: outer) := by
        refine Value.usable_dict.2 fun p hp => ?_
        rcases mem_of_operatorArguments hargs hp with e | e
        · exact e ▸ hl
        · exact e ▸ hr
      exact (follows_invoke h₁ process (.own usable) .null none).mono
        fun n now _ _ is => is.2.1.within

theorem follows_applySign (h : base.Follows K root (b :: outer) ws) (op : String) {v : Value}
    (hv : v.Usable K ws (b :: outer)) :
    Ensures (base.Follows K root (b :: outer)) ws (applySign b op v) fun w now =>
      w.Usable K now (b :: outer) := by
  unfold applySign
  refine .ite (fun _ => .pure h hv) fun _ => ?_
  split
  · exact .pure h (Value.usable_of_refs_eq_nil rfl)
  · exact .pure h (Value.usable_of_refs_eq_nil rfl)
  · exact (follows_addOperator h "*" (Value.usable_of_refs_eq_nil rfl) hv).bind
      fun n now h₁ _ hn => .pure h₁ (Value.usable_node hn)

mutual

theorem follows_lower {ws : Workspace} (h : base.Follows K root (b :: outer) ws)
    (t : Formula.Tree) :
    Ensures (base.Follows K root (b :: outer)) ws (lower b t) fun v now =>
      v.Usable K now (b :: outer) :=
  match t with
  | .number value => by
    unfold lower
    exact .pure h (Value.usable_of_refs_eq_nil value.refs_toValue)
  | .identifier name => by
    unfold lower
    exact follows_resolve h name
  | .binary op left right => by
    unfold lower
    refine (follows_lower h left).bind fun l now h₁ _ hl => ?_
    refine (follows_lower h₁ right).bind fun r after h₂ g₂ hr => ?_
    exact (follows_addOperator h₂ op (hl.follow h₁ h₂ g₂) hr).bind
      fun n last h₃ _ hn => .pure h₃ (Value.usable_node hn)
  | .unary op operand => by
    unfold lower
    exact (follows_lower h operand).bind fun v now h₁ _ hv => follows_applySign h₁ op hv
  | .call name arguments => by
    unfold lower
    refine (follows_lowerAll h arguments).bind fun vs now h₁ _ hvs => ?_
    exact (follows_invoke h₁ name (.own (Value.usable_list.2 hvs)) .null none).bind
      fun n after h₂ _ is => .pure h₂ (Value.usable_node is.2.1.within)
  | .group inner => by
    unfold lower
    exact follows_lower h inner

theorem follows_lowerAll {ws : Workspace} (h : base.Follows K root (b :: outer) ws)
    (ts : List Formula.Tree) :
    Ensures (base.Follows K root (b :: outer)) ws (lowerAll b ts) fun vs now =>
      ∀ v ∈ vs, v.Usable K now (b :: outer) :=
  match ts with
  | [] => by
    unfold lowerAll
    exact .pure h fun _ hv => nomatch hv
  | t :: ts => by
    unfold lowerAll
    refine (follows_lower h t).bind fun v now h₁ _ hv => ?_
    refine (follows_lowerAll h₁ ts).bind fun vs after h₂ g₂ hvs => .pure h₂ fun w hw => ?_
    rcases List.mem_cons.1 hw with rfl | hw
    · exact hv.follow h₁ h₂ g₂
    · exact hvs w hw

end

/-! ## Formulas -/

/-- A block on the first builder, whether it is undone or not. -/
theorem follows_atomically {α : Type} (h : base.Follows K root (b :: outer) ws) {body : Build α}
    {Q : α → Workspace → Prop} (hbody : Ensures (ws.Follows K root (b :: outer)) ws body Q) :
    Ensures (base.Follows K root (b :: outer)) ws (atomically b body) Q := by
  refine .follow h ?_
  obtain ⟨hi, g, hq⟩ := hbody
  unfold Ensures
  rw [run_atomically]
  rcases hrun : body.run ws with ⟨e | a, now⟩
  · rw [hrun] at hi g
    exact ⟨hi.rollBack h.scope, g.trans (Workspace.grows_rollBack h.advances.wellFormed g
      (h.scope.enclosed.within b List.mem_cons_self)), nofun⟩
  · rw [hrun] at hi g hq
    exact ⟨hi, g, hq⟩

theorem follows_lowerToNode (h : base.Follows K root (b :: outer) ws) (text : String)
    (t : Formula.Tree) :
    Ensures (base.Follows K root (b :: outer)) ws (lowerToNode b text t) fun n now =>
      n.index < now.nodes.size := by
  refine follows_atomically h ((follows_lower (h.scope.follows h.advances.wellFormed) t).bind
    fun v now h₁ _ hv => ?_)
  split
  · exact .pure h₁ (Value.within_node.1 hv.within)
  · exact .throw h₁

theorem follows_generate (h : base.Follows K root (b :: outer) ws) {f : FormulaRef}
    (hf : (ws.formula f).builder = some b) (asResult : Bool) :
    Ensures (base.Follows K root (b :: outer)) ws (generate f asResult) fun n now =>
      n.index < now.nodes.size := by
  unfold generate
  refine .get_bind ?_
  dsimp only
  rw [hf]
  dsimp only
  refine (follows_lowerToNode h _ _).bind fun n now h₁ _ hn => ?_
  have finish {now : Workspace} (h₁ : base.Follows K root (b :: outer) now)
      (hn : n.index < now.nodes.size) : Ensures (base.Follows K root (b :: outer)) now (do
        log (.debug Log.formulaLogger ("Generated formula '" ++ (ws.formula f).text ++ "' -> " ++
          ((← get).node n).id))
        return n) fun n now => n.index < now.nodes.size :=
    .get_bind ((Ensures.inScope h₁ (quiet_log h₁.advances.wellFormed
      h₁.scope.enclosed.root_within _)).bind fun _ _ h₂ g₂ _ =>
        .pure h₂ (Nat.lt_of_lt_of_le hn g₂.nodes))
  refine .ite (fun _ => ?_) fun _ => finish h₁ hn
  exact (Ensures.inScope h₁ (quiet_setResult h₁.advances.wellFormed n _)).bind
    fun _ after h₂ g₂ _ => finish h₂ (Nat.lt_of_lt_of_le hn g₂.nodes)

theorem follows_compile (h : base.Follows K root (b :: outer) ws) (text : String)
    (asResult : Bool) :
    Ensures (base.Follows K root (b :: outer)) ws (compile b text asResult) fun n now =>
      n.index < now.nodes.size := by
  unfold compile
  refine (Ensures.inScope h (quiet_createFormula h.advances.wellFormed
    h.scope.enclosed.root_within text)).bind fun f now h₁ _ hf => ?_
  refine (Ensures.inScope h₁ (quiet_setFormulaBuilder h₁.advances.wellFormed
    h₁.scope.enclosed.root_within f)).bind fun _ after h₂ _ hset => ?_
  exact follows_generate h₂ (hset hf) asResult

end Build

end

end ProcessGraph
