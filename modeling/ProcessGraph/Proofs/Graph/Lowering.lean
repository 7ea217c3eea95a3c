import ProcessGraph.Graph.Lowering
import ProcessGraph.Proofs.Graph.Calls

/-!
# Contracts of lowering

What an identifier becomes (`ensures_resolve`), and that lowering a tree keeps the workspace
well-formed and changes the one builder only (`ensures_lower`), also as an atomic step of a formula
(`ensures_atomically`, `ensures_compile`).
-/

set_option autoImplicit false

namespace ProcessGraph

/-- The objects in the value exist, and if it is a node then it is one of the builder. -/
def Value.OwnedBy (ws : Workspace) (b : BuilderRef) (v : Value) : Prop :=
  v.Within ws ∧ ∀ n, v = .node n → (ws.node n).builder = b

section
variable {ws now : Workspace} {b : BuilderRef}

theorem Value.OwnedBy.grow {v : Value} (h : v.OwnedBy ws b) (g : ws.Grows now) :
    v.OwnedBy now b := by
  refine ⟨g.value_within h.1, fun n e => ?_⟩
  subst e
  exact (g.node n (within_node.1 h.1)).builder.trans (h.2 n rfl)

theorem Value.ownedBy_node {n : NodeRef} (hn : n.index < ws.nodes.size)
    (hb : (ws.node n).builder = b) : (Value.node n).OwnedBy ws b :=
  ⟨within_node.2 hn, fun m e => by cases e; exact hb⟩

theorem Scalar.ownedBy_toValue (s : Scalar) : s.toValue.OwnedBy ws b :=
  ⟨s.within_toValue, fun n e => by cases s <;> cases e⟩

/-- A registered element is a node of the builder of its callback parameter. -/
theorem Workspace.IsElement.owner {access : ArrayAccess} {k : ElementKey} {n : NodeRef}
    (is : ws.IsElement access k n) (h : ws.WellFormed)
    (hb : access.builder.index < ws.builders.size) : (ws.node n).builder = access.builder :=
  ((h.builder _ hb).nodes _ n (Dictionary.mem_of_get? is.registered)).2.1

end

/-- What an identifier has become, given the names of the callback parameters. -/
def Workspace.IsResolved (ws now : Workspace) (b : BuilderRef) (names : List Value) (v : Value) :
    Reference → Prop
  | .literal w => v = w
  | .node id => ∃ n, v = .node n ∧ Dictionary.get? id (ws.builder b).nodes = some n
  | .element depth key => ∃ name access k n, v = .node n ∧ names[depth - 1]? = some name ∧
      ElementKey.ofText key = .ok k ∧ access.parameter.index < now.parameters.size ∧
      now.parameter access.parameter = .ofCallback name ∧ access.builder = b ∧
      now.IsElement access k n
  | .parameter name => ∃ r, v = .parameter r ∧ r.index < now.parameters.size ∧
      now.parameter r = .named name

theorem Value.refs_of_literals {name : String} {v : Value}
    (h : Dictionary.get? name ProcessGraph.literals = some v) : v.refs = [] := by
  have hm := Dictionary.mem_of_get? h
  simp only [ProcessGraph.literals, List.mem_cons, Prod.mk.injEq, List.not_mem_nil, or_false] at hm
  rcases hm with ⟨-, rfl⟩ | ⟨-, rfl⟩ | ⟨-, rfl⟩ <;> rfl

theorem Value.ownedBy_literals {ws : Workspace} {b : BuilderRef} {name : String} {v : Value}
    (h : Dictionary.get? name ProcessGraph.literals = some v) : v.OwnedBy ws b := by
  have hm := Dictionary.mem_of_get? h
  simp only [ProcessGraph.literals, List.mem_cons, Prod.mk.injEq, List.not_mem_nil, or_false] at hm
  rcases hm with ⟨-, rfl⟩ | ⟨-, rfl⟩ | ⟨-, rfl⟩ <;>
    exact ⟨within_of_refs_eq_nil rfl, fun n e => nomatch e⟩

/-- A name that stands for a value is a literal. -/
theorem Reference.ofName_eq_literal {name : String} {available : Nat} {v : Value}
    (h : Reference.ofName name available = .literal v) :
    Dictionary.get? name ProcessGraph.literals = some v := by
  unfold Reference.ofName at h
  split at h
  · cases h
    assumption
  · split at h
    · cases h
    · dsimp only at h
      split at h <;> cases h
    · cases h

namespace Build

/-- The value of an identifier, with the callback parameters that are looked at. -/
def resolveWith (b : BuilderRef) (name : String) (accesses : List AccessRef) : Build Value := do
  match Reference.ofName name accesses.length with
  | .literal v => return v
  | .node id =>
    match Dictionary.get? id ((← get).builder b).nodes with
    | some n => return .node n
    | none => throw (.unknownNode id)
  | .element depth key =>
    if key = "" then throw (.missingElement name)
    match accesses[depth - 1]? with
    | some a => return .node (← elementAt a (.str key))
    | none => throw (.missingElement name)
  | .parameter name =>
    let parameter := Parameter.named name
    let r ← newParameter parameter
    addParameter b parameter.declaration
    return .parameter r

/-- The callback parameters that an identifier may mean. -/
def accessesFor (b : BuilderRef) (name : String) : Build (List AccessRef) :=
  if startsWithDollar name then parentParameters b else pure []

theorem resolve_eq (b : BuilderRef) (name : String) :
    resolve b name = (do let accesses ← accessesFor b name; resolveWith b name accesses) := by
  unfold resolve accessesFor
  cases startsWithDollar name <;> rfl

section
variable {S P : BuilderRef → Prop} {base ws : Workspace} {b : BuilderRef}
  (h : base.Extends S P ws) (hb : b.index < ws.builders.size)
include h

theorem ensures_newParameter (p : Parameter) :
    Ensures (base.Extends S P) ws (newParameter p) fun r now =>
      ws.SameNodes now ∧ now.builders = ws.builders ∧ r.index < now.parameters.size ∧
      now.parameter r = p := by
  refine ⟨⟨h.start, h.wellFormed.newParameter p, h.kept.newParameter p⟩, ws.grows_newParameter p,
    fun r e => ?_⟩
  obtain rfl := Except.ok.inj e
  refine ⟨⟨rfl, fun _ _ => rfl, fun _ _ => rfl⟩, rfl, ?_, Arena.get_push_size ..⟩
  show ws.parameters.size < (ws.parameters.push p).size
  simp

include hb

/-- The callback parameters that an identifier may mean are those of the builder. -/
theorem ensures_accessesFor (name : String) :
    Ensures (base.Extends S P) ws (accessesFor b name) fun as now =>
      ws.SameNodes now ∧ ∃ names,
        (if startsWithDollar name then ws.parentNames b else .ok []) = .ok names ∧
        List.Forall₂ (now.IsCallbackParameter b) names as := by
  unfold accessesFor
  by_cases hd : startsWithDollar name
  · simp only [hd, if_true]
    exact ensures_parentParameters h hb
  · simp only [hd, Bool.false_eq_true, if_false]
    exact .pure h ⟨.refl ws, [], rfl, .nil⟩

end

section
variable {S P : BuilderRef → Prop} {base ws : Workspace} {b : BuilderRef}
  (h : base.Extends S P ws) (hb : Workspace.Open S P base ws b)
include h hb

theorem ensures_resolve (name : String) :
    Ensures (base.Extends S P) ws (resolve b name) fun v now =>
      v.OwnedBy now b ∧ ∃ names,
        (if startsWithDollar name then ws.parentNames b else .ok []) = .ok names ∧
        ws.IsResolved now b names v (Reference.ofName name names.length) := by
  rw [resolve_eq]
  unfold resolveWith
  refine (ensures_accessesFor h hb.within name).bind
    fun as now h₁ g₁ ⟨same, names, hnames, has⟩ => ?_
  have hb₁ := hb.grow h.wellFormed g₁
  rw [← has.length_eq]
  split
  · rename_i v hv
    exact .pure h₁ ⟨Value.ownedBy_literals (Reference.ofName_eq_literal hv), names, hnames,
      by rw [hv]; rfl⟩
  · rename_i id hid
    refine .get_bind ?_
    split
    · rename_i n hn
      rw [same.registered b hb.within] at hn
      have hm := (h.wellFormed.builder b hb.within).nodes id n (Dictionary.mem_of_get? hn)
      refine .pure h₁ ⟨(Value.ownedBy_node hm.1 hm.2.1).grow g₁, names, hnames, ?_⟩
      rw [hid]
      exact ⟨n, rfl, hn⟩
    · exact .throw h₁
  · rename_i depth key hkey
    refine .ite (fun _ => .bind (R := fun _ _ => False) (.throw h₁) fun _ _ _ _ hf => hf.elim)
      fun _ => ?_
    split
    · rename_i a ha
      obtain ⟨hlt, hget⟩ := List.getElem?_eq_some_iff.1 ha
      have hlt' : depth - 1 < names.length := has.length_eq.symm ▸ hlt
      have is : now.IsCallbackParameter b names[depth - 1] a := hget ▸ has.get hlt' hlt
      have ok := h₁.wellFormed.access a is.within
      refine (ensures_elementAt h₁ is.within (is.builder.symm ▸ hb₁) (.str key)).bind
        fun n after h₂ g₂ ⟨k, hk, hn⟩ =>
          .pure h₂ ⟨Value.ownedBy_node hn.within ?_, names, hnames, ?_⟩
      · exact (hn.owner h₂.wellFormed (Nat.lt_of_lt_of_le ok.builder g₂.builders)).trans is.builder
      rw [hkey]
      refine ⟨names[depth - 1], now.access a, k, n, rfl, List.getElem?_eq_getElem hlt', hk,
        Nat.lt_of_lt_of_le ok.parameter g₂.parameters, ?_, is.builder, hn⟩
      rw [g₂.parameter _ ok.parameter]
      exact is.parameter
    · exact .throw h₁
  · rename_i name' hname
    dsimp only
    refine (ensures_newParameter h₁ _).bind fun r after h₂ g₂ ⟨_, _, hr, hp⟩ => ?_
    have hb₂ := hb₁.grow h₁.wellFormed g₂
    refine (ensures_addParameter h₂ hb₂.within _ true hb₂.declared).bind
      fun _ last h₃ g₃ _ => .pure h₃ ⟨?_, names, hnames, ?_⟩
    · exact ⟨Value.within_parameter.2 (Nat.lt_of_lt_of_le hr g₃.parameters), nofun⟩
    · rw [hname]
      exact ⟨r, rfl, Nat.lt_of_lt_of_le hr g₃.parameters, (g₃.parameter r hr).trans hp⟩

end

end Build

/-! ## Operators -/

/-- An operator takes its operands under the names of the first two parameters. -/
theorem operatorArguments_eq_ok {op : String} {spec : Specification} {left right : Value}
    {entries : Value.Entries} (h : operatorArguments op spec left right = .ok entries) :
    ∃ first second rest name name' x y,
      Value.field "parameters" spec = .list (first :: second :: rest) ∧
      operandName "x" first = .ok name ∧ operandName "y" second = .ok name' ∧
      name.key? = some x ∧ name'.key? = some y ∧
      entries = Dictionary.ofEntries (Scalar.spellAlike [(x, left), (y, right)]) := by
  unfold operatorArguments at h
  split at h
  · rename_i first second rest hp
    cases hx : operandName "x" first with
    | error e => simp [hx, bind, Except.bind] at h
    | ok name =>
      cases hy : operandName "y" second with
      | error e => simp [hx, hy, bind, Except.bind] at h
      | ok name' =>
        simp only [hx, hy, bind, Except.bind] at h
        split at h
        · rename_i x y hx' hy'
          cases h
          exact ⟨first, second, rest, name, name', x, y, hp, hx, hy, hx', hy', rfl⟩
        · cases h
  · cases h

theorem mem_of_operatorArguments {op : String} {spec : Specification} {left right : Value}
    {entries : Value.Entries} (h : operatorArguments op spec left right = .ok entries)
    {p : Scalar × Value} (hp : p ∈ entries) : p.2 = left ∨ p.2 = right := by
  obtain ⟨_, _, _, _, _, x, y, -, -, -, -, -, rfl⟩ := operatorArguments_eq_ok h
  obtain ⟨q, hq, same⟩ :=
    Scalar.exists_of_mem_spellAlike ((Dictionary.mem_insertAll hp).resolve_right (by simp))
  simp only [List.mem_cons, List.not_mem_nil, or_false] at hq
  rw [← same]
  exact hq.imp (congrArg Prod.snd) (congrArg Prod.snd)

/-- The operator's process is called for the operands. -/
structure Workspace.IsOperation (ws now : Workspace) (b : BuilderRef) (op : String)
    (left right : Value) (n : NodeRef) (process : String) (spec : Specification)
    (entries : Value.Entries) : Prop where
  operator : Dictionary.get? op operatorProcesses = some process
  specification : (ws.catalogOf b).get? process none = some spec
  operands : operatorArguments op spec left right = .ok entries
  call : ws.IsCall now b (splitProcessId process) (.dict entries) n

namespace Build

section
variable {S P : BuilderRef → Prop} {base ws : Workspace} {b : BuilderRef}
  (h : base.Extends S P ws) (hb : Workspace.Open S P base ws b)
include h hb

theorem ensures_addOperator (op : String) {left right : Value} (hl : left.Within ws)
    (hr : right.Within ws) :
    Ensures (base.Extends S P) ws (addOperator b op left right) fun n now =>
      ∃ process spec entries, ws.IsOperation now b op left right n process spec entries := by
  unfold addOperator
  split
  · exact .throw h
  · rename_i process hprocess
    refine .get_bind ?_
    split
    · exact .throw h
    · rename_i spec hspec
      refine .bind (R := fun entries now => now = ws ∧
        operatorArguments op spec left right = .ok entries)
        (.ofExcept h fun _ e => ⟨rfl, e⟩) fun entries now h₁ g₁ ⟨same, hargs⟩ => ?_
      subst now
      have hw : (Value.dict entries).Within ws := by
        refine Value.within_dict.2 fun p hp => ?_
        rcases mem_of_operatorArguments hargs hp with e | e
        · exact e ▸ hl
        · exact e ▸ hr
      exact (ensures_invoke h₁ hb process hw .null none).mono fun n now _ _ is =>
        ⟨process, spec, entries, hprocess, hspec, hargs, is.1⟩

theorem ensures_applySign (op : String) {v : Value} (hv : v.OwnedBy ws b) :
    Ensures (base.Extends S P) ws (applySign b op v) fun w now => w.OwnedBy now b := by
  unfold applySign
  refine .ite (fun _ => .pure h hv) fun _ => ?_
  split
  · exact .pure h ⟨Value.within_of_refs_eq_nil rfl, nofun⟩
  · exact .pure h ⟨Value.within_of_refs_eq_nil rfl, nofun⟩
  · refine (ensures_addOperator h hb "*" (Value.within_of_refs_eq_nil rfl) hv.1).bind
      fun n now h₁ g₁ ⟨_, _, _, is⟩ => .pure h₁ (Value.ownedBy_node is.call.within is.call.builder)

end

/-! ## Trees -/

section
variable {S P : BuilderRef → Prop} {base : Workspace} {b : BuilderRef}

mutual

theorem ensures_lower {ws : Workspace} (h : base.Extends S P ws)
    (hb : Workspace.Open S P base ws b) (t : Formula.Tree) :
    Ensures (base.Extends S P) ws (lower b t) fun v now => v.OwnedBy now b :=
  match t with
  | .number value => by
    unfold lower
    exact .pure h value.ownedBy_toValue
  | .identifier name => by
    unfold lower
    exact (ensures_resolve h hb name).mono fun _ _ _ _ is => is.1
  | .binary op left right => by
    unfold lower
    refine (ensures_lower h hb left).bind fun l now h₁ g₁ hl => ?_
    have hb₁ := hb.grow h.wellFormed g₁
    refine (ensures_lower h₁ hb₁ right).bind fun r after h₂ g₂ hr => ?_
    exact (ensures_addOperator h₂ (hb₁.grow h₁.wellFormed g₂) op (hl.grow g₂).1 hr.1).bind
      fun n last h₃ _ ⟨_, _, _, is⟩ =>
        .pure h₃ (Value.ownedBy_node is.call.within is.call.builder)
  | .unary op operand => by
    unfold lower
    refine (ensures_lower h hb operand).bind fun v now h₁ g₁ hv => ?_
    exact ensures_applySign h₁ (hb.grow h.wellFormed g₁) op hv
  | .call name arguments => by
    unfold lower
    refine (ensures_lowerAll h hb arguments).bind fun vs now h₁ g₁ hvs => ?_
    exact (ensures_invoke h₁ (hb.grow h.wellFormed g₁) name (Value.within_list.2 hvs) .null none)
      |>.bind fun n after h₂ _ is => .pure h₂ (Value.ownedBy_node is.1.within is.1.builder)
  | .group inner => by
    unfold lower
    exact ensures_lower h hb inner

theorem ensures_lowerAll {ws : Workspace} (h : base.Extends S P ws)
    (hb : Workspace.Open S P base ws b) (ts : List Formula.Tree) :
    Ensures (base.Extends S P) ws (lowerAll b ts) fun vs now => ∀ v ∈ vs, v.Within now :=
  match ts with
  | [] => by
    unfold lowerAll
    exact .pure h fun _ hv => nomatch hv
  | t :: ts => by
    unfold lowerAll
    refine (ensures_lower h hb t).bind fun v now h₁ g₁ hv => ?_
    refine (ensures_lowerAll h₁ (hb.grow h.wellFormed g₁) ts).bind fun vs after h₂ g₂ hvs => ?_
    refine .pure h₂ fun w hw => ?_
    rcases List.mem_cons.1 hw with rfl | hw
    · exact g₂.value_within hv.1
    · exact hvs w hw

end

end

/-! ## Formulas -/

theorem run_atomically {α : Type} (b : BuilderRef) (body : Build α) (ws : Workspace) :
    (atomically b body).run ws =
      match body.run ws with
      | (.ok a, now) => (.ok a, now)
      | (.error e, now) => (.error e, Workspace.rollBack ws b now) := rfl

section
variable {S P : BuilderRef → Prop} {base ws : Workspace} {b : BuilderRef}
  (h : base.Extends S P ws)
include h

/-- An atomic step keeps what its body keeps, also when it is undone. -/
theorem ensures_atomically {α : Type} (hb : Workspace.Open S P base ws b) {body : Build α}
    {Q : α → Workspace → Prop} (hbody : Ensures (base.Extends S P) ws body Q) :
    Ensures (base.Extends S P) ws (atomically b body) Q := by
  obtain ⟨hi, g, hq⟩ := hbody
  unfold Ensures
  rw [run_atomically]
  rcases hrun : body.run ws with ⟨e | a, now⟩
  · rw [hrun] at hi g
    exact ⟨h.rollBack hi g hb, g.trans (Workspace.grows_rollBack h.wellFormed g hb.within),
      fun _ e => nomatch e⟩
  · rw [hrun] at hi g hq
    exact ⟨hi, g, hq⟩

theorem ensures_createFormula (text : String) :
    Ensures (base.Extends S P) ws (createFormula text) fun f now =>
      f.index < now.formulas.size ∧ now.builders = ws.builders := by
  unfold createFormula
  split
  · refine ⟨⟨h.start, h.wellFormed.newFormula _, h.kept.newFormula _⟩, ws.grows_newFormula _,
      fun f e => ?_⟩
    obtain rfl := Except.ok.inj e
    refine ⟨?_, rfl⟩
    show ws.formulas.size < (ws.formulas.push _).size
    simp
  · exact .throw h
  · exact .throw h

theorem ensures_setFormulaBuilder (f : FormulaRef) (b : BuilderRef) :
    Ensures (base.Extends S P) ws (setFormulaBuilder f b) fun _ now =>
      now.builders = ws.builders ∧
      (f.index < ws.formulas.size → (now.formula f).builder = some b) := by
  refine .change ⟨h.start, h.wellFormed.modifyFormula f fun _ => ⟨rfl, rfl⟩,
    h.kept.modifyFormula f fun _ => ⟨rfl, rfl⟩⟩ (ws.grows_modifyFormula f fun _ => ⟨rfl, rfl⟩)
    ⟨rfl, fun hf => ?_⟩
  rw [Workspace.formula_modifyFormula, if_pos ⟨rfl, hf⟩]

/-- The flag of a node that is not one of the earlier workspace. -/
theorem ensures_setResult {n : NodeRef} (hn : base.NewNode n) (v : Value) :
    Ensures (base.Extends S P) ws (setResult n v) fun _ now => now.builders = ws.builders :=
  .change ⟨h.start, h.wellFormed.modifyNode n fun _ => ⟨rfl, rfl, rfl, rfl, rfl, rfl⟩,
    h.kept.modifyNode n (fun _ => ⟨rfl, rfl, rfl, rfl, rfl, rfl⟩) (.inl hn)⟩
    (ws.grows_modifyNode n fun _ => ⟨rfl, rfl, rfl, rfl, rfl, rfl⟩) rfl

/-- The block in which a tree is lowered to a node. -/
theorem ensures_lowerBlock (hb : Workspace.Open S P base ws b) (text : String)
    (t : Formula.Tree) :
    Ensures (base.Extends S P) ws (do
      match ← lower b t with
      | .node n => return n
      | _ => throw (.formulaWithoutNode text)) fun n now =>
      n.index < now.nodes.size ∧ (now.node n).builder = b := by
  refine (ensures_lower h hb t).bind fun v now h₁ _ hv => ?_
  split
  · exact .pure h₁ ⟨Value.within_node.1 hv.1, hv.2 _ rfl⟩
  · exact .throw h₁

theorem ensures_lowerToNode (hb : Workspace.Open S P base ws b) (text : String)
    (t : Formula.Tree) :
    Ensures (base.Extends S P) ws (lowerToNode b text t) fun n now =>
      n.index < now.nodes.size ∧ (now.node n).builder = b :=
  ensures_atomically h hb (ensures_lowerBlock h hb text t)

/-- The nodes of a new builder are new. -/
theorem newNode_of_owner {n : NodeRef}
    (hb : base.builders.size ≤ (ws.node n).builder.index) : base.NewNode n := by
  refine Nat.not_lt.1 fun hlt => ?_
  rw [(h.kept.node n hlt).builder] at hb
  exact absurd (h.start.node n hlt).owner (Nat.not_lt.2 hb)

/-- The flag of the last node may only change if the node is not one of the earlier workspace. -/
theorem ensures_generate {f : FormulaRef} (hb : Workspace.Open S P base ws b)
    (hf : (ws.formula f).builder = some b) (asResult : Bool)
    (hnew : asResult = true → base.builders.size ≤ b.index) :
    Ensures (base.Extends S P) ws (generate f asResult) fun n now =>
      n.index < now.nodes.size ∧ (now.node n).builder = b := by
  unfold generate
  refine .get_bind ?_
  dsimp only
  rw [hf]
  dsimp only
  refine (ensures_lowerToNode h hb _ _).bind fun n now h₁ g₁ ⟨hn, howner⟩ => ?_
  have finish : ∀ {after : Workspace}, base.Extends S P after → now.Grows after →
      Ensures (base.Extends S P) after (do
        log (.debug Log.formulaLogger ("Generated formula '" ++ (ws.formula f).text ++ "' -> " ++
          ((← get).node n).id))
        return n) fun n now => n.index < now.nodes.size ∧ (now.node n).builder = b := by
    intro after h₂ g₂
    refine .get_bind ((ensures_log h₂ _).bind fun _ last h₃ g₃ _ => .pure h₃ ?_)
    have g := g₂.trans g₃
    exact ⟨Nat.lt_of_lt_of_le hn g.nodes, (g.node n hn).builder.trans howner⟩
  refine .ite (fun hres => ?_) fun _ => finish h₁ (.refl _)
  have new : base.NewNode n := newNode_of_owner h₁ (by rw [howner]; exact hnew hres)
  exact (ensures_setResult h₁ new _).bind fun _ after h₂ g₂ _ => finish h₂ g₂

theorem ensures_compile (hb : Workspace.Open S P base ws b) (text : String) (asResult : Bool)
    (hnew : asResult = true → base.builders.size ≤ b.index) :
    Ensures (base.Extends S P) ws (compile b text asResult) fun n now =>
      n.index < now.nodes.size ∧ (now.node n).builder = b := by
  unfold compile
  refine (ensures_createFormula h text).bind fun f now h₁ g₁ ⟨hf, _⟩ => ?_
  have hb₁ := hb.grow h.wellFormed g₁
  refine (ensures_setFormulaBuilder h₁ f b).bind fun _ after h₂ g₂ ⟨_, hset⟩ => ?_
  exact ensures_generate h₂ (hb₁.grow h₁.wellFormed g₂) (hset hf) asResult hnew

end

end Build

end ProcessGraph
