import ProcessGraph.Proofs.Graph.Operations

/-!
# Contracts of calls

A new id is not taken (`numberedId_nextNumber_not_mem`), bound arguments mention what was given
(`refs_of_bindArguments`), a call makes one node and registers it behind the others
(`ensures_invoke`), and accessing an element of a callback parameter gives a node that does so
(`ensures_element`).
-/

set_option autoImplicit false

namespace ProcessGraph

/-! ## Ids -/

theorem numberedId_injective {stem : String} {m n : Nat}
    (h : numberedId stem m = numberedId stem n) : m = n := by
  have h' := congrArg String.toList h
  simp only [numberedId, String.toList_append, List.append_cancel_left_eq] at h'
  have digits : Nat.toDigits 10 m = Nat.toDigits 10 n := by simpa using h'
  simpa using congrArg (Nat.ofDigitChars 10 · 0) digits

/-- If the number found is not free, then none of those tried was. -/
theorem taken_of_firstFree {taken : List String} {stem : String} {fuel n : Nat}
    (h : numberedId stem (firstFree taken stem fuel n) ∈ taken) :
    ∀ i ≤ fuel, numberedId stem (n + i) ∈ taken := by
  induction fuel generalizing n with
  | zero =>
    intro i hi
    obtain rfl : i = 0 := by omega
    exact h
  | succ fuel ih =>
    unfold firstFree at h
    split at h
    · rename_i hn
      intro i hi
      cases i with
      | zero => exact hn
      | succ i =>
        have := ih h i (by omega)
        rwa [show n + 1 + i = n + (i + 1) by omega] at this
    · contradiction

/-- There are more numbers to try than ids that can be taken. -/
theorem numberedId_firstFree_not_mem {taken : List String} {stem : String} {fuel n : Nat}
    (hf : taken.length ≤ fuel) : numberedId stem (firstFree taken stem fuel n) ∉ taken := by
  intro h
  have all := taken_of_firstFree h
  let tried := (List.range (fuel + 1)).map fun i => numberedId stem (n + i)
  have hnodup : tried.Nodup := by
    refine List.pairwise_map.2 (List.nodup_range.imp fun {i j} hij e => hij ?_)
    have := numberedId_injective e
    omega
  have hsub : tried ⊆ taken := by
    intro id hid
    obtain ⟨i, hi, rfl⟩ := List.mem_map.1 hid
    exact all i (by have := List.mem_range.1 hi; omega)
  have hlen := hnodup.length_le_of_subset hsub
  simp only [tried, List.length_map, List.length_range] at hlen
  omega

theorem Builder.numberedId_nextNumber_not_mem (b : Builder) (stem : String) :
    numberedId stem (b.nextNumber stem) ∉ b.nodes.keys :=
  numberedId_firstFree_not_mem (by simp [Dictionary.keys])

/-! ## Arguments -/

theorem forall₂_of_mapM {α β : Type} {f : α → Except Failure β} {xs : List α} {ys : List β}
    (h : xs.mapM f = .ok ys) : List.Forall₂ (fun x y => f x = .ok y) xs ys := by
  induction xs generalizing ys with
  | nil =>
    cases h
    exact .nil
  | cons x xs ih =>
    rw [List.mapM_cons] at h
    cases hx : f x with
    | error e => simp [hx, bind, Except.bind] at h
    | ok y =>
      cases hxs : xs.mapM f with
      | error e => simp [hx, hxs, bind, Except.bind] at h
      | ok ys' =>
        simp only [hx, hxs, bind, Except.bind, pure, Except.pure, Except.ok.injEq] at h
        subst h
        exact .cons hx (ih hxs)

theorem exists_of_forall₂_of_mem {α β : Type} {R : α → β → Prop} {xs : List α} {ys : List β}
    (h : List.Forall₂ R xs ys) {y : β} (hy : y ∈ ys) : ∃ x ∈ xs, R x y := by
  induction h with
  | nil => cases hy
  | cons hxy _ ih =>
    rcases List.mem_cons.1 hy with rfl | hy
    · exact ⟨_, List.mem_cons_self, hxy⟩
    · obtain ⟨x, hx, hxy⟩ := ih hy
      exact ⟨x, List.mem_cons_of_mem _ hx, hxy⟩

namespace Specification

/-- The names of the parameters that a specification lists, null for those without a name. -/
def parameterNames (spec : Specification) : Except Failure (List Value) := do
  (← parameters spec).mapM (Value.entry "name")

/-- Bound arguments are those given, one after the other, under the names of the parameters. -/
theorem bind_eq_ok {spec : Specification} {vs : List Value} {entries : Value.Entries}
    (h : spec.bind vs = .ok entries) :
    ∃ names pairs, spec.parameterNames = .ok names ∧ vs.length ≤ names.length ∧
      List.Forall₂ (fun p q => p.1.key? = some q.1 ∧ p.2 = q.2) (names.zip vs) pairs ∧
      entries = Dictionary.ofEntries (Scalar.spellAlike pairs) := by
  unfold bind at h
  cases hp : parameters spec with
  | error e => simp [hp, Bind.bind, Except.bind] at h
  | ok ps =>
    cases hn : ps.mapM (Value.entry "name") with
    | error e => simp [hp, hn, Bind.bind, Except.bind] at h
    | ok names =>
      simp only [hp, hn, Bind.bind, Except.bind] at h
      split at h
      · cases h
      · split at h
        · cases h
        · rename_i hlen _ pairs hpairs
          cases h
          refine ⟨names, pairs, ?_, Nat.not_lt.1 hlen, ?_, rfl⟩
          · simpa [parameterNames, hp, Bind.bind, Except.bind] using hn
          · refine (forall₂_of_mapM hpairs).imp fun p q e => ?_
            split at e
            · rename_i key hkey
              cases e
              exact ⟨hkey, rfl⟩
            · cases e

theorem mem_of_bind {spec : Specification} {vs : List Value} {entries : Value.Entries}
    (h : spec.bind vs = .ok entries) : ∀ p ∈ entries, p.2 ∈ vs := by
  obtain ⟨names, pairs, -, -, rel, rfl⟩ := bind_eq_ok h
  intro p hp
  obtain ⟨p', hp', same⟩ :=
    Scalar.exists_of_mem_spellAlike ((Dictionary.mem_insertAll hp).resolve_right (by simp))
  obtain ⟨q, hq, -, e⟩ := exists_of_forall₂_of_mem rel hp'
  rw [← same, ← e]
  exact (List.of_mem_zip hq).2

theorem refs_of_bindArguments {spec : Specification} {arguments : Value} {entries : Value.Entries}
    (h : spec.bindArguments arguments = .ok entries) :
    ∀ r ∈ Value.refsInEntries entries, r ∈ arguments.refs := by
  unfold bindArguments at h
  split at h
  · cases h
    exact fun _ hr => nomatch hr
  · cases h
    exact fun _ hr => hr
  · intro r hr
    obtain ⟨p, hp, hr⟩ := Value.mem_refsInEntries.1 hr
    exact Value.mem_refs_list.2 ⟨p.2, mem_of_bind h p hp, hr⟩
  · intro r hr
    obtain ⟨p, hp, hr⟩ := Value.mem_refsInEntries.1 hr
    exact Value.mem_refs_tuple.2 ⟨p.2, mem_of_bind h p hp, hr⟩
  · cases h

end Specification

/-! ## Calls -/

/-- The arguments refer to objects that exist. -/
theorem Value.Within.entries {ws : Workspace} {spec : Specification} {arguments : Value}
    {entries : Value.Entries} (hv : arguments.Within ws)
    (h : spec.bindArguments arguments = .ok entries) :
    ∀ r ∈ Value.refsInEntries entries, r.Within ws ∧ r.Below ⟨ws.nodes.size⟩ := by
  intro r hr
  have hw := hv r (Specification.refs_of_bindArguments h r hr)
  refine ⟨hw, ?_⟩
  cases r with
  | node m => exact hw
  | _ => trivial

/-- The node is the call of a process in a builder, made after the workspace `ws`. -/
structure Workspace.IsCall (ws now : Workspace) (b : BuilderRef)
    (key : String × Option String) (arguments : Value) (n : NodeRef) : Prop where
  new : ws.NewNode n
  within : n.index < now.nodes.size
  builder : (now.node n).builder = b
  process : ((now.node n).process, (now.node n).space) = key
  specification : (ws.catalogOf b).get? key.1 key.2 = some (now.node n).specification
  arguments : (now.node n).specification.bindArguments arguments = .ok (now.node n).arguments
  result : (now.node n).result = .bool false

/-- The process and the namespace that a call is for: a namespace that is not given may stand
behind an `@` in the process id. -/
def callKey (process : String) : Option String → String × Option String
  | none => splitProcessId process
  | some space => (process, some space)

theorem Build.invoke_eq (b : BuilderRef) (process : String) (arguments description : Value)
    (space : Option String) :
    invoke b process arguments description space = (do
      let n ← makeNode b (callKey process space).1 arguments description (callKey process space).2
      register b n
      return n) := by
  cases space <;> rfl

/-! ## Calls that succeed -/

namespace Build

section
variable {ws now : Workspace} {b : BuilderRef} {process : String} {arguments description : Value}
  {space : Option String} {n : NodeRef}

/-- What has been done when a node has been made. -/
theorem makeNode_eq_ok
    (run : (makeNode b process arguments description space).run ws = (.ok n, now)) :
    ∃ spec entries id numbered declared, (ws.catalogOf b).get? process space = some spec ∧
      spec.bindArguments arguments = .ok entries ∧
      (generateId b process).run ws = (.ok id, numbered) ∧
      (declareAll b (numbered.discover entries)).run numbered = (.ok (), declared) ∧
      (newNode ⟨b, spec, process, space, entries, id, .bool false, description, []⟩).run declared =
        (.ok n, now) := by
  unfold makeNode at run
  rw [run_get_bind] at run
  dsimp only at run
  split at run
  · cases run
  · rename_i spec found
    obtain ⟨entries, _, bound, run⟩ := run_bind_eq_ok run
    rw [run_ofExcept, Prod.mk.injEq] at bound
    obtain ⟨bound, rfl⟩ := bound
    obtain ⟨id, numbered, hid, run⟩ := run_bind_eq_ok run
    rw [run_get_bind] at run
    obtain ⟨⟨⟩, declared, hdeclared, run⟩ := run_bind_eq_ok run
    exact ⟨spec, entries, id, numbered, declared, found, bound, hid, hdeclared, run⟩

/-- A call makes a node and registers it. -/
theorem invoke_eq_makeNode
    (run : (invoke b process arguments description space).run ws = (.ok n, now)) :
    ∃ made r, (makeNode b (callKey process space).1 arguments description
        (callKey process space).2).run ws = (.ok n, made) ∧
      now = (made.modifyBuilder b fun builder => { builder with
        nodes := Dictionary.insert (made.node n).id n builder.nodes }).addRecord r := by
  rw [invoke_eq] at run
  obtain ⟨m, made, hmade, run⟩ := run_bind_eq_ok run
  cases run
  exact ⟨made, _, hmade, rfl⟩

end

end Build

/-- The callback parameters of an earlier workspace are as they were. -/
def Workspace.SameAccesses (ws now : Workspace) : Prop :=
  ∀ a : AccessRef, a.index < ws.accesses.size → now.access a = ws.access a

namespace Build

section
variable {S P : BuilderRef → Prop} {base ws : Workspace} {b : BuilderRef}
  (h : base.Extends S P ws) (hb : Workspace.Open S P base ws b)
include h hb

theorem ensures_generateId (name : String) :
    Ensures (base.Extends S P) ws (generateId b name) fun id now =>
      ws.SameNodes now ∧ id ∉ (now.builder b).nodes.keys := by
  unfold generateId
  refine .get_bind ?_
  dsimp only
  have same : ∀ stem n, ws.SameNodes (ws.modifyBuilder b fun builder =>
      { builder with counters := Dictionary.insert stem n builder.counters }) := fun stem n => by
    refine ⟨rfl, fun c _ => ?_, fun _ _ => rfl⟩
    rw [Workspace.builder_modifyBuilder]
    split <;> rfl
  refine .bind (.change (Q := fun _ now => ws.SameNodes now) ⟨h.start, ?_, ?_⟩
    (ws.grows_modifyBuilder b fun _ => ⟨rfl, rfl, rfl⟩) (same _ _)) fun _ now h' g same => ?_
  · refine h.wellFormed.modifyBuilder b (fun _ => ⟨rfl, rfl, rfl⟩) (fun hlt => ?_)
      (fun _ _ hn => hn) fun _ _ ha => ha
    have ok := h.wellFormed.builder b hlt
    exact ⟨ok.parent, ok.parentNode, ok.nodes, ok.nodup, ok.ordered, ok.callbackParameters⟩
  · refine h.kept.modifyBuilder b (fun _ => ⟨rfl, rfl, rfl⟩) fun hlt => ?_
    have kept := h.kept.content b hlt
    exact ⟨kept.parentNode, kept.parentParameter, kept.metadata, kept.parameters, kept.nodes,
      kept.callbackParameters, .inl (hb.content.resolve_right (Nat.not_le.2 hlt))⟩
  · refine .pure h' ⟨same, ?_⟩
    rw [same.registered b hb.within]
    exact (ws.builder b).numberedId_nextNumber_not_mem _

theorem ensures_makeNode (process : String) {arguments : Value} (hv : arguments.Within ws)
    (description : Value) (space : Option String) :
    Ensures (base.Extends S P) ws (makeNode b process arguments description space) fun n now =>
      ws.IsCall now b (process, space) arguments n ∧ ws.SameAccesses now ∧
      (now.node n).description = description ∧
      (now.builder b).nodes = (ws.builder b).nodes ∧
      (now.builder b).Precedes (now.node n).id n := by
  unfold makeNode
  refine .get_bind ?_
  dsimp only
  cases hspec : (ws.catalogOf b).get? process space with
  | none => exact .throw h
  | some spec =>
    refine .bind (R := fun entries now => now = ws ∧ spec.bindArguments arguments = .ok entries)
      (.ofExcept h fun _ e => ⟨rfl, e⟩) ?_
    rintro entries now - - ⟨same, hbind⟩
    subst now
    refine (ensures_generateId h hb process).bind fun id now h₁ g₁ ⟨same₁, hid⟩ => .get_bind ?_
    have hb₁ := hb.grow h.wellFormed g₁
    refine (ensures_declareAll h₁ hb₁ _).bind fun _ after h₂ g₂ same₂ => ?_
    have same := same₁.trans g₁ same₂
    have g := g₁.trans g₂
    have hb₂ := hb₁.grow h₁.wellFormed g₂
    -- The new node refers to what existed before its own place.
    have ok : Node.Ok after ⟨after.nodes.size⟩ ⟨b, spec, process, space, entries, id, .bool false,
        description, []⟩ := by
      refine ⟨hb₂.within, fun r hr => ?_⟩
      have hr := hv.entries hbind r hr
      rw [← same.nodes] at hr
      exact ⟨g.within hr.1, hr.2⟩
    generalize hnode : (⟨b, spec, process, space, entries, id, .bool false, description, []⟩ :
      Node) = node at ok ⊢
    have e : ({ after with nodes := after.nodes.push node } : Workspace).node
        ⟨after.nodes.size⟩ = node := Arena.get_push_size ..
    refine ⟨⟨h₂.start, h₂.wellFormed.newNode ok, h₂.kept.newNode _⟩, after.grows_newNode _,
      fun n hn => ?_⟩
    obtain rfl := Except.ok.inj hn
    change Workspace.IsCall ws { after with nodes := after.nodes.push node } b _ _ _ ∧ _ ∧
      (Workspace.node { after with nodes := after.nodes.push node } _).description = _ ∧ _ ∧
      (after.builder b).Precedes
        (Workspace.node { after with nodes := after.nodes.push node } _).id _
    rw [e]
    have registered := same.registered b hb.within
    refine ⟨⟨?_, ?_, ?_, ?_, ?_, ?_, ?_⟩, same.access, ?_, registered, ?_⟩
    · exact Nat.le_of_eq (congrArg Arena.size same.nodes).symm
    · simp
    · rw [e, ← hnode]
    · rw [e, ← hnode]
    · rw [e, ← hnode]
      exact hspec
    · rw [e, ← hnode]
      exact hbind
    · rw [e, ← hnode]
    · rw [← hnode]
    · refine ⟨?_, fun p hp => ((h₂.wellFormed.builder b hb₂.within).nodes p.1 p.2 hp).1⟩
      rw [same₂.registered b hb₁.within, ← hnode]
      exact hid

/-- A node gets into the builder under its id. -/
theorem ensures_insertNode {n : NodeRef} {node : Node} (hnode : ws.node n = node)
    (hn : n.index < ws.nodes.size) (hnew : base.NewNode n) (howner : node.builder = b)
    (hid : (ws.builder b).Precedes node.id n) :
    Ensures (base.Extends S P) ws
      (change fun ws => ws.modifyBuilder b fun builder =>
        { builder with nodes := Dictionary.insert node.id n builder.nodes }) fun _ now =>
      now.nodes = ws.nodes ∧ ws.SameAccesses now ∧
      (now.builder b).nodes = (ws.builder b).nodes ++ [(node.id, n)] := by
  have e := hid.insert
  refine .change ⟨h.start, ?_, ?_⟩ (ws.grows_modifyBuilder b fun _ => ⟨rfl, rfl, rfl⟩)
    ⟨rfl, fun _ _ => rfl, ?_⟩
  · refine h.wellFormed.modifyBuilder b (fun _ => ⟨rfl, rfl, rfl⟩) (fun hlt => ?_)
      (fun id m hm => ?_) fun _ _ ha => ha
    · have ok := h.wellFormed.builder b hlt
      refine ⟨ok.parent, ok.parentNode, fun id m hm => ?_, ?_, ?_, ok.callbackParameters⟩
      · rcases Dictionary.mem_insert hm with hm | hm
        · obtain ⟨rfl, rfl⟩ := Prod.mk.inj hm
          exact ⟨hn, by rw [hnode]; exact howner, by rw [hnode]⟩
        · exact ok.nodes id m hm
      · show (Dictionary.insert node.id n (ws.builder b).nodes).keys.Nodup
        rw [Dictionary.keys_insert, if_neg hid.id]
        refine List.nodup_append.2 ⟨ok.nodup, List.pairwise_singleton .., fun x hx y hy => ?_⟩
        rw [List.mem_singleton.1 hy]
        exact fun e => hid.id (e ▸ hx)
      · show List.Pairwise _ (Dictionary.insert node.id n (ws.builder b).nodes)
        rw [e]
        refine List.pairwise_append.2 ⟨ok.ordered, List.pairwise_singleton .., fun p hp q hq => ?_⟩
        rw [List.mem_singleton.1 hq]
        exact hid.last p hp
    · show Dictionary.get? id (Dictionary.insert node.id n (ws.builder b).nodes) = some m
      rw [e]
      exact Dictionary.get?_append_of_eq_some hm _
  · refine h.kept.modifyBuilder b (fun _ => ⟨rfl, rfl, rfl⟩) fun hlt => ?_
    have kept := h.kept.content b hlt
    refine ⟨kept.parentNode, kept.parentParameter, kept.metadata, kept.parameters, ?_,
      kept.callbackParameters, .inl (hb.content.resolve_right (Nat.not_le.2 hlt))⟩
    show Dictionary.GrowsBy _ _ (Dictionary.insert node.id n (ws.builder b).nodes)
    rw [e]
    exact kept.nodes.append fun p hp => by
      obtain rfl := List.mem_singleton.1 hp
      exact hnew
  · rw [Workspace.builder_modifyBuilder, if_pos ⟨rfl, hb.within⟩]
    exact e

theorem ensures_register {n : NodeRef} (hn : n.index < ws.nodes.size) (hnew : base.NewNode n)
    (howner : (ws.node n).builder = b) (hid : (ws.builder b).Precedes (ws.node n).id n) :
    Ensures (base.Extends S P) ws (register b n) fun _ now =>
      now.nodes = ws.nodes ∧ ws.SameAccesses now ∧
      (now.builder b).nodes = (ws.builder b).nodes ++ [((ws.node n).id, n)] := by
  unfold register
  refine .get_bind ((ensures_insertNode h hb rfl hn hnew howner hid).bind
    fun _ now h' g ⟨hnodes, same, hreg⟩ => ?_)
  refine (ensures_log h' _).mono fun _ after _ g' same' => ⟨same'.nodes.trans hnodes, ?_, ?_⟩
  · intro a ha
    exact (same'.access a (Nat.lt_of_lt_of_le ha g.accesses)).trans (same a ha)
  · exact (same'.registered b (Nat.lt_of_lt_of_le hb.within g.builders)).trans hreg

/-- A call adds one node to the builder, behind those that it has. -/
theorem ensures_invoke (process : String) {arguments : Value} (hv : arguments.Within ws)
    (description : Value) (space : Option String) :
    Ensures (base.Extends S P) ws (invoke b process arguments description space) fun n now =>
      ws.IsCall now b (callKey process space) arguments n ∧
      ws.SameAccesses now ∧ (now.node n).description = description ∧
      (now.builder b).nodes = (ws.builder b).nodes ++ [((now.node n).id, n)] ∧
      Dictionary.get? (now.node n).id (now.builder b).nodes = some n := by
  rw [invoke_eq]
  refine (ensures_makeNode h hb _ hv description _).bind
    fun n now h₁ g₁ ⟨is, same, hdesc, hreg, hid⟩ => ?_
  have hb₁ := hb.grow h.wellFormed g₁
  have hnew : base.NewNode n := Nat.le_trans h.kept.nodes is.new
  refine (ensures_register h₁ hb₁ is.within hnew is.builder hid).bind
    fun _ after h₂ g₂ ⟨hnodes, same₂, hreg₂⟩ => .pure h₂ ?_
  have e : after.node n = now.node n := by simp only [Workspace.node, hnodes]
  refine ⟨⟨is.new, Nat.lt_of_lt_of_le is.within g₂.nodes, ?_, ?_, ?_, ?_, ?_⟩, fun a ha => ?_,
    ?_, ?_, ?_⟩
  · rw [e]; exact is.builder
  · rw [e]; exact is.process
  · rw [e]; exact is.specification
  · rw [e]; exact is.arguments
  · rw [e]; exact is.result
  · exact (same₂ a (Nat.lt_of_lt_of_le ha g₁.accesses)).trans (same a ha)
  · rw [e]; exact hdesc
  · rw [e, hreg₂, hreg]
  · rw [e, hreg₂, ← hid.insert]
    exact Dictionary.get?_insert_self ..

end

/-! ## Elements -/

/-- The call for an element refers to the callback parameter and nothing else. -/
theorem refs_elementArguments {p : ParameterRef} {key : ElementKey} :
    ∀ r ∈ (Value.object [("data", .parameter p), (key.argument, key.toValue)]).refs,
      r = .parameter p := by
  intro r hr
  obtain ⟨q, hq, hr⟩ := Value.mem_refs_dict.1 hr
  simp only [List.map_cons, List.map_nil, List.mem_cons, List.not_mem_nil, or_false] at hq
  rcases hq with rfl | rfl
  · exact List.mem_singleton.1 hr
  · rw [ElementKey.refs_toValue] at hr
    cases hr

section
variable {S P : BuilderRef → Prop} {base ws : Workspace}
  (h : base.Extends S P ws)
include h

/-- Remembers an element. -/
theorem ensures_remember {a : AccessRef} {key : ElementKey} {n : NodeRef}
    (ha : a.index < ws.accesses.size) (hb : base.Free S (ws.access a).builder)
    (hn : ws.IsElement (ws.access a) key n) (hnew : base.NewNode n)
    (hk : Dictionary.get? key (ws.access a).elements = none) :
    Ensures (base.Extends S P) ws
      (change fun ws => ws.modifyAccess a fun access =>
        { access with elements := Dictionary.insert key n access.elements })
      fun _ now => now.nodes = ws.nodes ∧ now.builders = ws.builders := by
  have e : Dictionary.insert key n (ws.access a).elements =
      (ws.access a).elements ++ [(key, n)] := by
    refine Dictionary.insert_of_not_mem n fun hm => ?_
    rw [← Dictionary.get?_isSome_iff, hk] at hm
    cases hm
  refine .change ⟨h.start, ?_, ?_⟩ (ws.grows_modifyAccess a fun _ => ⟨rfl, rfl⟩) ⟨rfl, rfl⟩
  · refine h.wellFormed.modifyAccess a (fun _ => ⟨rfl, rfl⟩) fun hlt => ?_
    have ok := h.wellFormed.access a hlt
    refine ⟨ok.parameter, ok.builder, ok.listed, fun k m hm => ?_⟩
    rcases Dictionary.mem_insert hm with hm | hm
    · obtain ⟨rfl, rfl⟩ := Prod.mk.inj hm
      exact ⟨hn.within, hn.process, hn.arguments, hn.registered⟩
    · have is := ok.elements k m hm
      exact ⟨is.within, is.process, is.arguments, is.registered⟩
  · refine h.kept.modifyAccess a (fun _ => ⟨rfl, rfl⟩) (fun hlt => ?_) fun hnew' p hp => ?_
    · refine ⟨?_, .inl ?_⟩
      · show Dictionary.GrowsBy _ _ (Dictionary.insert key n (ws.access a).elements)
        rw [e]
        exact (h.kept.elements a hlt).elements.append fun p hp => by
          obtain rfl := List.mem_singleton.1 hp
          exact hnew
      · rw [(h.kept.access a hlt).2] at hb
        exact hb.resolve_right (Nat.not_le.2 (h.start.access a hlt).builder)
    · rcases Dictionary.mem_insert hp with rfl | hp
      · exact hnew
      · exact h.kept.newAccess a hnew' ha p hp

theorem ensures_element {a : AccessRef} (ha : a.index < ws.accesses.size)
    (hb : Workspace.Open S P base ws (ws.access a).builder) (key : ElementKey) :
    Ensures (base.Extends S P) ws (element a key) fun n now =>
      now.IsElement (ws.access a) key n := by
  unfold element
  refine .get_bind ?_
  dsimp only
  cases hk : Dictionary.get? key (ws.access a).elements with
  | some n =>
    exact .pure h ((h.wellFormed.access a ha).elements key n (Dictionary.mem_of_get? hk))
  | none =>
    have hv : (Value.object [("data", .parameter (ws.access a).parameter),
        (key.argument, key.toValue)]).Within ws := fun r hr =>
      refs_elementArguments r hr ▸ (h.wellFormed.access a ha).parameter
    refine (ensures_invoke h hb _ hv .null none).bind fun n now h₁ g₁ ⟨is, same, _, _, hreg⟩ => ?_
    have e := same a ha
    have hn : now.IsElement (ws.access a) key n := by
      refine ⟨is.within, ?_, (Except.ok.inj is.arguments).symm, hreg⟩
      rw [(g₁.builder _ hb.within).2.1]
      exact is.process
    have ha₁ := Nat.lt_of_lt_of_le ha g₁.accesses
    refine (ensures_remember h₁ ha₁ (e ▸ hb.content) (e.symm ▸ hn)
      (Nat.le_trans h.kept.nodes is.new) (e.symm ▸ hk)).bind
      fun _ after h₂ g₂ ⟨hnodes, hbuilders⟩ => .get_bind ?_
    refine (ensures_log h₂ _).bind fun _ last h₃ g₃ same₃ => .pure h₃ ?_
    refine hn.grow (g₂.trans g₃) (Nat.lt_of_lt_of_le hb.within g₁.builders) ?_
    have hlt : (ws.access a).builder.index < after.builders.size :=
      Nat.lt_of_lt_of_le hb.within (g₁.trans g₂).builders
    have e₂ : after.builder (ws.access a).builder = now.builder (ws.access a).builder := by
      simp only [Workspace.builder, hbuilders]
    rw [same₃.registered _ hlt, e₂]
    exact hn.registered

theorem ensures_elementAt {a : AccessRef} (ha : a.index < ws.accesses.size)
    (hb : Workspace.Open S P base ws (ws.access a).builder) (key : Value) :
    Ensures (base.Extends S P) ws (elementAt a key) fun n now =>
      ∃ k, ElementKey.ofValue ws.objectName key = .ok k ∧ now.IsElement (ws.access a) k n := by
  unfold elementAt
  refine .get_bind ?_
  refine .bind (R := fun k now => now = ws ∧ ElementKey.ofValue ws.objectName key = .ok k)
    (.ofExcept h fun _ e => ⟨rfl, e⟩) fun k now h₁ g₁ ⟨e, hk⟩ => ?_
  subst now
  exact (ensures_element h₁ ha hb k).mono fun n now _ _ is => ⟨k, hk, is⟩

end

/-! ## Shortcuts -/

section
variable {S P : BuilderRef → Prop} {base ws : Workspace} {b : BuilderRef}

theorem ensures_callShortcut (h : base.Extends S P ws) (hb : Workspace.Open S P base ws b)
    (process : String) (spec : Specification) {arguments : List Value} {named : Value.Entries}
    (hv : ∀ v ∈ arguments, v.Within ws) (hnamed : Value.EntriesWithin ws named) :
    Ensures (base.Extends S P) ws (callShortcut b process spec arguments named) fun n now =>
      ∃ given, ws.IsCall now b (splitProcessId process) given n := by
  unfold callShortcut
  split
  · exact (ensures_invoke h hb process (Value.within_list.2 hv) .null none).mono
      fun n now _ _ is => ⟨_, is.1⟩
  · refine .bind (R := fun entries now => now = ws ∧ spec.bind arguments = .ok entries)
      (.ofExcept h fun _ e => ⟨rfl, e⟩) fun entries now h₁ g₁ ⟨e, hbind⟩ => ?_
    subst now
    have hw : (Value.dict (Dictionary.insertAll entries named)).Within ws := by
      refine Value.within_dict.2 fun p hp => ?_
      rcases Dictionary.mem_insertAll hp with hp | hp
      · exact hnamed p hp
      · exact hv _ (Specification.mem_of_bind hbind p hp)
    exact (ensures_invoke h₁ hb process hw .null none).mono fun n now _ _ is => ⟨_, is.1⟩

end

end Build

end ProcessGraph
