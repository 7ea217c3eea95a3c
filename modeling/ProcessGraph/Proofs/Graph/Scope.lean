import ProcessGraph.Proofs.Graph.Redeclaration
import ProcessGraph.Proofs.Graph.Traces

/-!
# The scope of parameters

A builder stands in a chain: it makes the graph of a callback argument for a node of the next
builder, up to the root. The names that may be referred to inside are those declared on the root and
those that the callback arguments on the chain pass (`Workspace.Names`).

`ws.Scoped K root chain`: all parameters in the arguments of registered nodes are called by such
names. While work is done on the first builder of the chain, declared names stay declared, and the
other builders get element nodes only, which refer to nothing but the callback parameters of their
own builder (`Workspace.Advances`). So the scope survives that a block on the first builder is
undone: what has been declared in the block is only referred to by nodes that are taken away with it
(`Follows.rollBack`).
-/

set_option autoImplicit false

namespace ProcessGraph

/-! ## Declared names -/

/-- One of the declarations has this name. -/
def DeclaredIn (items : List Value) (name : Value) : Prop :=
  ∃ d, .dict d ∈ items ∧ Value.field "name" d = name

/-- The parameters of a process have a declaration of this name. -/
def Value.Declares (parameters name : Value) : Prop :=
  ∃ items, (parameters = .list items ∨ parameters = .tuple items) ∧ DeclaredIn items name

theorem Value.HasItems.declares_iff {v : Value} {items : List Value} {whole : List Value → Value}
    {extend : Bool} (h : v.HasItems items whole extend) (name : Value) :
    v.Declares name ↔ DeclaredIn items name := by
  cases h with
  | null => simp [Value.Declares, DeclaredIn]
  | list | tuple => simp [Value.Declares]

/-- Text is only the same as itself. -/
theorem Value.eq_str_of_same {v : Value} {s : String} (h : (Value.str s).same v) : v = .str s := by
  cases v <;> simp [same] at h
  exact congrArg Value.str h.symm

section
variable {d : Value.Entries} (hd : d.keys.Nodup) {s : String}
include hd

/-- A declaration that is merged into another one gives its name to it. -/
theorem Value.field_insertAll_of_name (hs : Value.field "name" d = .str s) (e : Value.Entries) :
    Value.field "name" (Dictionary.insertAll e d) = .str s := by
  have found := Dictionary.get?_insertAll (d := e) hd (.str "name")
  unfold Value.field Value.field? at *
  rw [found]
  cases hn : Dictionary.get? (Scalar.str "name") d with
  | none => rw [hn] at hs; cases hs
  | some v => rw [hn] at hs; exact hs

theorem DeclaredIn.mergeOrExtend {extend : Bool} {items items' : List Value}
    (h : mergeOrExtend extend d items = .ok items')
    (hs : DeclaredIn items (.str s) ∨ Value.field "name" d = .str s) :
    DeclaredIn items' (.str s) := by
  induction items generalizing items' with
  | nil =>
    cases extend <;> cases h
    rcases hs with ⟨e, he, -⟩ | hs
    · cases he
    · exact ⟨d, List.mem_singleton.2 rfl, hs⟩
  | cons v rest ih =>
    by_cases hv : ∃ e, v = .dict e
    · obtain ⟨e, rfl⟩ := hv
      by_cases same : sameName e d
      · rw [mergeOrExtend_cons_same same] at h
        cases h
        -- Either the declaration has the name, or it is that of an item that is kept.
        by_cases hn : Value.field "name" d = .str s
        · exact ⟨_, List.mem_cons_self, Value.field_insertAll_of_name hd hn e⟩
        · obtain ⟨e', he', hname⟩ := hs.resolve_right hn
          rcases List.mem_cons.1 he' with heq | he'
          · cases heq
            rw [sameName, hname] at same
            exact absurd (Value.eq_str_of_same same) hn
          · exact ⟨e', List.mem_cons_of_mem _ he', hname⟩
      · rw [mergeOrExtend_cons_other same] at h
        obtain ⟨items, hr, rfl⟩ := exists_of_map_eq_ok h
        have merged : DeclaredIn rest (.str s) ∨ Value.field "name" d = .str s →
            DeclaredIn (.dict e :: items) (.str s) := fun hs => by
          obtain ⟨e', he', hname⟩ := ih hr hs
          exact ⟨e', List.mem_cons_of_mem _ he', hname⟩
        rcases hs with ⟨e', he', hname⟩ | hs
        · rcases List.mem_cons.1 he' with heq | he'
          · cases heq
            exact ⟨e, List.mem_cons_self, hname⟩
          · exact merged (.inl ⟨e', he', hname⟩)
        · exact merged (.inr hs)
    · rw [mergeOrExtend_cons_of_ne fun e he => hv ⟨e, he⟩] at h
      cases h

/-- Names stay declared, and the new name is. -/
theorem Value.Declares.declare {v w : Value} (h : declare v d = .ok w)
    (hs : v.Declares (.str s) ∨ Value.field "name" d = .str s) : w.Declares (.str s) := by
  obtain ⟨items, whole, extend, has⟩ := exists_hasItems h
  rw [has.declare_eq] at h
  obtain ⟨items', merged, rfl⟩ := exists_of_map_eq_ok h
  rw [has.declares_iff] at hs
  rw [(has.hasItems items').declares_iff]
  exact DeclaredIn.mergeOrExtend hd merged hs

end

namespace Workspace

/-- The name is declared on a builder. -/
def Declared (ws : Workspace) (b : BuilderRef) (s : String) : Prop :=
  (ws.builder b).metadata.parameters.Declares (.str s)

/-- The names that builders receive. -/
def bound (ws : Workspace) (chain : List BuilderRef) : List Value := chain.flatMap ws.passed

/-- The name may be referred to: it is declared on the root, or passed to a builder of the chain. -/
def Names (ws : Workspace) (root : BuilderRef) (chain : List BuilderRef) (name : Value) : Prop :=
  (∃ s, name = .str s ∧ ws.Declared root s) ∨ name ∈ ws.bound chain

/-- The first builder makes a graph inside of that of the second one, and so on up to the root. -/
inductive Chain (ws : Workspace) (root : BuilderRef) : List BuilderRef → Prop
  | root (hb : root.index < ws.builders.size) (hp : (ws.builder root).parent = none) :
      Chain ws root [root]
  | child {b c : BuilderRef} {rest : List BuilderRef} (hb : b.index < ws.builders.size)
      (hp : (ws.builder b).parent = some c) (outer : Chain ws root (c :: rest)) :
      Chain ws root (b :: c :: rest)

section
variable {ws now after : Workspace} {root b c : BuilderRef} {chain outer : List BuilderRef}

theorem Chain.within (h : ws.Chain root chain) : ∀ c ∈ chain, c.index < ws.builders.size := by
  induction h with
  | root hb hp => intro c hc; exact List.mem_singleton.1 hc ▸ hb
  | child hb hp outer ih =>
    intro c hc
    rcases List.mem_cons.1 hc with rfl | hc
    · exact hb
    · exact ih c hc

theorem Chain.grow (h : ws.Chain root chain) (g : ws.Grows now) : now.Chain root chain := by
  induction h with
  | root hb hp => exact .root (Nat.lt_of_lt_of_le hb g.builders) ((g.builder _ hb).1.trans hp)
  | child hb hp outer ih =>
    exact .child (Nat.lt_of_lt_of_le hb g.builders) ((g.builder _ hb).1.trans hp) ih

/-- All builders of the chain have the same root. -/
theorem Chain.root_eq (h : ws.Chain root chain) (wf : ws.WellFormed) :
    ∀ c ∈ chain, ws.root c = root := by
  induction h with
  | root hb hp => intro c hc; rw [List.mem_singleton.1 hc]; exact wf.root_of_none hb hp
  | child hb hp outer ih =>
    intro c hc
    rcases List.mem_cons.1 hc with rfl | hc
    · rw [wf.root_of_some hb hp]
      exact ih _ List.mem_cons_self
    · exact ih c hc

theorem Chain.root_within (h : ws.Chain root chain) : root.index < ws.builders.size := by
  induction h with
  | root hb hp => exact hb
  | child hb hp outer ih => exact ih

theorem Chain.of_cons {rest : List BuilderRef} (h : ws.Chain root (b :: c :: rest)) :
    ws.Chain root (c :: rest) := by
  cases h with
  | child hb hp h => exact h

/-- The builders further out are older. -/
theorem Chain.lt (h : ws.Chain root (b :: outer)) (wf : ws.WellFormed) :
    ∀ c ∈ outer, c.index < b.index := by
  induction outer generalizing b with
  | nil => exact fun _ hc => nomatch hc
  | cons d outer ih =>
    cases h with
    | child hb hp h =>
      have hd := (wf.parent_lt hb hp).1
      intro c hc
      rcases List.mem_cons.1 hc with rfl | hc
      · exact hd
      · exact Nat.lt_trans (ih h c hc) hd

/-- The names that builders receive are still the same. -/
def SamePassed (ws now : Workspace) (chain : List BuilderRef) : Prop :=
  ∀ c ∈ chain, now.parentNames c = ws.parentNames c

theorem SamePassed.passed (h : ws.SamePassed now chain) (hc : c ∈ chain) :
    now.passed c = ws.passed c := by
  unfold Workspace.passed
  rw [h c hc]

theorem SamePassed.bound (h : ws.SamePassed now chain) : now.bound chain = ws.bound chain := by
  induction chain with
  | nil => rfl
  | cons c rest ih =>
    unfold Workspace.bound at *
    rw [List.flatMap_cons, List.flatMap_cons, h.passed List.mem_cons_self,
      ih fun d hd => h d (List.mem_cons_of_mem _ hd)]

theorem SamePassed.trans (h : ws.SamePassed now chain) (h' : now.SamePassed after chain) :
    ws.SamePassed after chain := fun c hc => (h' c hc).trans (h c hc)

theorem SamePassed.mono {part : List BuilderRef} (h : ws.SamePassed now chain)
    (hp : ∀ c ∈ part, c ∈ chain) : ws.SamePassed now part := fun c hc => h c (hp c hc)

theorem mem_bound {name : Value} : name ∈ ws.bound chain ↔ ∃ c ∈ chain, name ∈ ws.passed c :=
  List.mem_flatMap

theorem Names.mono {name : Value} (h : ws.Names root chain name)
    (same : ws.SamePassed now chain) (declared : ∀ s, ws.Declared root s → now.Declared root s) :
    now.Names root chain name := by
  rcases h with ⟨s, rfl, hs⟩ | h
  · exact .inl ⟨s, rfl, declared s hs⟩
  · exact .inr (same.bound ▸ h)

/-- What a builder is passed depends on its node, and on nothing that changes. -/
theorem parentNames_of_same (wf : ws.WellFormed) (g : ws.Grows now)
    (hb : b.index < ws.builders.size) (names : now.callbackNames = ws.callbackNames)
    (node : (now.builder b).parentNode = (ws.builder b).parentNode)
    (parameter : (now.builder b).parentParameter = (ws.builder b).parentParameter) :
    now.parentNames b = ws.parentNames b := by
  unfold parentNames
  rw [node, parameter]
  cases hn : (ws.builder b).parentNode with
  | none => rfl
  | some n =>
    cases (ws.builder b).parentParameter with
    | null => rfl
    | _ => exact callbackNamesOf_eq g names ((wf.builder b hb).parentNode n hn) _

theorem Preserves.parentNames {S P : BuilderRef → Prop} (h : ws.Preserves S P now)
    (wf : ws.WellFormed) (hb : b.index < ws.builders.size) :
    now.parentNames b = ws.parentNames b :=
  parentNames_of_same wf h.toGrows hb h.callbackNames (h.content b hb).parentNode
    (h.content b hb).parentParameter

end

end Workspace

/-! ## References in scope -/

/-- Which functions may be called for arguments of nodes in a chain of builders. -/
structure CallbackRule where
  allows : Workspace → List BuilderRef → Nat → Prop
  lasts : ∀ {ws now : Workspace} {chain : List BuilderRef} {f : Nat}, ws.Grows now →
    ws.SamePassed now chain → allows ws chain f → allows now chain f

/-- A callback parameter that a builder of the chain has received. -/
structure Workspace.Received (ws : Workspace) (chain : List BuilderRef) (a : AccessRef) : Prop where
  within : a.index < ws.accesses.size
  builder : (ws.access a).builder ∈ chain
  name : (ws.accessParameter a).name ∈ ws.passed (ws.access a).builder

section
variable (K : CallbackRule) (ws : Workspace) (root : BuilderRef) (chain : List BuilderRef)

/-- What a registered node of the first builder may refer to. -/
def Ref.Covered : Ref → Prop
  | parameter p => ws.Names root chain (ws.parameter p).name
  | access a => ws.Names root chain (ws.accessParameter a).name
  | builder _ => False
  | callback f => K.allows ws chain f
  | node _ | formula _ => True

/-- What may be given as an argument in the first builder: parameters that are declared under a text
when they are used, callback parameters that a builder of the chain has received, and no builders. -/
def Ref.Usable : Ref → Prop
  | parameter p => p.index < ws.parameters.size ∧
      ((ws.parameter p).isDeclarable ∧ (∃ s, (ws.parameter p).name = .str s) ∨
        (ws.parameter p).name ∈ ws.bound chain)
  | access a => ws.Received chain a
  | builder _ => False
  | callback f => K.allows ws chain f
  | node n => n.index < ws.nodes.size
  | formula f => f.index < ws.formulas.size

def Value.Usable (v : Value) : Prop := ∀ r ∈ v.refs, r.Usable K ws chain

/-- The registered nodes of all builders of the chain refer to what they may. -/
def Workspace.InScope : List BuilderRef → Prop
  | [] => True
  | c :: rest =>
    (∀ p ∈ (ws.builder c).nodes, ∀ r ∈ Value.refsInEntries (ws.node p.2).arguments,
      r.Covered K ws root (c :: rest)) ∧ InScope rest

structure Workspace.Scoped : Prop where
  enclosed : ws.Chain root chain
  nodes : ws.InScope K root chain

end

/-- The node refers to callback parameters of its builder, and to nothing else. -/
def Workspace.ElementOf (ws : Workspace) (b : BuilderRef) (n : NodeRef) : Prop :=
  ∀ r ∈ Value.refsInEntries (ws.node n).arguments, ∃ p, r = .parameter p ∧
    p.index < ws.parameters.size ∧ (ws.parameter p).name ∈ ws.passed b

/-- What work on the first builder of the chain does to the others. -/
structure Workspace.Advances (root : BuilderRef) (chain : List BuilderRef) (ws now : Workspace) :
    Prop extends ws.Appends now where
  within : ∀ c ∈ chain, c.index < ws.builders.size
  passed : ws.SamePassed now chain
  declared : ∀ s, ws.Declared root s → now.Declared root s
  elements : ∀ c ∈ chain.tail, ∀ p ∈ (now.builder c).nodes, ws.NewNode p.2 → now.ElementOf c p.2

/-- A scope that has come from `ws` by work on the first builder of the chain. -/
structure Workspace.Follows (K : CallbackRule) (root : BuilderRef) (chain : List BuilderRef)
    (ws now : Workspace) : Prop where
  advances : ws.Advances root chain now
  scope : now.Scoped K root chain

section
variable {K : CallbackRule} {base ws now after : Workspace} {root b c : BuilderRef}
  {chain outer : List BuilderRef}

theorem Workspace.Received.grow {a : AccessRef} (h : ws.Received chain a) (wf : ws.WellFormed)
    (g : ws.Grows now) (same : ws.SamePassed now chain) : now.Received chain a where
  within := Nat.lt_of_lt_of_le h.within g.accesses
  builder := by
    rw [(g.access a h.within).2]
    exact h.builder
  name := by
    rw [g.accessParameter h.within (wf.access a h.within).parameter, (g.access a h.within).2,
      same.passed h.builder]
    exact h.name

theorem Ref.Usable.within {r : Ref} (h : r.Usable K ws chain) : r.Within ws := by
  cases r with
  | parameter p => exact h.1
  | access a => exact Workspace.Received.within h
  | builder c => exact h.elim
  | callback f => trivial
  | node n => exact h
  | formula f => exact h

theorem Value.Usable.within {v : Value} (h : v.Usable K ws chain) : v.Within ws :=
  fun r hr => (h r hr).within

theorem Ref.Usable.grow {r : Ref} (h : r.Usable K ws chain) (wf : ws.WellFormed)
    (g : ws.Grows now) (same : ws.SamePassed now chain) : r.Usable K now chain := by
  cases r with
  | parameter p =>
    have e := g.parameter p h.1
    refine ⟨Nat.lt_of_lt_of_le h.1 g.parameters, ?_⟩
    rw [e, same.bound]
    exact h.2
  | access a => exact Workspace.Received.grow h wf g same
  | builder c => exact h.elim
  | callback f => exact K.lasts g same h
  | node n => exact Nat.lt_of_lt_of_le h g.nodes
  | formula f => exact Nat.lt_of_lt_of_le h g.formulas

theorem Value.Usable.grow {v : Value} (h : v.Usable K ws chain) (wf : ws.WellFormed)
    (g : ws.Grows now) (same : ws.SamePassed now chain) : v.Usable K now chain :=
  fun r hr => (h r hr).grow wf g same

theorem Ref.Covered.mono {r : Ref} (h : r.Covered K ws root chain) (hr : r.Within ws)
    (wf : ws.WellFormed) (g : ws.Grows now) (same : ws.SamePassed now chain)
    (declared : ∀ s, ws.Declared root s → now.Declared root s) :
    r.Covered K now root chain := by
  cases r with
  | parameter p =>
    have h : ws.Names root chain _ := h
    rw [← g.parameter p hr] at h
    exact h.mono same declared
  | access a =>
    have h : ws.Names root chain _ := h
    rw [← g.accessParameter hr (wf.access a hr).parameter] at h
    exact h.mono same declared
  | builder c => exact h.elim
  | callback f => exact K.lasts g same h
  | node n => trivial
  | formula f => trivial

/-- An element node refers to names that are passed to its builder. -/
theorem Workspace.ElementOf.covered {n : NodeRef} (h : ws.ElementOf c n) (hc : c ∈ chain) :
    ∀ r ∈ Value.refsInEntries (ws.node n).arguments, r.Covered K ws root chain := by
  intro r hr
  obtain ⟨p, rfl, -, hp⟩ := h r hr
  exact .inr (Workspace.mem_bound.2 ⟨c, hc, hp⟩)

theorem Workspace.ElementOf.grow {n : NodeRef} (h : ws.ElementOf c n) (hn : n.index < ws.nodes.size)
    (g : ws.Grows now) (same : ws.SamePassed now chain) (hc : c ∈ chain) : now.ElementOf c n := by
  intro r hr
  rw [(g.node n hn).arguments] at hr
  obtain ⟨p, rfl, hlt, hp⟩ := h r hr
  refine ⟨p, rfl, Nat.lt_of_lt_of_le hlt g.parameters, ?_⟩
  rw [g.parameter p hlt, same.passed hc]
  exact hp

namespace Workspace

/-- Where builders have the nodes that they had, and new ones that refer to what they may, there
everything is in scope. -/
theorem InScope.mono (h : ws.InScope K root chain) (wf : ws.WellFormed)
    (hchain : ∀ c ∈ chain, c.index < ws.builders.size)
    (g : ws.Grows now) (same : ws.SamePassed now chain)
    (declared : ∀ s, ws.Declared root s → now.Declared root s)
    (new : ∀ c rest, (c :: rest) <:+ chain → ∀ p ∈ (now.builder c).nodes,
      p ∈ (ws.builder c).nodes ∨
        ∀ r ∈ Value.refsInEntries (now.node p.2).arguments, r.Covered K now root (c :: rest)) :
    now.InScope K root chain := by
  induction chain with
  | nil => trivial
  | cons c rest ih =>
    refine ⟨fun p hp r hr => ?_, ih h.2 (fun d hd => hchain d (List.mem_cons_of_mem _ hd))
      (same.mono fun d => List.mem_cons_of_mem _) fun d rest' hs =>
        new d rest' (hs.trans (List.suffix_cons c rest))⟩
    rcases new c rest List.suffix_rfl p hp with hold | hnew
    · have hlt := ((wf.builder c (hchain c List.mem_cons_self)).nodes p.1 p.2 hold).1
      rw [(g.node p.2 hlt).arguments] at hr
      exact (h.1 p hold r hr).mono ((wf.node p.2 hlt).arguments r hr).1 wf g same declared
    · exact hnew r hr

theorem Advances.refl (wf : ws.WellFormed) (hchain : ∀ c ∈ chain, c.index < ws.builders.size) :
    ws.Advances root chain ws :=
  { wf.appends with
    within := hchain
    passed := fun _ _ => rfl
    declared := fun _ h => h
    elements := fun c hc p hp hnew =>
      absurd ((wf.builder c (hchain c (List.mem_of_mem_tail hc))).nodes p.1 p.2 hp).1
        (Nat.not_lt.2 hnew) }

theorem Advances.trans (h : ws.Advances root chain now) (h' : now.Advances root chain after) :
    ws.Advances root chain after :=
  { h.toAppends.trans h'.toAppends with
    within := h.within
    passed := h.passed.trans h'.passed
    declared := fun s hs => h'.declared s (h.declared s hs)
    elements := fun c hc p hp hnew => by
      have hm := List.mem_of_mem_tail hc
      have hlt := Nat.lt_of_lt_of_le (h.within c hm) h.grows.builders
      rcases (h'.nodes c hlt).mem hp with hold | hnew'
      · have hn := ((h.wellFormed.builder c hlt).nodes p.1 p.2 hold).1
        exact (h.elements c hc p hold hnew).grow hn h'.grows h'.passed hm
      · exact h'.elements c hc p hp hnew' }

theorem Scoped.follows (h : ws.Scoped K root chain) (wf : ws.WellFormed) :
    ws.Follows K root chain ws := ⟨.refl wf h.enclosed.within, h⟩

theorem Follows.trans (h : ws.Follows K root chain now) (h' : now.Follows K root chain after) :
    ws.Follows K root chain after := ⟨h.advances.trans h'.advances, h'.scope⟩

/-- Only the new nodes of the first builder count: those further out are elements. -/
theorem Scoped.advance (h : ws.Scoped K root (b :: outer)) (adv : ws.Advances root (b :: outer) now)
    (own : ∀ p ∈ (now.builder b).nodes, p ∈ (ws.builder b).nodes ∨
      ∀ r ∈ Value.refsInEntries (now.node p.2).arguments, r.Covered K now root (b :: outer)) :
    ws.Follows K root (b :: outer) now := by
  refine ⟨adv, h.enclosed.grow adv.grows, h.nodes.mono adv.start h.enclosed.within adv.grows adv.passed
    adv.declared fun c rest hs p hp => ?_⟩
  rcases List.suffix_cons_iff.1 hs with e | hs
  · cases e
    exact own p hp
  · have hc : c ∈ outer := hs.subset List.mem_cons_self
    rcases (adv.nodes c (h.enclosed.within c (List.mem_cons_of_mem _ hc))).mem hp with hold | hnew
    · exact .inl hold
    · exact .inr ((adv.elements c hc p hp hnew).covered List.mem_cons_self)

/-! ## Undone blocks -/

theorem parentNames_rollBack (h : ws.Appends now) (hb : b.index < ws.builders.size)
    (hc : c.index < now.builders.size) :
    (ws.rollBack b now).parentNames c = now.parentNames c := by
  have e : (ws.rollBack b now).builder c = restored ws now b c :=
    builder_rollBack (Nat.lt_of_lt_of_le hb h.grows.builders)
      (Nat.lt_of_lt_of_le (h.start.root_lt hb) h.grows.builders) c
  obtain ⟨-, -, -, parentNode, parentParameter, -⟩ := restored_fixed c
  exact parentNames_of_same h.wellFormed (grows_rollBack h.start h.grows hb) hc
    callbackNames_rollBack ((congrArg _ e).trans parentNode) ((congrArg _ e).trans parentParameter)

theorem declared_rollBack (h : ws.Appends now) (hb : b.index < ws.builders.size) (s : String) :
    (ws.rollBack b now).Declared (ws.root b) s ↔ ws.Declared (ws.root b) s := by
  unfold Declared
  rw [builder_rollBack (Nat.lt_of_lt_of_le hb h.grows.builders)
    (Nat.lt_of_lt_of_le (h.start.root_lt hb) h.grows.builders), restored_parameters, if_pos rfl]

/-- The scope after a block on the first builder that began in a scope and has failed. -/
theorem Follows.rollBack (hb : ws.Scoped K root (b :: outer))
    (h : ws.Follows K root (b :: outer) now) :
    ws.Follows K root (b :: outer) (ws.rollBack b now) := by
  have adv := h.advances
  have hlt := hb.enclosed.within b List.mem_cons_self
  have hroot := hb.enclosed.root_eq adv.start b List.mem_cons_self
  have back := grows_rollBack adv.start adv.grows hlt
  have same : now.SamePassed (ws.rollBack b now) (b :: outer) := fun c hc =>
    parentNames_rollBack adv.toAppends hlt
      (Nat.lt_of_lt_of_le (hb.enclosed.within c hc) adv.grows.builders)
  have nodes := adv.toAppends.nodes_rollBack hlt
  refine hb.advance { adv.start.appends.rollBack adv.toAppends hlt with
    within := hb.enclosed.within
    passed := adv.passed.trans same
    declared := fun s => hroot ▸ (declared_rollBack adv.toAppends hlt s).2
    elements := fun c hc p hp hnew => ?_ } fun p hp => ?_
  · have hcb : c ≠ b := fun e => Nat.lt_irrefl _ (e ▸ hb.enclosed.lt adv.start c hc)
    rw [nodes, if_neg hcb] at hp
    have hc' := List.mem_cons_of_mem b hc
    have hn := ((adv.wellFormed.builder c (Nat.lt_of_lt_of_le (hb.enclosed.within c hc')
      adv.grows.builders)).nodes p.1 p.2 hp).1
    exact (adv.elements c hc p hp hnew).grow hn back same hc'
  · rw [nodes, if_pos rfl] at hp
    exact .inl hp

end Workspace

end

end ProcessGraph
