import ProcessGraph.Proofs.Graph.Reference

/-!
# How workspaces grow

`ws.Grows now`: what exists in `ws` still exists in `now`, and what a call was made of has not
changed. Every step is of this kind.

`Preserves S P ws now`: beyond that, of the builders in `ws` only those in `S` have got nodes, ids,
callback parameters or array elements, each behind the old ones and for objects that `ws` has not;
only those in `P` have other declared parameters. The lemmas say which primitive steps keep this
relation to a fixed earlier workspace.
-/

set_option autoImplicit false

namespace ProcessGraph

/-! ## Changed objects -/

/-- Nothing happens to objects that do not exist. -/
theorem Arena.get_modify {α : Type} [Inhabited α] (a : Arena α) (i j : Nat) (f : α → α) :
    (a.modify i f).get j = if j = i ∧ i < a.size then f (a.get j) else a.get j := by
  by_cases hij : j = i
  · subst hij
    by_cases hj : j < a.size
    · rw [if_pos ⟨rfl, hj⟩, get_modify_self hj]
    · have hj' : a.items.size ≤ j := Nat.not_lt.1 hj
      rw [if_neg fun h => hj h.2]
      simp [get, modify, hj']
  · rw [if_neg fun h => hij h.1, get_modify_of_ne (Ne.symm hij)]

theorem Arena.get_push {α : Type} [Inhabited α] (a : Arena α) (x : α) (j : Nat) :
    (a.push x).get j = if j = a.size then x else a.get j := by
  by_cases hj : j = a.size
  · rw [if_pos hj, hj, get_push_size]
  · simp [get, push, Array.getElem?_push, hj, show j ≠ a.items.size from hj]

theorem Arena.get_of_size_le {α : Type} [Inhabited α] {a : Arena α} {i : Nat} (h : a.size ≤ i) :
    a.get i = default := by
  have h' : a.items.size ≤ i := h
  simp [get, h']

namespace Workspace

variable (ws : Workspace)

theorem builder_modifyBuilder (r b : BuilderRef) (f : Builder → Builder) :
    (ws.modifyBuilder r f).builder b =
      if b = r ∧ r.index < ws.builders.size then f (ws.builder b) else ws.builder b := by
  obtain ⟨i⟩ := r; obtain ⟨j⟩ := b
  simp only [BuilderRef.mk.injEq]
  exact ws.builders.get_modify i j f

theorem node_modifyNode (r n : NodeRef) (f : Node → Node) :
    (ws.modifyNode r f).node n =
      if n = r ∧ r.index < ws.nodes.size then f (ws.node n) else ws.node n := by
  obtain ⟨i⟩ := r; obtain ⟨j⟩ := n
  simp only [NodeRef.mk.injEq]
  exact ws.nodes.get_modify i j f

theorem access_modifyAccess (r a : AccessRef) (f : ArrayAccess → ArrayAccess) :
    (ws.modifyAccess r f).access a =
      if a = r ∧ r.index < ws.accesses.size then f (ws.access a) else ws.access a := by
  obtain ⟨i⟩ := r; obtain ⟨j⟩ := a
  simp only [AccessRef.mk.injEq]
  exact ws.accesses.get_modify i j f

theorem formula_modifyFormula (r g : FormulaRef) (f : Formula → Formula) :
    (ws.modifyFormula r f).formula g =
      if g = r ∧ r.index < ws.formulas.size then f (ws.formula g) else ws.formula g := by
  obtain ⟨i⟩ := r; obtain ⟨j⟩ := g
  simp only [FormulaRef.mk.injEq]
  exact ws.formulas.get_modify i j f

end Workspace

/-! ## Growth -/

/-- The two nodes are the same call; their flags and descriptions may differ. -/
structure Node.SameCall (n m : Node) : Prop where
  builder : m.builder = n.builder
  specification : m.specification = n.specification
  process : m.process = n.process
  space : m.space = n.space
  arguments : m.arguments = n.arguments
  id : m.id = n.id

theorem Node.SameCall.refl (n : Node) : n.SameCall n := ⟨rfl, rfl, rfl, rfl, rfl, rfl⟩

theorem Node.SameCall.trans {n m k : Node} (h : n.SameCall m) (h' : m.SameCall k) :
    n.SameCall k where
  builder := h'.builder.trans h.builder
  specification := h'.specification.trans h.specification
  process := h'.process.trans h.process
  space := h'.space.trans h.space
  arguments := h'.arguments.trans h.arguments
  id := h'.id.trans h.id

/-- What exists still exists and is still of the same make. -/
structure Workspace.Grows (ws now : Workspace) : Prop where
  nodes : ws.nodes.size ≤ now.nodes.size
  parameters : ws.parameters.size ≤ now.parameters.size
  accesses : ws.accesses.size ≤ now.accesses.size
  builders : ws.builders.size ≤ now.builders.size
  formulas : ws.formulas.size ≤ now.formulas.size
  node : ∀ n : NodeRef, n.index < ws.nodes.size → (ws.node n).SameCall (now.node n)
  parameter : ∀ p : ParameterRef, p.index < ws.parameters.size → now.parameter p = ws.parameter p
  access : ∀ a : AccessRef, a.index < ws.accesses.size →
    (now.access a).parameter = (ws.access a).parameter ∧
    (now.access a).builder = (ws.access a).builder
  builder : ∀ b : BuilderRef, b.index < ws.builders.size →
    (now.builder b).parent = (ws.builder b).parent ∧
    (now.builder b).settings = (ws.builder b).settings ∧
    (now.builder b).catalog = (ws.builder b).catalog
  formula : ∀ f : FormulaRef, f.index < ws.formulas.size →
    (now.formula f).text = (ws.formula f).text ∧ (now.formula f).tree = (ws.formula f).tree

namespace Workspace.Grows

variable {ws now after : Workspace}

theorem refl (ws : Workspace) : ws.Grows ws where
  nodes := Nat.le_refl _
  parameters := Nat.le_refl _
  accesses := Nat.le_refl _
  builders := Nat.le_refl _
  formulas := Nat.le_refl _
  node _ _ := .refl _
  parameter _ _ := rfl
  access _ _ := ⟨rfl, rfl⟩
  builder _ _ := ⟨rfl, rfl, rfl⟩
  formula _ _ := ⟨rfl, rfl⟩

theorem trans (h : ws.Grows now) (h' : now.Grows after) : ws.Grows after where
  nodes := Nat.le_trans h.nodes h'.nodes
  parameters := Nat.le_trans h.parameters h'.parameters
  accesses := Nat.le_trans h.accesses h'.accesses
  builders := Nat.le_trans h.builders h'.builders
  formulas := Nat.le_trans h.formulas h'.formulas
  node n hn := (h.node n hn).trans (h'.node n (Nat.lt_of_lt_of_le hn h.nodes))
  parameter p hp := (h'.parameter p (Nat.lt_of_lt_of_le hp h.parameters)).trans (h.parameter p hp)
  access a ha := by
    obtain ⟨h₁, h₂⟩ := h.access a ha
    obtain ⟨h₃, h₄⟩ := h'.access a (Nat.lt_of_lt_of_le ha h.accesses)
    exact ⟨h₃.trans h₁, h₄.trans h₂⟩
  builder b hb := by
    obtain ⟨h₁, h₂, h₃⟩ := h.builder b hb
    obtain ⟨h₄, h₅, h₆⟩ := h'.builder b (Nat.lt_of_lt_of_le hb h.builders)
    exact ⟨h₄.trans h₁, h₅.trans h₂, h₆.trans h₃⟩
  formula f hf := by
    obtain ⟨h₁, h₂⟩ := h.formula f hf
    obtain ⟨h₃, h₄⟩ := h'.formula f (Nat.lt_of_lt_of_le hf h.formulas)
    exact ⟨h₃.trans h₁, h₄.trans h₂⟩

theorem within (h : ws.Grows now) {r : Ref} (hr : r.Within ws) : r.Within now := by
  cases r with
  | node r => exact Nat.lt_of_lt_of_le hr h.nodes
  | parameter r => exact Nat.lt_of_lt_of_le hr h.parameters
  | access r => exact Nat.lt_of_lt_of_le hr h.accesses
  | builder r => exact Nat.lt_of_lt_of_le hr h.builders
  | formula r => exact Nat.lt_of_lt_of_le hr h.formulas
  | callback f => trivial

theorem value_within (h : ws.Grows now) {v : Value} (hv : v.Within ws) : v.Within now :=
  fun r hr => h.within (hv r hr)

theorem accessParameter (h : ws.Grows now) {a : AccessRef} (ha : a.index < ws.accesses.size)
    (hp : (ws.access a).parameter.index < ws.parameters.size) :
    now.accessParameter a = ws.accessParameter a := by
  simp only [Workspace.accessParameter, (h.access a ha).1, h.parameter _ hp]

end Workspace.Grows

/-! ## Primitive steps -/

namespace Workspace

variable (ws : Workspace)

theorem grows_newNode (n : Node) : ws.Grows { ws with nodes := ws.nodes.push n } :=
  { Grows.refl ws with
    nodes := by simp
    node := fun m hm => by
      have h : ({ ws with nodes := ws.nodes.push n } : Workspace).node m = ws.node m :=
        Arena.get_push_of_lt hm n
      rw [h]
      exact .refl _ }

theorem grows_newParameter (p : Parameter) :
    ws.Grows { ws with parameters := ws.parameters.push p } :=
  { Grows.refl ws with
    parameters := by simp
    parameter := fun _ hq => Arena.get_push_of_lt hq p }

theorem grows_newAccess (a : ArrayAccess) : ws.Grows { ws with accesses := ws.accesses.push a } :=
  { Grows.refl ws with
    accesses := by simp
    access := fun c hc => by
      have h : ({ ws with accesses := ws.accesses.push a } : Workspace).access c = ws.access c :=
        Arena.get_push_of_lt hc a
      rw [h]
      exact ⟨rfl, rfl⟩ }

theorem grows_newBuilder (b : Builder) : ws.Grows { ws with builders := ws.builders.push b } :=
  { Grows.refl ws with
    builders := by simp
    builder := fun c hc => by
      have h : ({ ws with builders := ws.builders.push b } : Workspace).builder c =
          ws.builder c := Arena.get_push_of_lt hc b
      rw [h]
      exact ⟨rfl, rfl, rfl⟩ }

theorem grows_newFormula (f : Formula) : ws.Grows { ws with formulas := ws.formulas.push f } :=
  { Grows.refl ws with
    formulas := by simp
    formula := fun g hg => by
      have h : ({ ws with formulas := ws.formulas.push f } : Workspace).formula g =
          ws.formula g := Arena.get_push_of_lt hg f
      rw [h]
      exact ⟨rfl, rfl⟩ }

theorem grows_modifyNode (r : NodeRef) {f : Node → Node} (hf : ∀ n : Node, n.SameCall (f n)) :
    ws.Grows (ws.modifyNode r f) :=
  { Grows.refl ws with
    nodes := by simp [modifyNode]
    node := fun n _ => by
      rw [node_modifyNode]
      split
      · exact hf _
      · exact .refl _ }

theorem grows_modifyAccess (r : AccessRef) {f : ArrayAccess → ArrayAccess}
    (hf : ∀ a, (f a).parameter = a.parameter ∧ (f a).builder = a.builder) :
    ws.Grows (ws.modifyAccess r f) :=
  { Grows.refl ws with
    accesses := by simp [modifyAccess]
    access := fun a _ => by
      rw [access_modifyAccess]
      split
      · exact hf _
      · exact ⟨rfl, rfl⟩ }

theorem grows_modifyBuilder (r : BuilderRef) {f : Builder → Builder}
    (hf : ∀ b, (f b).parent = b.parent ∧ (f b).settings = b.settings ∧ (f b).catalog = b.catalog) :
    ws.Grows (ws.modifyBuilder r f) :=
  { Grows.refl ws with
    builders := by simp [modifyBuilder]
    builder := fun b _ => by
      rw [builder_modifyBuilder]
      split
      · exact hf _
      · exact ⟨rfl, rfl, rfl⟩ }

theorem grows_modifyFormula (r : FormulaRef) {f : Formula → Formula}
    (hf : ∀ g, (f g).text = g.text ∧ (f g).tree = g.tree) : ws.Grows (ws.modifyFormula r f) :=
  { Grows.refl ws with
    formulas := by simp [modifyFormula]
    formula := fun g _ => by
      rw [formula_modifyFormula]
      split
      · exact hf _
      · exact ⟨rfl, rfl⟩ }

theorem grows_addRecord (r : Log.Record) : ws.Grows (ws.addRecord r) := { Grows.refl ws with }

end Workspace

/-! ## Preservation -/

/-- The second dictionary is the first with entries for new objects behind it. -/
def Dictionary.GrowsBy {κ α : Type} (fresh : α → Prop) (d e : Dictionary κ α) : Prop :=
  ∃ more, e = d ++ more ∧ ∀ p ∈ more, fresh p.2

namespace Dictionary.GrowsBy

variable {κ α : Type} {fresh : α → Prop} {d e : Dictionary κ α}

theorem refl (fresh : α → Prop) (d : Dictionary κ α) : GrowsBy fresh d d :=
  ⟨[], (List.append_nil d).symm, fun _ hp => nomatch hp⟩

theorem append {more : Dictionary κ α} (h : GrowsBy fresh d e) (hm : ∀ p ∈ more, fresh p.2) :
    GrowsBy fresh d (e ++ more) := by
  obtain ⟨first, rfl, hf⟩ := h
  refine ⟨first ++ more, List.append_assoc .., fun p hp => ?_⟩
  rcases List.mem_append.1 hp with hp | hp
  · exact hf p hp
  · exact hm p hp

theorem mem {p : κ × α} (h : GrowsBy fresh d e) (hp : p ∈ e) : p ∈ d ∨ fresh p.2 := by
  obtain ⟨more, rfl, hm⟩ := h
  exact (List.mem_append.1 hp).imp_right (hm p)

theorem get? [DecidableEq κ] {k : κ} {a : α} (h : GrowsBy fresh d e)
    (hk : Dictionary.get? k d = some a) : Dictionary.get? k e = some a := by
  obtain ⟨more, rfl, -⟩ := h
  exact get?_append_of_eq_some hk more

/-- Entries that are not new were there before. -/
theorem get?_old [DecidableEq κ] {k : κ} {a : α} (h : GrowsBy fresh d e)
    (hk : Dictionary.get? k e = some a) (old : ¬ fresh a) : Dictionary.get? k d = some a := by
  cases hd : Dictionary.get? k d with
  | some a' => rw [← h.get? hd, hk]
  | none =>
    rcases h.mem (mem_of_get? hk) with hm | hm
    · have isSome := get?_isSome_iff.2 (List.mem_map_of_mem (f := Prod.fst) hm)
      rw [hd] at isSome
      cases isSome
    · exact absurd hm old

end Dictionary.GrowsBy

/-- What may become of a builder, with `content` and `declared` saying whether it may get nodes and
other declared parameters. -/
structure Builder.Kept (content declared : Prop) (newNode : NodeRef → Prop)
    (newAccess : AccessRef → Prop) (b c : Builder) : Prop where
  parentNode : c.parentNode = b.parentNode
  parentParameter : c.parentParameter = b.parentParameter
  metadata : { c.metadata with parameters := .null } = { b.metadata with parameters := .null }
  parameters : declared ∨ c.metadata.parameters = b.metadata.parameters
  nodes : b.nodes.GrowsBy newNode c.nodes
  callbackParameters : b.callbackParameters.GrowsBy newAccess c.callbackParameters
  untouched : content ∨ c.nodes = b.nodes ∧ c.counters = b.counters

/-- What may become of the elements of a callback parameter. -/
structure ArrayAccess.Kept (content : Prop) (newNode : NodeRef → Prop) (a c : ArrayAccess) :
    Prop where
  elements : a.elements.GrowsBy newNode c.elements
  untouched : content ∨ c.elements = a.elements

namespace Workspace

/-- The node is not one of an earlier workspace. -/
def NewNode (ws : Workspace) (n : NodeRef) : Prop := ws.nodes.size ≤ n.index

/-- The callback parameter is not one of an earlier workspace. -/
def NewAccess (ws : Workspace) (a : AccessRef) : Prop := ws.accesses.size ≤ a.index

/-- The builder is in a set, or not one of an earlier workspace. -/
def Free (ws : Workspace) (S : BuilderRef → Prop) (b : BuilderRef) : Prop :=
  S b ∨ ws.builders.size ≤ b.index

structure Preserves (S P : BuilderRef → Prop) (ws now : Workspace) : Prop extends
    ws.Grows now where
  catalogs : now.catalogs = ws.catalogs
  callbackNames : now.callbackNames = ws.callbackNames
  flags : ∀ n : NodeRef, n.index < ws.nodes.size →
    (now.node n).result = (ws.node n).result ∧ (now.node n).description = (ws.node n).description
  content : ∀ b : BuilderRef, b.index < ws.builders.size →
    (ws.builder b).Kept (S b) (P b) ws.NewNode ws.NewAccess (now.builder b)
  elements : ∀ a : AccessRef, a.index < ws.accesses.size →
    (ws.access a).Kept (S (ws.access a).builder) ws.NewNode (now.access a)
  newAccess : ∀ a : AccessRef, ws.NewAccess a → a.index < now.accesses.size →
    ∀ e ∈ (now.access a).elements, ws.NewNode e.2

namespace Preserves

variable {S P : BuilderRef → Prop} {ws now : Workspace}

theorem refl (S P : BuilderRef → Prop) (ws : Workspace) : ws.Preserves S P ws :=
  { Grows.refl ws with
    catalogs := rfl
    callbackNames := rfl
    flags := fun _ _ => ⟨rfl, rfl⟩
    content := fun _ _ => ⟨rfl, rfl, rfl, .inr rfl, .refl .., .refl .., .inr ⟨rfl, rfl⟩⟩
    elements := fun _ _ => ⟨.refl .., .inr rfl⟩
    newAccess := fun _ h h' => absurd h' (Nat.not_lt.2 h) }

theorem addRecord (h : ws.Preserves S P now) (r : Log.Record) :
    ws.Preserves S P (now.addRecord r) := { h with }

theorem newNode (h : ws.Preserves S P now) (n : Node) :
    ws.Preserves S P { now with nodes := now.nodes.push n } :=
  { h with
    toGrows := h.toGrows.trans (now.grows_newNode n)
    flags := fun m hm => by
      have e : ({ now with nodes := now.nodes.push n } : Workspace).node m = now.node m :=
        Arena.get_push_of_lt (Nat.lt_of_lt_of_le hm h.nodes) n
      rw [e]
      exact h.flags m hm }

theorem newParameter (h : ws.Preserves S P now) (p : Parameter) :
    ws.Preserves S P { now with parameters := now.parameters.push p } :=
  { h with toGrows := h.toGrows.trans (now.grows_newParameter p) }

theorem newFormula (h : ws.Preserves S P now) (f : Formula) :
    ws.Preserves S P { now with formulas := now.formulas.push f } :=
  { h with toGrows := h.toGrows.trans (now.grows_newFormula f) }

theorem newBuilder (h : ws.Preserves S P now) (b : Builder) :
    ws.Preserves S P { now with builders := now.builders.push b } :=
  { h with
    toGrows := h.toGrows.trans (now.grows_newBuilder b)
    content := fun c hc => by
      have e : ({ now with builders := now.builders.push b } : Workspace).builder c =
          now.builder c := Arena.get_push_of_lt (Nat.lt_of_lt_of_le hc h.builders) b
      rw [e]
      exact h.content c hc }

theorem pushAccess (h : ws.Preserves S P now) {a : ArrayAccess} (ha : a.elements = []) :
    ws.Preserves S P { now with accesses := now.accesses.push a } :=
  { h with
    toGrows := h.toGrows.trans (now.grows_newAccess a)
    elements := fun c hc => by
      have e : ({ now with accesses := now.accesses.push a } : Workspace).access c =
          now.access c := Arena.get_push_of_lt (Nat.lt_of_lt_of_le hc h.accesses) a
      rw [e]
      exact h.elements c hc
    newAccess := fun c hc hlt => by
      have e : ({ now with accesses := now.accesses.push a } : Workspace).access c =
          if c.index = now.accesses.size then a else now.access c := Arena.get_push ..
      rw [e]
      split
      · exact fun x hx => by rw [ha] at hx; cases hx
      · refine h.newAccess c hc ?_
        have hlt' : c.index < now.accesses.size + 1 := by simpa using hlt
        omega }

theorem modifyFormula (h : ws.Preserves S P now) (r : FormulaRef) {f : Formula → Formula}
    (hf : ∀ g, (f g).text = g.text ∧ (f g).tree = g.tree) :
    ws.Preserves S P (now.modifyFormula r f) :=
  { h with toGrows := h.toGrows.trans (now.grows_modifyFormula r hf) }

/-- The flags and descriptions of new nodes may change. -/
theorem modifyNode (h : ws.Preserves S P now) (r : NodeRef) {f : Node → Node}
    (hf : ∀ n : Node, n.SameCall (f n))
    (hr : ws.NewNode r ∨
      ∀ n : Node, (f n).result = n.result ∧ (f n).description = n.description) :
    ws.Preserves S P (now.modifyNode r f) :=
  { h with
    toGrows := h.toGrows.trans (now.grows_modifyNode r hf)
    flags := fun n hn => by
      rw [node_modifyNode]
      split
      · rename_i hnr
        rcases hr with hr | hr
        · rw [hnr.1] at hn
          exact absurd hn (Nat.not_lt.2 hr)
        · rw [(hr _).1, (hr _).2]
          exact h.flags n hn
      · exact h.flags n hn }

theorem modifyBuilder (h : ws.Preserves S P now) (r : BuilderRef) {f : Builder → Builder}
    (hf : ∀ b, (f b).parent = b.parent ∧ (f b).settings = b.settings ∧ (f b).catalog = b.catalog)
    (hr : r.index < ws.builders.size →
      (ws.builder r).Kept (S r) (P r) ws.NewNode ws.NewAccess (f (now.builder r))) :
    ws.Preserves S P (now.modifyBuilder r f) :=
  { h with
    toGrows := h.toGrows.trans (now.grows_modifyBuilder r hf)
    content := fun b hb => by
      rw [builder_modifyBuilder]
      split
      · rename_i hbr
        obtain ⟨rfl, -⟩ := hbr
        exact hr hb
      · exact h.content b hb }

theorem modifyAccess (h : ws.Preserves S P now) (r : AccessRef) {f : ArrayAccess → ArrayAccess}
    (hf : ∀ a, (f a).parameter = a.parameter ∧ (f a).builder = a.builder)
    (hold : r.index < ws.accesses.size →
      (ws.access r).Kept (S (ws.access r).builder) ws.NewNode (f (now.access r)))
    (hnew : ws.NewAccess r → ∀ e ∈ (f (now.access r)).elements, ws.NewNode e.2) :
    ws.Preserves S P (now.modifyAccess r f) :=
  { h with
    toGrows := h.toGrows.trans (now.grows_modifyAccess r hf)
    elements := fun a ha => by
      rw [access_modifyAccess]
      split
      · rename_i har
        obtain ⟨rfl, -⟩ := har
        exact hold ha
      · exact h.elements a ha
    newAccess := fun a ha hlt => by
      have hlt' : a.index < now.accesses.size := by simpa [Workspace.modifyAccess] using hlt
      rw [access_modifyAccess]
      split
      · rename_i har
        obtain ⟨rfl, -⟩ := har
        exact hnew ha
      · exact h.newAccess a ha hlt' }

end Preserves

end Workspace

end ProcessGraph
