import ProcessGraph.Proofs.Graph.Growth

/-!
# Well-formed workspaces

`Workspace.WellFormed`: every reference of a node, builder or callback parameter leads to an object
that exists, a node mentions older nodes only, builders are younger than their parents, nodes are
registered under their own ids in the order of their creation, and the remembered elements of a
callback parameter are registered nodes that access the element in question (`IsElement`). The
primitive steps keep it under what each of them asks for.
-/

set_option autoImplicit false

namespace ProcessGraph

/-- Nodes mention older nodes only. -/
def Ref.Below (n : NodeRef) : Ref → Prop
  | node m => m.index < n.index
  | _ => True

structure Node.Ok (ws : Workspace) (n : NodeRef) (node : Node) : Prop where
  owner : node.builder.index < ws.builders.size
  arguments : ∀ r ∈ Value.refsInEntries node.arguments, r.Within ws ∧ r.Below n

structure Builder.Ok (ws : Workspace) (b : BuilderRef) (builder : Builder) : Prop where
  parent : ∀ p, builder.parent = some p → p.index < b.index
  parentNode : ∀ n, builder.parentNode = some n → n.index < ws.nodes.size
  nodes : ∀ id n, (id, n) ∈ builder.nodes →
    n.index < ws.nodes.size ∧ (ws.node n).builder = b ∧ (ws.node n).id = id
  nodup : builder.nodes.keys.Nodup
  ordered : builder.nodes.Pairwise fun p q => p.2.index < q.2.index
  callbackParameters : ∀ k a, (k, a) ∈ builder.callbackParameters →
    a.index < ws.accesses.size ∧ (ws.access a).builder = b ∧
    (ws.access a).parameter.index < ws.parameters.size ∧
    ws.accessParameter a = .ofCallback k.toValue

/-- A node that comes behind those of a builder, with an id of its own. -/
structure Builder.Precedes (builder : Builder) (id : String) (n : NodeRef) : Prop where
  id : id ∉ builder.nodes.keys
  last : ∀ p ∈ builder.nodes, p.2.index < n.index

theorem Builder.Precedes.insert {builder : Builder} {id : String} {n : NodeRef}
    (h : builder.Precedes id n) : Dictionary.insert id n builder.nodes = builder.nodes ++ [(id, n)] :=
  Dictionary.insert_of_not_mem n h.id

/-- The node is registered and accesses the element under a key. -/
structure Workspace.IsElement (ws : Workspace) (access : ArrayAccess) (k : ElementKey)
    (n : NodeRef) : Prop where
  within : n.index < ws.nodes.size
  process : ((ws.node n).process, (ws.node n).space) =
    splitProcessId (ws.builder access.builder).settings.arrayElementProcess
  arguments : (ws.node n).arguments =
    [(.str "data", .parameter access.parameter), (.str k.argument, k.toValue)]
  registered : Dictionary.get? (ws.node n).id (ws.builder access.builder).nodes = some n

structure ArrayAccess.Ok (ws : Workspace) (a : AccessRef) (access : ArrayAccess) : Prop where
  parameter : access.parameter.index < ws.parameters.size
  builder : access.builder.index < ws.builders.size
  listed : ∃ k, Dictionary.get? k (ws.builder access.builder).callbackParameters = some a
  elements : ∀ k n, (k, n) ∈ access.elements → ws.IsElement access k n

structure Workspace.WellFormed (ws : Workspace) : Prop where
  node : ∀ n : NodeRef, n.index < ws.nodes.size → (ws.node n).Ok ws n
  builder : ∀ b : BuilderRef, b.index < ws.builders.size → (ws.builder b).Ok ws b
  access : ∀ a : AccessRef, a.index < ws.accesses.size → (ws.access a).Ok ws a
  distinct : ∀ a c : AccessRef, a.index < ws.accesses.size → c.index < ws.accesses.size →
    (ws.access a).parameter = (ws.access c).parameter → a = c

namespace Workspace

/-- What is registered stays registered. -/
structure Retains (ws now : Workspace) : Prop where
  nodes : ∀ b : BuilderRef, b.index < ws.builders.size → ∀ id n,
    Dictionary.get? id (ws.builder b).nodes = some n →
    Dictionary.get? id (now.builder b).nodes = some n
  callbackParameters : ∀ b : BuilderRef, b.index < ws.builders.size → ∀ k a,
    Dictionary.get? k (ws.builder b).callbackParameters = some a →
    Dictionary.get? k (now.builder b).callbackParameters = some a

variable {ws now : Workspace}

theorem Retains.of_builder_eq
    (h : ∀ b : BuilderRef, b.index < ws.builders.size →
      (now.builder b).nodes = (ws.builder b).nodes ∧
      (now.builder b).callbackParameters = (ws.builder b).callbackParameters) :
    ws.Retains now where
  nodes b hb id n hn := by rw [(h b hb).1]; exact hn
  callbackParameters b hb k a ha := by rw [(h b hb).2]; exact ha

end Workspace

section
variable {ws now : Workspace}

/-! ## The parts in a grown workspace -/

theorem Node.Ok.grow {n : NodeRef} {node m : Node} (h : node.Ok ws n) (g : ws.Grows now)
    (hm : node.SameCall m) : m.Ok now n where
  owner := by
    rw [hm.builder]
    exact Nat.lt_of_lt_of_le h.owner g.builders
  arguments r hr := by
    rw [hm.arguments] at hr
    exact ⟨g.within (h.arguments r hr).1, (h.arguments r hr).2⟩

theorem Builder.Ok.grow {b : BuilderRef} {builder : Builder} (h : builder.Ok ws b)
    (g : ws.Grows now) : builder.Ok now b where
  parent := h.parent
  parentNode n hn := Nat.lt_of_lt_of_le (h.parentNode n hn) g.nodes
  nodes id n hn := by
    obtain ⟨hlt, hb, hid⟩ := h.nodes id n hn
    have same := g.node n hlt
    exact ⟨Nat.lt_of_lt_of_le hlt g.nodes, same.builder.trans hb, same.id.trans hid⟩
  nodup := h.nodup
  ordered := h.ordered
  callbackParameters k a ha := by
    obtain ⟨hlt, hb, hp, hk⟩ := h.callbackParameters k a ha
    obtain ⟨same, sameBuilder⟩ := g.access a hlt
    refine ⟨Nat.lt_of_lt_of_le hlt g.accesses, sameBuilder.trans hb, ?_,
      (g.accessParameter hlt hp).trans hk⟩
    rw [same]
    exact Nat.lt_of_lt_of_le hp g.parameters

theorem Workspace.IsElement.grow {access : ArrayAccess} {k : ElementKey} {n : NodeRef}
    (h : ws.IsElement access k n) (g : ws.Grows now) (hb : access.builder.index < ws.builders.size)
    (hr : Dictionary.get? (ws.node n).id (now.builder access.builder).nodes = some n) :
    now.IsElement access k n where
  within := Nat.lt_of_lt_of_le h.within g.nodes
  process := by
    rw [(g.node n h.within).process, (g.node n h.within).space, (g.builder _ hb).2.1]
    exact h.process
  arguments := (g.node n h.within).arguments.trans h.arguments
  registered := by
    rw [(g.node n h.within).id]
    exact hr

theorem ArrayAccess.Ok.grow {a : AccessRef} {access : ArrayAccess} (h : access.Ok ws a)
    (g : ws.Grows now) (keep : ws.Retains now) : access.Ok now a where
  parameter := Nat.lt_of_lt_of_le h.parameter g.parameters
  builder := Nat.lt_of_lt_of_le h.builder g.builders
  listed := by
    obtain ⟨k, hk⟩ := h.listed
    exact ⟨k, keep.callbackParameters _ h.builder k a hk⟩
  elements k n hn := (h.elements k n hn).grow g h.builder
    (keep.nodes _ h.builder _ n (h.elements k n hn).registered)

/-! ## Primitive steps -/

namespace Workspace.WellFormed

/-- Objects that are as before stay well-formed, so that only the others count. -/
theorem grow (h : ws.WellFormed) (g : ws.Grows now) (keep : ws.Retains now)
    (hnode : ∀ n : NodeRef, ws.NewNode n → n.index < now.nodes.size → (now.node n).Ok now n)
    (hbuilder : ∀ b : BuilderRef, b.index < now.builders.size →
      b.index < ws.builders.size ∧ now.builder b = ws.builder b ∨ (now.builder b).Ok now b)
    (haccess : ∀ a : AccessRef, a.index < now.accesses.size →
      a.index < ws.accesses.size ∧ now.access a = ws.access a ∨ (now.access a).Ok now a)
    (hnew : ∀ a : AccessRef, ws.NewAccess a → a.index < now.accesses.size →
      ∀ c : AccessRef, c.index < now.accesses.size →
      (now.access a).parameter = (now.access c).parameter → a = c) :
    now.WellFormed where
  node n hn := by
    by_cases hlt : n.index < ws.nodes.size
    · exact (h.node n hlt).grow g (g.node n hlt)
    · exact hnode n (Nat.not_lt.1 hlt) hn
  builder b hb := by
    rcases hbuilder b hb with ⟨hlt, e⟩ | ok
    · rw [e]
      exact (h.builder b hlt).grow g
    · exact ok
  access a ha := by
    rcases haccess a ha with ⟨hlt, e⟩ | ok
    · rw [e]
      exact (h.access a hlt).grow g keep
    · exact ok
  distinct a c ha hc e := by
    by_cases hlt : a.index < ws.accesses.size
    · by_cases hlt' : c.index < ws.accesses.size
      · rw [(g.access a hlt).1, (g.access c hlt').1] at e
        exact h.distinct a c hlt hlt' e
      · exact (hnew c (Nat.not_lt.1 hlt') hc a ha e.symm).symm
    · exact hnew a (Nat.not_lt.1 hlt) ha c hc e

/-- Nothing depends on catalogs, formulas, names of callback parameters, records and warnings, nor
on the flags and descriptions of nodes. -/
theorem of_same (h : ws.WellFormed) (g : ws.Grows now) (hn : now.nodes.size = ws.nodes.size)
    (hb : now.builders = ws.builders) (ha : now.accesses = ws.accesses) : now.WellFormed := by
  have eb : ∀ b, now.builder b = ws.builder b := fun b => by simp only [Workspace.builder, hb]
  have ea : ∀ a, now.access a = ws.access a := fun a => by simp only [Workspace.access, ha]
  refine h.grow g (.of_builder_eq fun b _ => ⟨by rw [eb], by rw [eb]⟩) (fun n hnew hlt => ?_)
    (fun b hlt => .inl ⟨hb ▸ hlt, eb b⟩) (fun a hlt => .inl ⟨ha ▸ hlt, ea a⟩)
    (fun a hnew hlt => ?_)
  · exact absurd hlt (Nat.not_lt.2 (hn ▸ hnew))
  · exact absurd hlt (Nat.not_lt.2 (ha ▸ hnew))

theorem newNode (h : ws.WellFormed) {n : Node} (hn : n.Ok ws ⟨ws.nodes.size⟩) :
    WellFormed { ws with nodes := ws.nodes.push n } := by
  have g := ws.grows_newNode n
  refine h.grow g (.of_builder_eq fun _ _ => ⟨rfl, rfl⟩) (fun m hnew hlt => ?_)
    (fun b hlt => .inl ⟨hlt, rfl⟩) (fun a hlt => .inl ⟨hlt, rfl⟩)
    (fun a hnew hlt => absurd hlt (Nat.not_lt.2 hnew))
  obtain ⟨i⟩ := m
  have hi : i = ws.nodes.size := by
    have h₁ : ws.nodes.size ≤ i := hnew
    have h₂ : i < ws.nodes.size + 1 := by simpa using hlt
    omega
  subst hi
  have e : ({ ws with nodes := ws.nodes.push n } : Workspace).node ⟨ws.nodes.size⟩ = n :=
    Arena.get_push_size ..
  rw [e]
  exact hn.grow g (.refl n)

theorem newParameter (h : ws.WellFormed) (p : Parameter) :
    WellFormed { ws with parameters := ws.parameters.push p } :=
  h.of_same (ws.grows_newParameter p) rfl rfl rfl

theorem newFormula (h : ws.WellFormed) (f : Formula) :
    WellFormed { ws with formulas := ws.formulas.push f } :=
  h.of_same (ws.grows_newFormula f) rfl rfl rfl

theorem addRecord (h : ws.WellFormed) (r : Log.Record) : (ws.addRecord r).WellFormed :=
  h.of_same (ws.grows_addRecord r) rfl rfl rfl

theorem modifyNode (h : ws.WellFormed) (r : NodeRef) {f : Node → Node}
    (hf : ∀ n : Node, n.SameCall (f n)) : (ws.modifyNode r f).WellFormed :=
  h.of_same (ws.grows_modifyNode r hf) (Arena.size_modify ..) rfl rfl

theorem modifyFormula (h : ws.WellFormed) (r : FormulaRef) {f : Formula → Formula}
    (hf : ∀ g, (f g).text = g.text ∧ (f g).tree = g.tree) :
    (ws.modifyFormula r f).WellFormed :=
  h.of_same (ws.grows_modifyFormula r hf) rfl rfl rfl

theorem newBuilder (h : ws.WellFormed) {b : Builder} (hb : b.Ok ws ⟨ws.builders.size⟩) :
    WellFormed { ws with builders := ws.builders.push b } := by
  have g := ws.grows_newBuilder b
  have e : ∀ c : BuilderRef,
      ({ ws with builders := ws.builders.push b } : Workspace).builder c =
        if c.index = ws.builders.size then b else ws.builder c := fun c => Arena.get_push ..
  refine h.grow g (.of_builder_eq fun c hc => ?_)
    (fun n hnew hlt => absurd hlt (Nat.not_lt.2 hnew)) (fun c hlt => ?_)
    (fun a hlt => .inl ⟨hlt, rfl⟩) (fun a hnew hlt => absurd hlt (Nat.not_lt.2 hnew))
  · rw [e, if_neg (Nat.ne_of_lt hc)]
    exact ⟨rfl, rfl⟩
  · rw [e]
    split
    · rename_i hc
      obtain ⟨i⟩ := c
      subst hc
      exact .inr (hb.grow g)
    · have hlt' : c.index < ws.builders.size + 1 := by simpa using hlt
      exact .inl ⟨by omega, rfl⟩

/-- A builder may change as long as it stays in order and forgets nothing. -/
theorem modifyBuilder (h : ws.WellFormed) (r : BuilderRef) {f : Builder → Builder}
    (hf : ∀ b, (f b).parent = b.parent ∧ (f b).settings = b.settings ∧ (f b).catalog = b.catalog)
    (hok : r.index < ws.builders.size → (f (ws.builder r)).Ok ws r)
    (hnodes : ∀ id n, Dictionary.get? id (ws.builder r).nodes = some n →
      Dictionary.get? id (f (ws.builder r)).nodes = some n)
    (hparameters : ∀ k a, Dictionary.get? k (ws.builder r).callbackParameters = some a →
      Dictionary.get? k (f (ws.builder r)).callbackParameters = some a) :
    (ws.modifyBuilder r f).WellFormed := by
  have g := ws.grows_modifyBuilder r hf
  refine h.grow g ⟨fun b hb id n hn => ?_, fun b hb k a ha => ?_⟩
    (fun n hnew hlt => absurd hlt (Nat.not_lt.2 hnew)) (fun b hlt => ?_)
    (fun a hlt => .inl ⟨hlt, rfl⟩) (fun a hnew hlt => absurd hlt (Nat.not_lt.2 hnew))
  · rw [builder_modifyBuilder]
    split
    · rename_i hbr
      obtain ⟨rfl, -⟩ := hbr
      exact hnodes id n hn
    · exact hn
  · rw [builder_modifyBuilder]
    split
    · rename_i hbr
      obtain ⟨rfl, -⟩ := hbr
      exact hparameters k a ha
    · exact ha
  · have hlt' : b.index < ws.builders.size := by simpa [Workspace.modifyBuilder] using hlt
    rw [builder_modifyBuilder]
    split
    · rename_i hbr
      obtain ⟨rfl, hlt⟩ := hbr
      exact .inr ((hok hlt).grow g)
    · exact .inl ⟨hlt', rfl⟩

/-- A callback parameter may change its elements as long as they are elements. -/
theorem modifyAccess (h : ws.WellFormed) (r : AccessRef) {f : ArrayAccess → ArrayAccess}
    (hf : ∀ a, (f a).parameter = a.parameter ∧ (f a).builder = a.builder)
    (hok : r.index < ws.accesses.size → (f (ws.access r)).Ok ws r) :
    (ws.modifyAccess r f).WellFormed := by
  have g := ws.grows_modifyAccess r hf
  have keep : ws.Retains (ws.modifyAccess r f) := .of_builder_eq fun _ _ => ⟨rfl, rfl⟩
  refine h.grow g keep (fun n hnew hlt => absurd hlt (Nat.not_lt.2 hnew))
    (fun b hlt => .inl ⟨hlt, rfl⟩) (fun a hlt => ?_) (fun a hnew hlt => ?_)
  · have hlt' : a.index < ws.accesses.size := by simpa [Workspace.modifyAccess] using hlt
    rw [access_modifyAccess]
    split
    · rename_i har
      obtain ⟨rfl, hlt⟩ := har
      exact .inr ((hok hlt).grow g keep)
    · exact .inl ⟨hlt', rfl⟩
  · have hlt' : a.index < ws.accesses.size := by simpa [Workspace.modifyAccess] using hlt
    exact absurd hlt' (Nat.not_lt.2 hnew)

end Workspace.WellFormed

end

end ProcessGraph
