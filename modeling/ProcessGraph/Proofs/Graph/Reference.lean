import ProcessGraph.Graph.Document
import ProcessGraph.Proofs.Dictionary

/-!
# References in values

`Value.refs v`: the objects that a value refers to, at any depth of lists, tuples and dictionaries.
What discovery looks for in a value are the parameters and nodes among them.
`v.Within ws` says that all of them exist in `ws`; functions are no objects of the workspace, so
that nothing is asked of them. Catalogs are left out: a value that is a catalog is passed on as it
is.
-/

set_option autoImplicit false

namespace ProcessGraph

/-- A reference to an object of a workspace, or to a function of its host. -/
inductive Ref where
  | node (r : NodeRef)
  | parameter (r : ParameterRef)
  | access (r : AccessRef)
  | builder (r : BuilderRef)
  | formula (r : FormulaRef)
  | callback (handle : Nat)
deriving DecidableEq

namespace Value

mutual

/-- The objects in a value, from left to right. -/
def refs : Value → List Ref
  | .list vs => refsInList vs
  | .tuple vs => refsInList vs
  | .dict d => refsInEntries d
  | .node r => [.node r]
  | .parameter r => [.parameter r]
  | .access r => [.access r]
  | .builder r => [.builder r]
  | .formula r => [.formula r]
  | .callback f => [.callback f.handle]
  | _ => []

def refsInList : List Value → List Ref
  | [] => []
  | v :: vs => refs v ++ refsInList vs

def refsInEntries : List (Scalar × Value) → List Ref
  | [] => []
  | (_, v) :: d => refs v ++ refsInEntries d

end

theorem refsInList_eq (vs : List Value) : refsInList vs = vs.flatMap refs := by
  induction vs with
  | nil => rfl
  | cons v vs ih =>
    show refs v ++ refsInList vs = _
    rw [ih, List.flatMap_cons]

theorem refsInEntries_eq (d : List (Scalar × Value)) :
    refsInEntries d = d.flatMap fun p => p.2.refs := by
  induction d with
  | nil => rfl
  | cons p d ih =>
    show refs p.2 ++ refsInEntries d = _
    rw [ih, List.flatMap_cons]

theorem mem_refsInList {r : Ref} {vs : List Value} :
    r ∈ refsInList vs ↔ ∃ v ∈ vs, r ∈ v.refs := by
  rw [refsInList_eq, List.mem_flatMap]

theorem mem_refsInEntries {r : Ref} {d : List (Scalar × Value)} :
    r ∈ refsInEntries d ↔ ∃ p ∈ d, r ∈ p.2.refs := by
  rw [refsInEntries_eq, List.mem_flatMap]

@[simp] theorem mem_refs_list {r : Ref} {vs : List Value} :
    r ∈ refs (.list vs) ↔ ∃ v ∈ vs, r ∈ v.refs := mem_refsInList

@[simp] theorem mem_refs_tuple {r : Ref} {vs : List Value} :
    r ∈ refs (.tuple vs) ↔ ∃ v ∈ vs, r ∈ v.refs := mem_refsInList

@[simp] theorem mem_refs_dict {r : Ref} {d : List (Scalar × Value)} :
    r ∈ refs (.dict d) ↔ ∃ p ∈ d, r ∈ p.2.refs := mem_refsInEntries

end Value

/-! ## Mentions -/

/-- What is mentioned, as what a value refers to. -/
def Mention.ref : Mention → Ref
  | .parameter r => .parameter r
  | .node r => .node r

namespace Value

mutual

/-- The parameters and nodes that a value refers to are mentioned, and nothing else. -/
theorem mem_mentions_iff {m : Mention} : (v : Value) → (m ∈ v.mentions ↔ m.ref ∈ v.refs)
  | .list vs => mem_mentionsInList_iff vs
  | .tuple vs => mem_mentionsInList_iff vs
  | .dict d => mem_mentionsInEntries_iff d
  | .node _ | .parameter _ | .access _ | .builder _ | .formula _ | .callback _ => by
    cases m <;> simp [mentions, refs, Mention.ref]
  | .null | .bool _ | .int _ | .float _ | .str _ | .catalog _ => by
    simp [mentions, refs]

theorem mem_mentionsInList_iff {m : Mention} : (vs : List Value) →
    (m ∈ mentionsInList vs ↔ m.ref ∈ refsInList vs)
  | [] => by simp [mentionsInList, refsInList]
  | v :: vs => by
    rw [mentionsInList, refsInList, List.mem_append, List.mem_append, mem_mentions_iff v,
      mem_mentionsInList_iff vs]

theorem mem_mentionsInEntries_iff {m : Mention} : (d : List (Scalar × Value)) →
    (m ∈ mentionsInEntries d ↔ m.ref ∈ refsInEntries d)
  | [] => by simp [mentionsInEntries, refsInEntries]
  | (_, v) :: d => by
    rw [mentionsInEntries, refsInEntries, List.mem_append, List.mem_append, mem_mentions_iff v,
      mem_mentionsInEntries_iff d]

end

end Value

/-- A scalar refers to nothing. -/
@[simp] theorem Scalar.refs_toValue (s : Scalar) : s.toValue.refs = [] := by
  cases s <;> rfl

@[simp] theorem ElementKey.refs_toValue (k : ElementKey) : k.toValue.refs = [] := by
  cases k <;> rfl

/-- The object exists. -/
def Ref.Within (ws : Workspace) : Ref → Prop
  | node r => r.index < ws.nodes.size
  | parameter r => r.index < ws.parameters.size
  | access r => r.index < ws.accesses.size
  | builder r => r.index < ws.builders.size
  | formula r => r.index < ws.formulas.size
  | callback _ => True

/-- All objects in the value exist. -/
def Value.Within (ws : Workspace) (v : Value) : Prop := ∀ r ∈ v.refs, r.Within ws

/-- All objects in the entries exist. -/
def Value.EntriesWithin (ws : Workspace) (d : Value.Entries) : Prop :=
  ∀ p ∈ d, p.2.Within ws

instance (ws : Workspace) : DecidablePred (Ref.Within ws)
  | .node _ | .parameter _ | .access _ | .builder _ | .formula _ =>
    inferInstanceAs (Decidable (_ < _))
  | .callback _ => .isTrue trivial

instance (ws : Workspace) (v : Value) : Decidable (v.Within ws) :=
  inferInstanceAs (Decidable (∀ r ∈ v.refs, r.Within ws))

section
variable {ws : Workspace}

theorem Value.within_of_refs_eq_nil {v : Value} (h : v.refs = []) : v.Within ws := by
  simp [Value.Within, h]

@[simp] theorem Value.within_null : Value.null.Within ws := Value.within_of_refs_eq_nil rfl

theorem Scalar.within_toValue (s : Scalar) : s.toValue.Within ws :=
  Value.within_of_refs_eq_nil s.refs_toValue

theorem Value.within_list {vs : List Value} :
    (Value.list vs).Within ws ↔ ∀ v ∈ vs, v.Within ws := by
  simp only [Value.Within, mem_refs_list]
  exact ⟨fun h v hv r hr => h r ⟨v, hv, hr⟩, fun h r ⟨v, hv, hr⟩ => h v hv r hr⟩

theorem Value.within_tuple {vs : List Value} :
    (Value.tuple vs).Within ws ↔ ∀ v ∈ vs, v.Within ws := by
  simp only [Value.Within, mem_refs_tuple]
  exact ⟨fun h v hv r hr => h r ⟨v, hv, hr⟩, fun h r ⟨v, hv, hr⟩ => h v hv r hr⟩

theorem Value.within_dict {d : Value.Entries} :
    (Value.dict d).Within ws ↔ Value.EntriesWithin ws d := by
  simp only [Value.Within, Value.EntriesWithin, mem_refs_dict]
  exact ⟨fun h p hp r hr => h r ⟨p, hp, hr⟩, fun h r ⟨p, hp, hr⟩ => h p hp r hr⟩

theorem Value.within_node {r : NodeRef} :
    (Value.node r).Within ws ↔ r.index < ws.nodes.size :=
  List.forall_mem_singleton

theorem Value.within_parameter {r : ParameterRef} :
    (Value.parameter r).Within ws ↔ r.index < ws.parameters.size :=
  List.forall_mem_singleton

theorem Value.within_access {r : AccessRef} :
    (Value.access r).Within ws ↔ r.index < ws.accesses.size :=
  List.forall_mem_singleton

theorem Value.within_formula {r : FormulaRef} :
    (Value.formula r).Within ws ↔ r.index < ws.formulas.size :=
  List.forall_mem_singleton

theorem Value.within_builder {r : BuilderRef} :
    (Value.builder r).Within ws ↔ r.index < ws.builders.size :=
  List.forall_mem_singleton

end

end ProcessGraph
