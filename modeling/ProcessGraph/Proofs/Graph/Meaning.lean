import ProcessGraph.Proofs.Graph.Reachability

/-!
# The meaning of values

`ws.meaning I v`: what a value says under an interpretation `I` of processes and parameters; a node
means its process, applied to what its arguments mean (`meaning_node`). Meanings stay when the
workspace grows (`meaning_grow`).
-/

set_option autoImplicit false

universe u

namespace ProcessGraph

/-- What processes, parameters and plain data are in a domain. -/
structure Interpretation (D : Type u) where
  /-- A process, with its namespace, is a function of its named arguments. -/
  process : String → Option String → List (Scalar × D) → D
  /-- The parameters have values by name. -/
  parameter : Value → D
  scalar : Scalar → D
  list : List D → D
  tuple : List D → D
  dict : List (Scalar × D) → D
  /-- Builders, formulas, functions and catalogs stand for themselves. -/
  object : Value → D

variable {D : Type u} (I : Interpretation D)

/-! ## The meaning of values -/

namespace Value

variable (ws : Workspace) (node : NodeRef → D)

mutual

/-- What a value means if the nodes mean what `node` says. -/
def meaningWith : Value → D
  | .null => I.scalar .null
  | .bool b => I.scalar (.bool b)
  | .int n => I.scalar (.int n)
  | .float x => I.scalar (.float x)
  | .str s => I.scalar (.str s)
  | .list vs => I.list (meaningsWith vs)
  | .tuple vs => I.tuple (meaningsWith vs)
  | .dict d => I.dict (entriesWith d)
  | .node r => node r
  | .parameter r => I.parameter (ws.parameter r).name
  | .access r => I.parameter (ws.accessParameter r).name
  | v => I.object v

def meaningsWith : List Value → List D
  | [] => []
  | v :: vs => meaningWith v :: meaningsWith vs

def entriesWith : List (Scalar × Value) → List (Scalar × D)
  | [] => []
  | (k, v) :: d => (k, meaningWith v) :: entriesWith d

end

theorem entriesWith_eq (d : List (Scalar × Value)) :
    entriesWith I ws node d = d.map fun p => (p.1, meaningWith I ws node p.2) := by
  induction d with
  | nil => rfl
  | cons p d ih => rw [entriesWith, ih, List.map_cons]

theorem meaningWith_toValue (s : Scalar) : meaningWith I ws node s.toValue = I.scalar s := by
  cases s <;> rfl

variable {ws node}

/-- Two ways to read a reference agree. -/
def Agrees (ws now : Workspace) (node other : NodeRef → D) : Ref → Prop
  | .node r => other r = node r
  | .parameter r => now.parameter r = ws.parameter r
  | .access r => now.accessParameter r = ws.accessParameter r
  | _ => True

section
variable {now : Workspace} {other : NodeRef → D}

mutual

/-- A value means the same if its references do. -/
theorem meaningWith_congr : (v : Value) → (∀ r ∈ v.refs, Agrees ws now node other r) →
    meaningWith I now other v = meaningWith I ws node v
  | .node r, h => h (.node r) (List.mem_singleton_self _)
  | .parameter r, h =>
    congrArg (fun p : Parameter => I.parameter p.name) (h (.parameter r) (List.mem_singleton_self _))
  | .access r, h =>
    congrArg (fun p : Parameter => I.parameter p.name) (h (.access r) (List.mem_singleton_self _))
  | .list vs, h => congrArg I.list (meaningsWith_congr vs h)
  | .tuple vs, h => congrArg I.tuple (meaningsWith_congr vs h)
  | .dict d, h => congrArg I.dict (entriesWith_congr d h)
  | .null, _ | .bool _, _ | .int _, _ | .float _, _ | .str _, _ | .builder _, _ | .formula _, _
  | .catalog _, _ | .callback _, _ => rfl

theorem meaningsWith_congr : (vs : List Value) →
    (∀ r ∈ refsInList vs, Agrees ws now node other r) →
    meaningsWith I now other vs = meaningsWith I ws node vs
  | [], _ => rfl
  | v :: vs, h => by
    have hv := meaningWith_congr v fun r hr => h r (List.mem_append_left _ hr)
    have hvs := meaningsWith_congr vs fun r hr => h r (List.mem_append_right _ hr)
    rw [meaningsWith, meaningsWith, hv, hvs]

theorem entriesWith_congr : (d : List (Scalar × Value)) →
    (∀ r ∈ refsInEntries d, Agrees ws now node other r) →
    entriesWith I now other d = entriesWith I ws node d
  | [], _ => rfl
  | (k, v) :: d, h => by
    have hv := meaningWith_congr v fun r hr => h r (List.mem_append_left _ hr)
    have hd := entriesWith_congr d fun r hr => h r (List.mem_append_right _ hr)
    rw [entriesWith, entriesWith, hv, hd]

end

end

end Value

namespace Workspace

/-- What a node means, read through at most `depth` nodes. -/
def nodeMeaning (ws : Workspace) : Nat → NodeRef → D
  | 0, _ => I.scalar .null
  | depth + 1, r =>
    I.process (ws.node r).process (ws.node r).space
      (Value.entriesWith I ws (nodeMeaning ws depth) (ws.node r).arguments)

/-- What a value means. Only older nodes are read to know what a node means, so that its index
bounds how many there are on a path. -/
def meaning (ws : Workspace) (v : Value) : D :=
  v.meaningWith I ws fun r => ws.nodeMeaning I (r.index + 1) r

variable {ws now : Workspace}

theorem agrees_of_within {node other : NodeRef → D} (h : ws.WellFormed) (g : ws.Grows now)
    {r : Ref} (hr : r.Within ws) (hn : ∀ n, r = .node n → other n = node n) :
    Value.Agrees ws now node other r := by
  cases r with
  | node n => exact hn n rfl
  | parameter p => exact g.parameter p hr
  | access a => exact g.accessParameter hr (h.access a hr).parameter
  | _ => trivial

/-- It does not matter how far nodes are read, as long as it is far enough. -/
theorem WellFormed.nodeMeaning_eq (h : ws.WellFormed) {m n : Nat} {r : NodeRef}
    (hr : r.index < ws.nodes.size) (hm : r.index < m) (hn : r.index < n) :
    ws.nodeMeaning I m r = ws.nodeMeaning I n r := by
  induction m generalizing n r with
  | zero => omega
  | succ m ih =>
    cases n with
    | zero => omega
    | succ n =>
      unfold nodeMeaning
      congr 1
      refine Value.entriesWith_congr I _ fun q hq => ?_
      obtain ⟨hw, hb⟩ := (h.node r hr).arguments q hq
      refine agrees_of_within h (.refl ws) hw fun k e => ?_
      subst e
      have hlt : k.index < r.index := hb
      exact ih hw (by omega) (by omega)

theorem WellFormed.nodeMeaning_grow (h : ws.WellFormed) (g : ws.Grows now) (depth : Nat)
    {r : NodeRef} (hr : r.index < ws.nodes.size) :
    now.nodeMeaning I depth r = ws.nodeMeaning I depth r := by
  induction depth generalizing r with
  | zero => rfl
  | succ depth ih =>
    have same := g.node r hr
    unfold nodeMeaning
    rw [same.process, same.space, same.arguments]
    congr 1
    refine Value.entriesWith_congr I _ fun q hq => ?_
    have hw := ((h.node r hr).arguments q hq).1
    refine agrees_of_within h g hw fun k e => ?_
    subst e
    exact ih hw

/-- What has a meaning keeps it. -/
theorem WellFormed.meaning_grow (h : ws.WellFormed) (g : ws.Grows now) {v : Value}
    (hv : v.Within ws) : now.meaning I v = ws.meaning I v := by
  refine Value.meaningWith_congr I v fun r hr => ?_
  refine agrees_of_within h g (hv r hr) fun n e => ?_
  subst e
  exact h.nodeMeaning_grow I g _ (hv _ hr)

/-- A node means its process, applied to what its arguments mean. -/
theorem WellFormed.meaning_node (h : ws.WellFormed) {r : NodeRef}
    (hr : r.index < ws.nodes.size) :
    ws.meaning I (.node r) = I.process (ws.node r).process (ws.node r).space
      ((ws.node r).arguments.map fun p => (p.1, ws.meaning I p.2)) := by
  show ws.nodeMeaning I (r.index + 1) r = _
  unfold nodeMeaning
  congr 1
  refine (Value.entriesWith_congr I _ fun q hq => ?_).trans (Value.entriesWith_eq I ws _ _)
  obtain ⟨hw, hb⟩ := (h.node r hr).arguments q hq
  refine agrees_of_within h (.refl ws) hw fun k e => ?_
  subst e
  exact h.nodeMeaning_eq I hw hb (Nat.lt_succ_self _)

end Workspace

end ProcessGraph
