import ProcessGraph.Proofs.Graph.ElementHistories
import ProcessGraph.Proofs.Graph.ResolvedReferences
import ProcessGraph.Proofs.Graph.SimulatedParameters

/-!
# Shared elements

Whatever has happened to a workspace, accessing an element of a callback parameter gives a
registered node for this element, and the same one again as long as it is registered
(`Workspace.elements_shared`). A node is remembered by its callback parameter from the access on
(`Recalls`): operations forget no elements, and when a block is undone those are forgotten whose
nodes are not registered any more.
-/

set_option autoImplicit false

namespace ProcessGraph

namespace Workspace

variable {ws now after before : Workspace} {b : BuilderRef} {made : List ElementAccess}

/-- The node of the access is registered with the builder of its callback parameter. -/
def Registers (ws : Workspace) (e : ElementAccess) : Prop :=
  Dictionary.get? (ws.node e.node).id (ws.builder (ws.access e.access).builder).nodes = some e.node

/-- No callback parameter has forgotten an element. -/
def KeepsElements (ws now : Workspace) : Prop :=
  ∀ a : AccessRef, a.index < ws.accesses.size → ∀ k n,
    Dictionary.get? k (ws.access a).elements = some n →
    Dictionary.get? k (now.access a).elements = some n

/-! ## Elements that are kept -/

theorem KeepsElements.refl (ws : Workspace) : ws.KeepsElements ws := fun _ _ _ _ h => h

theorem KeepsElements.trans (h : ws.KeepsElements now) (g : ws.Grows now)
    (h' : now.KeepsElements after) : ws.KeepsElements after :=
  fun a ha k n hn => h' a (Nat.lt_of_lt_of_le ha g.accesses) k n (h a ha k n hn)

theorem KeepsElements.of_accesses_eq (e : now.accesses = ws.accesses) : ws.KeepsElements now := by
  intro a _ k n hn
  unfold access at *
  rwa [e]

theorem Extends.keepsElements {S P : BuilderRef → Prop} (h : ws.Extends S P now) :
    ws.KeepsElements now := fun a ha _ _ hn => (h.kept.elements a ha).elements.get? hn

/-- An element is forgotten only if its node is not registered any more. -/
theorem element_rollBack (wf : before.WellFormed) (g : before.Grows now) (wfnow : now.WellFormed)
    (hb : b.index < before.builders.size) {a : AccessRef} {k : ElementKey} {n : NodeRef}
    (hn : Dictionary.get? k (now.access a).elements = some n)
    (registered : (now.access a).builder = b →
      Dictionary.get? (now.node n).id (before.builder b).nodes = some n) :
    Dictionary.get? k ((before.rollBack b now).access a).elements = some n := by
  have hb' := Nat.lt_of_lt_of_le hb g.builders
  rw [access_rollBack hb' (Nat.lt_of_lt_of_le (wf.root_lt hb) g.builders)]
  split
  · rename_i own
    exact Dictionary.get?_filter hn
      (decide_eq_true (registered (wfnow.builder_of_mem_values hb' own)))
  · exact hn

theorem KeepsElements.rollBack (h : before.KeepsElements now) (appends : before.Appends now)
    (hb : b.index < before.builders.size) : before.KeepsElements (before.rollBack b now) := by
  intro a ha k n hn
  have g := appends.grows
  refine element_rollBack appends.start g appends.wellFormed hb (h a ha k n hn) fun own => ?_
  have is := (appends.start.access a ha).elements k n (Dictionary.mem_of_get? hn)
  rw [(g.node n is.within).id, ← own, (g.access a ha).2]
  exact is.registered

theorem accesses_createBuilder (processes id : Value) (settings : Option Settings)
    (parent : Option BuilderRef) (env : Environment) (ws : Workspace) :
    ((Build.createBuilder processes id settings parent env).run ws).2.accesses = ws.accesses := by
  have catalog : ((Build.catalogFor processes).run ws).2.accesses = ws.accesses := by
    unfold Build.catalogFor
    split
    · rfl
    · rcases Catalog.ofValue processes with ⟨result, records⟩
      cases result <;> rfl
  rw [Build.createBuilder_eq, run_bind_state]
  rcases run : (Build.catalogFor processes).run ws with ⟨e | r, now⟩ <;> rw [run] at catalog
  · exact catalog
  · dsimp only
    rw [Build.run_get_bind]
    split
    · exact catalog
    · have same : ((Build.settingsFor now env settings parent).run now).2 = now := by
        unfold Build.settingsFor
        split <;> rfl
      rw [run_bind_state]
      rcases run' : (Build.settingsFor now env settings parent).run now with ⟨e | s, now'⟩ <;>
        rw [run'] at same <;> cases same <;> exact catalog

theorem PlainOperation.keepsElements (wf : ws.WellFormed) (op : ws.PlainOperation now) :
    ws.KeepsElements now := by
  have ext := wf.extends (fun _ => True) fun _ => True
  have opened {b : BuilderRef} (hb : b.index < ws.builders.size) :
      Open (fun _ => True) (fun _ => True) ws ws b := ⟨hb, .inl trivial, .inl trivial⟩
  cases op with
  | createBuilder processes id settings parent env _ =>
    exact .of_accesses_eq (accesses_createBuilder processes id settings parent env ws)
  | callbackParameter hb name => exact (Build.ensures_callbackParameter ext hb name).1.keepsElements
  | parentParameters hb => exact (Build.ensures_parentParameters ext hb).1.keepsElements
  | addParameter hb declaration onRoot =>
    exact (Build.ensures_addParameter ext hb declaration onRoot (.inl trivial)).1.keepsElements
  | generateId hb name => exact (Build.ensures_generateId ext (opened hb) name).1.keepsElements
  | invoke hb process hv description space =>
    exact (Build.ensures_invoke ext (opened hb) process hv description space).1.keepsElements
  | shortcut hb process spec hv hnamed =>
    exact (Build.ensures_callShortcut ext (opened hb) process spec hv hnamed).1.keepsElements
  | addOperator hb op hl hr =>
    exact (Build.ensures_addOperator ext (opened hb) op hl hr).1.keepsElements
  | createFormula text => exact (Build.ensures_createFormula ext text).1.keepsElements
  | catalogs | callbackNames | records | createChild | setParent | setMetadata | newParameter
  | setFormulaBuilder | setResult | setDescription | setCallbackBuilder => exact .of_accesses_eq rfl

section
variable (wf : ws.WellFormed) {a : AccessRef} (ha : a.index < ws.accesses.size)
include wf ha

theorem open_of_access :
    Open (fun _ => True) (fun _ => True) ws ws (ws.access a).builder :=
  ⟨(wf.access a ha).builder, .inl trivial, .inl trivial⟩

theorem keepsElements_elementAt {key : Value} {result : Except Failure NodeRef}
    (run : (Build.elementAt a key).run ws = (result, now)) : ws.KeepsElements now := by
  have kept := (Build.ensures_elementAt (wf.extends (fun _ => True) fun _ => True) ha
    (open_of_access wf ha) key).1.keepsElements
  rwa [run] at kept

end

theorem History.appends (h : ws.History made now) (wf : ws.WellFormed) : ws.Appends now :=
  h.steps.appends wf

theorem History.keepsElements (h : ws.History made now) (wf : ws.WellFormed) :
    ws.KeepsElements now := by
  induction h with
  | refl ws => exact .refl ws
  | plain h op ih =>
    have appends := h.appends wf
    exact (ih wf).trans appends.grows (op.keepsElements appends.wellFormed)
  | access h ha _ run ih =>
    have appends := h.appends wf
    exact (ih wf).trans appends.grows (keepsElements_elementAt appends.wellFormed ha run)
  | failedAccess h ha run ih =>
    have appends := h.appends wf
    exact (ih wf).trans appends.grows (keepsElements_elementAt appends.wellFormed ha run)
  | undone h h' hb ih ih' =>
    have appends := h.appends wf
    exact (ih wf).trans appends.grows
      ((ih' appends.wellFormed).rollBack (h'.appends appends.wellFormed) hb)

/-! ## Accesses -/

theorem run_element_of_known {a : AccessRef} {k : ElementKey} {n : NodeRef}
    (hn : Dictionary.get? k (ws.access a).elements = some n) :
    (Build.element a k).run ws = (.ok n, ws) := by
  unfold Build.element
  rw [Build.run_get_bind]
  dsimp only
  rw [hn]
  rfl

section
variable (wf : ws.WellFormed) {a : AccessRef} (ha : a.index < ws.accesses.size)
include wf ha

/-- The callback parameter remembers the node that an access has given. -/
theorem remembered_of_element {k : ElementKey} {n : NodeRef}
    (run : (Build.element a k).run ws = (.ok n, now)) :
    Dictionary.get? k (now.access a).elements = some n := by
  obtain ⟨-, g, -⟩ := (Build.ensures_element (wf.extends (fun _ => True) fun _ => True) ha
    (open_of_access wf ha) k).of_run run
  cases hk : Dictionary.get? k (ws.access a).elements with
  | some m =>
    rw [run_element_of_known hk] at run
    cases run
    exact hk
  | none =>
    obtain ⟨w₁, r, -, rfl⟩ := element_eq_invoke hk run
    have ha₁ : a.index < w₁.accesses.size := by
      have size := g.accesses
      simp only [addRecord, remember, modifyAccess, Arena.size_modify] at size
      exact Nat.lt_of_lt_of_le ha size
    show Dictionary.get? k ((w₁.modifyAccess a _).access a).elements = some n
    rw [access_modifyAccess, if_pos ⟨rfl, ha₁⟩]
    exact Dictionary.get?_insert_self ..

/-- What an access gives: a registered node for the element, which is remembered. -/
theorem elementAt_eq_ok {key : Value} {n : NodeRef}
    (run : (Build.elementAt a key).run ws = (.ok n, now)) :
    ∃ k, ElementKey.ofValue ws.objectName key = .ok k ∧ now.IsElement (now.access a) k n ∧
      Dictionary.get? k (now.access a).elements = some n := by
  obtain ⟨ext, g, k, hk, -⟩ := (Build.ensures_elementAt (wf.extends (fun _ => True) fun _ => True)
    ha (open_of_access wf ha) key).of_run run
  have remembered : Dictionary.get? k (now.access a).elements = some n := by
    obtain ⟨k', hk', run⟩ := elementAt_eq_element run
    obtain rfl := Except.ok.inj (hk'.symm.trans hk)
    exact remembered_of_element wf ha run
  have ok := ext.wellFormed.access a (Nat.lt_of_lt_of_le ha g.accesses)
  exact ⟨k, hk, ok.elements k n (Dictionary.mem_of_get? remembered), remembered⟩

end

/-! ## Nodes that are remembered -/

/-- The callback parameters remember the nodes of all accesses, as long as they are registered. -/
structure Recalls (ws : Workspace) (e : ElementAccess) : Prop where
  access : e.access.index < ws.accesses.size
  node : e.node.index < ws.nodes.size
  remembered : ws.Registers e → Dictionary.get? e.key (ws.access e.access).elements = some e.node

theorem Registers.earlier {e : ElementAccess} (h : now.Registers e) (appends : ws.Appends now)
    (r : ws.Recalls e) : ws.Registers e := by
  have g := appends.grows
  have wf := appends.start
  unfold Registers at *
  rw [(g.node e.node r.node).id, (g.access e.access r.access).2] at h
  exact (appends.nodes _ (wf.access e.access r.access).builder).get?_old h (Nat.not_le.2 r.node)

theorem Registers.later {e : ElementAccess} (h : ws.Registers e) (appends : ws.Appends now)
    (r : ws.Recalls e) : now.Registers e := by
  have g := appends.grows
  unfold Registers at *
  rw [(g.node e.node r.node).id, (g.access e.access r.access).2]
  exact (appends.nodes _ (appends.start.access e.access r.access).builder).get? h

theorem Recalls.grow {e : ElementAccess} (r : ws.Recalls e) (appends : ws.Appends now)
    (keeps : ws.KeepsElements now) : now.Recalls e where
  access := Nat.lt_of_lt_of_le r.access appends.grows.accesses
  node := Nat.lt_of_lt_of_le r.node appends.grows.nodes
  remembered h := keeps e.access r.access _ _ (r.remembered (h.earlier appends r))

/-- When a block is undone, the nodes that are registered afterwards are still remembered. -/
theorem Recalls.rollBack {e : ElementAccess} (r : now.Recalls e) (appends : before.Appends now)
    (hb : b.index < before.builders.size) : (before.rollBack b now).Recalls e where
  access := by
    rw [size_accesses_rollBack]
    exact r.access
  node := by
    rw [nodes_rollBack]
    exact r.node
  remembered h := by
    have g := appends.grows
    have same := (grows_rollBack appends.start g hb).access e.access r.access
    unfold Registers at h
    rw [node_rollBack, same.2, appends.nodes_rollBack hb] at h
    have registered : now.Registers e := by
      unfold Registers
      split at h
      · rename_i own
        rw [own]
        exact (appends.nodes b hb).get? h
      · exact h
    refine element_rollBack appends.start g appends.wellFormed hb (r.remembered registered)
      fun own => ?_
    rwa [if_pos own] at h

theorem History.recalls (h : ws.History made now) (wf : ws.WellFormed) :
    ∀ e ∈ made, now.Recalls e := by
  induction h with
  | refl => exact nofun
  | plain h op ih =>
    have wf₁ := (h.appends wf).wellFormed
    exact fun e he => (ih wf e he).grow (op.operation.appends wf₁) (op.keepsElements wf₁)
  | @access _ now after made h a ha key k hk n run ih =>
    have wf₁ := (h.appends wf).wellFormed
    have step := (History.access (.refl now) ha hk run).appends wf₁
    obtain ⟨k', hk', is, remembered⟩ := elementAt_eq_ok wf₁ ha run
    obtain rfl : k' = k := Except.ok.inj (hk'.symm.trans hk)
    intro e he
    rcases List.mem_append.1 he with he | he
    · exact (ih wf e he).grow step (keepsElements_elementAt wf₁ ha run)
    · cases List.mem_singleton.1 he
      exact ⟨Nat.lt_of_lt_of_le ha step.grows.accesses, is.within, fun _ => remembered⟩
  | failedAccess h ha run ih =>
    have wf₁ := (h.appends wf).wellFormed
    have step := (History.failedAccess (.refl _) ha run).appends wf₁
    exact fun e he => (ih wf e he).grow step (keepsElements_elementAt wf₁ ha run)
  | undone h h' hb ih ih' =>
    have wf₁ := (h.appends wf).wellFormed
    have appends := h'.appends wf₁
    intro e he
    refine Recalls.rollBack ?_ appends hb
    rcases List.mem_append.1 he with he | he
    · exact (ih wf e he).grow appends (h'.keepsElements wf₁)
    · exact ih' wf₁ e he

/-! ## References in formulas -/

theorem startsWithDollar_of_element {name : String} {available depth : Nat} {key : String}
    (h : Reference.ofName name available = .element depth key) :
    Build.startsWithDollar name = true := by
  unfold Reference.ofName at h
  split at h
  · cases h
  · unfold Build.startsWithDollar
    split at h
    · cases h
    · rename_i _ _ cs hcs
      rw [hcs]
      rfl
    · cases h

/-- A `$` identifier accesses an element of the callback parameter that its dollars count. -/
theorem History.reference (h : ws.History made now) (wf : ws.WellFormed)
    (hb : b.index < now.builders.size) {names : List Value} (hnames : now.parentNames b = .ok names)
    {name key : String} {depth : Nat}
    (href : Reference.ofName name names.length = .element depth key) {v : Value}
    (run : (Build.resolve b name).run now = (.ok v, after)) :
    ∃ parameter a k n, v = .node n ∧ names[depth - 1]? = some parameter ∧
      ElementKey.ofText key = .ok k ∧ after.IsCallbackParameter b parameter a ∧
      after.IsElement (after.access a) k n ∧ ws.History (made ++ [⟨a, k, n⟩]) after := by
  have wf₁ := (h.appends wf).wellFormed
  rw [Build.resolve_eq] at run
  obtain ⟨accesses, w₁, found, run⟩ := run_bind_eq_ok run
  unfold Build.accessesFor at found
  rw [if_pos (startsWithDollar_of_element href)] at found
  have h₁ := h.plain (.parentParameters hb)
  rw [found] at h₁
  obtain ⟨ext, g, -, names', hnames', has⟩ :=
    (Build.ensures_parentParameters (wf₁.extends (fun _ => True) fun _ => True) hb).of_run found
  obtain rfl : names' = names := Except.ok.inj (hnames'.symm.trans hnames)
  unfold Build.resolveWith at run
  rw [← has.length_eq, href] at run
  dsimp only at run
  split at run
  · cases run
  split at run
  · rename_i a ha
    obtain ⟨n, w₂, accessed, run⟩ := run_bind_eq_ok run
    cases run
    obtain ⟨hlt, hget⟩ := List.getElem?_eq_some_iff.1 ha
    have hlt' : depth - 1 < names'.length := has.length_eq.symm ▸ hlt
    have is : w₁.IsCallbackParameter b names'[depth - 1] a := hget ▸ has.get hlt' hlt
    obtain ⟨k, hk, element, -⟩ := elementAt_eq_ok ext.wellFormed is.within accessed
    have h₂ := h₁.access is.within hk accessed
    have step := ((History.refl w₁).access is.within hk accessed).appends ext.wellFormed
    exact ⟨names'[depth - 1], a, k, n, rfl, List.getElem?_eq_getElem hlt', hk,
      is.grow ext.wellFormed step.grows, element, h₂⟩
  · cases run

/-! ## Sharing -/

/-- A builder has one callback parameter of a name. -/
theorem WellFormed.access_eq_of_name (wf : ws.WellFormed) {a c : AccessRef}
    (ha : a.index < ws.accesses.size) (hc : c.index < ws.accesses.size)
    (builder : (ws.access a).builder = (ws.access c).builder)
    (name : (ws.accessParameter a).name = (ws.accessParameter c).name) : a = c := by
  obtain ⟨k, hk⟩ := (wf.access a ha).listed
  obtain ⟨k', hk'⟩ := (wf.access c hc).listed
  have ok := (wf.builder _ (wf.access a ha).builder).callbackParameters
  obtain ⟨-, -, -, pa⟩ := ok k a (Dictionary.mem_of_get? hk)
  rw [← builder] at hk'
  obtain ⟨-, -, -, pc⟩ := ok k' c (Dictionary.mem_of_get? hk')
  rw [pa, pc] at name
  obtain rfl : k = k' := Scalar.toValue_injective name
  exact Option.some.inj (hk.symm.trans hk')

/-- Elements are shared in a workspace with a history of accesses. -/
structure SharesElements (made : List ElementAccess) (now : Workspace) : Prop where
  /-- An access gives a registered node for the parameter and the key. -/
  access : ∀ {a : AccessRef} {key : Value} {n : NodeRef} {after : Workspace},
    a.index < now.accesses.size → (Build.elementAt a key).run now = (.ok n, after) →
    ∃ k, ElementKey.ofValue now.objectName key = .ok k ∧ after.IsElement (after.access a) k n ∧
      ({} : Workspace).History (made ++ [⟨a, k, n⟩]) after
  /-- So does a `$` identifier in a formula. -/
  reference : ∀ {b : BuilderRef} {names : List Value} {name key : String} {depth : Nat} {v : Value}
    {after : Workspace}, b.index < now.builders.size → now.parentNames b = .ok names →
    Reference.ofName name names.length = .element depth key →
    (Build.resolve b name).run now = (.ok v, after) →
    ∃ parameter a k n, v = .node n ∧ names[depth - 1]? = some parameter ∧
      ElementKey.ofText key = .ok k ∧ after.IsCallbackParameter b parameter a ∧
      after.IsElement (after.access a) k n ∧
      ({} : Workspace).History (made ++ [⟨a, k, n⟩]) after
  /-- Until an enclosing block is undone, a node stays registered, and accesses give it again. -/
  again : ∀ e ∈ made, now.Registers e → ∀ after, now.Steps after → after.Registers e ∧
    ∀ key, ElementKey.ofValue after.objectName key = .ok e.key →
      (Build.elementAt e.access key).run after = (.ok e.node, after)
  /-- There is one registered node at most for a parameter name and a key. -/
  unique : ∀ e ∈ made, ∀ e' ∈ made, now.Registers e → now.Registers e' →
    (now.access e.access).builder = (now.access e'.access).builder →
    (now.accessParameter e.access).name = (now.accessParameter e'.access).name →
    e.key = e'.key → e.node = e'.node
  /-- Whatever is done next has a history, too. -/
  continues : ∀ after, now.Steps after →
    ∃ more, ({} : Workspace).History (made ++ more) after

/-- Element accesses give registered nodes for their elements, the same ones for the same elements
as long as no undone block has taken them away. -/
theorem elements_shared (history : ({} : Workspace).History made now) :
    SharesElements made now := by
  have wf := (history.appends .ofEmpty).wellFormed
  have recalls := history.recalls .ofEmpty
  refine ⟨fun ha run => ?_, fun hb hnames href run => ?_, fun e he registered after steps => ?_,
    fun e he e' he' r r' builder name key => ?_, fun after steps => ?_⟩
  · obtain ⟨k, hk, element, -⟩ := elementAt_eq_ok wf ha run
    exact ⟨k, hk, element, history.access ha hk run⟩
  · exact history.reference .ofEmpty hb hnames href run
  · -- The element is found before a node is made, so that the second access changes nothing.
    obtain ⟨more, further⟩ := steps.history wf
    have appends := further.appends wf
    have still := registered.later appends (recalls e he)
    have known := (recalls e he).grow appends (further.keepsElements wf)
    refine ⟨still, fun key hk => ?_⟩
    unfold Build.elementAt
    rw [Build.run_get_bind, hk]
    exact run_element_of_known (known.remembered still)
  · have same := wf.access_eq_of_name (recalls e he).access (recalls e' he').access builder name
    have first := (recalls e he).remembered r
    rw [same, key, (recalls e' he').remembered r'] at first
    exact (Option.some.inj first).symm
  · obtain ⟨more, further⟩ := steps.history wf
    exact ⟨more, history.trans further⟩

/-- The builder of a callback that is passed `x`. -/
def elements : Workspace :=
  let ws := ((Build.createBuilder (.list [binaryProcess "add", binaryProcess "array_element",
    callbackProcess "apply"]) .null none none []).run {}).2
  let ws := ((Build.invoke ⟨0⟩ "apply" (.list [.int 1, .int 2])).run ws).2
  let ws := ((Build.createChild ⟨0⟩ ⟨0⟩ (.str "process")).run ws).2
  ((Build.parentParameters ⟨1⟩).run ws).2

theorem reachable_elements : elements.Reachable := by
  have numbers (ws : Workspace) : (Value.list [.int 1, .int 2]).Within ws := nofun
  exact .operation (.operation (.operation (.operation (.refl _)
    (.createBuilder _ _ none none [] nofun))
    (.invoke (by decide +kernel) "apply" (numbers _) .null none))
    (.createChild (by decide +kernel) (by decide +kernel) _))
    (.parentParameters (by decide +kernel))

/-- Its first element has been accessed. -/
def elementAccessed : Workspace := ((Build.elementAt ⟨0⟩ (.int 0)).run elements).2

/-- A block with a formula on two of its elements has been undone. -/
def elementKept : Workspace :=
  elementAccessed.rollBack ⟨1⟩ ((Build.compile ⟨1⟩ "$0 + $1" false).run elementAccessed).2

theorem elements_shared_formula : ∃ made, ({} : Workspace).History made elementKept ∧
    ⟨⟨0⟩, .index 0, ⟨1⟩⟩ ∈ made ∧ elementKept.Registers ⟨⟨0⟩, .index 0, ⟨1⟩⟩ ∧
    (Build.elementAt ⟨0⟩ (.str "0")).run elementKept = (.ok ⟨1⟩, elementKept) := by
  have numbers (ws : Workspace) : (Value.list [.int 1, .int 2]).Within ws := nofun
  have start : ({} : Workspace).History [] elements :=
    .plain (.plain (.plain (.plain (.refl _) (.createBuilder _ _ none none [] nofun))
      (.invoke (by decide +kernel) "apply" (numbers _) .null none))
      (.createChild (by decide +kernel) (by decide +kernel) _))
      (.parentParameters (by decide +kernel))
  have ha : (⟨0⟩ : AccessRef).index < elements.accesses.size := by decide +kernel
  have given : ((Build.elementAt ⟨0⟩ (.int 0)).run elements).1.toOption = some ⟨1⟩ := by
    decide +kernel
  have accessed : ({} : Workspace).History [⟨⟨0⟩, .index 0, ⟨1⟩⟩] elementAccessed := by
    rcases run : (Build.elementAt ⟨0⟩ (.int 0)).run elements with ⟨e | n, after⟩
    · rw [run] at given
      cases given
    · rw [run] at given
      cases given
      have hk : ElementKey.ofValue elements.objectName (.int 0) = .ok (.index 0) := rfl
      have h := start.access ha hk run
      unfold elementAccessed
      rwa [run]
  have hb : (⟨1⟩ : BuilderRef).index < elementAccessed.builders.size := by decide +kernel
  obtain ⟨more, formula⟩ := (Operation.compile hb "$0 + $1" false).history
    (accessed.appends .ofEmpty).wellFormed
  have history := accessed.undone formula hb
  have registered : elementKept.Registers ⟨⟨0⟩, .index 0, ⟨1⟩⟩ := by
    unfold Registers
    decide +kernel
  have shares := elements_shared history
  exact ⟨_, history, List.mem_cons_self, registered,
    (shares.again _ List.mem_cons_self registered _ (.refl _)).2 (.str "0") (by decide +kernel)⟩

end Workspace

end ProcessGraph
