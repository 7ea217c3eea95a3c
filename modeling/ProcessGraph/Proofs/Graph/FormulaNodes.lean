import ProcessGraph.Proofs.Graph.FormulaDeclarations
import ProcessGraph.Proofs.Graph.Frames
import ProcessGraph.Proofs.Graph.RememberedBuilders
import ProcessGraph.Proofs.Graph.SharedElements

/-!
# The nodes of a formula

What a formula adds to a builder can be read off its tree (`Formula.Tree.additions`), operands
first, from left to right: a node for each operator and each call, a product for each minus in front
of something that is not a number, and a node for each element of a callback parameter that is
accessed for the first time. The induction over the tree is about a workspace that has come from an
earlier one by such additions (`Workspace.AddsNodes`).

Main statement: a formula leaves all nodes as they are and adds exactly these, each of which refers
to nodes before it only (`math_addsNodes`).
-/

set_option autoImplicit false

namespace ProcessGraph

/-! ## Additions -/

/-- What is added to a builder for a part of a formula. -/
inductive Addition where
  | operator (op : String)
  /-- The product with -1 for a minus. -/
  | negation
  | call (process : String) (arguments : Nat)
  | element (parameter : Scalar) (key : ElementKey)
deriving DecidableEq

/-- The elements among additions. -/
def Addition.elements (as : List Addition) : List (Scalar × ElementKey) :=
  as.filterMap fun
    | .element parameter key => some (parameter, key)
    | _ => none

/-- The element that an identifier stands for, given the names of the callback parameters. -/
def Reference.element? (passed : List Value) : Reference → Option (Scalar × ElementKey)
  | .element depth text => do
    let name ← passed[depth - 1]?
    let parameter ← name.key?
    let key ← (ElementKey.ofText text).toOption
    return (parameter, key)
  | _ => none

namespace Formula.Tree

variable (passed : List Value)

mutual

/-- What a formula adds to a builder that is passed callback parameters, some elements of which have
been accessed. -/
def additions : List (Scalar × ElementKey) → Tree → List Addition
  | _, .number _ => []
  | accessed, .identifier name =>
    match (Reference.ofName name passed.length).element? passed with
    | some e => if e ∈ accessed then [] else [.element e.1 e.2]
    | none => []
  | accessed, .binary op left right =>
    let first := additions accessed left
    first ++ additions (accessed ++ Addition.elements first) right ++ [.operator op]
  | accessed, .unary op operand =>
    additions accessed operand ++ if op = "-" ∧ operand.number? = none then [.negation] else []
  | accessed, .call name arguments =>
    additionsOfAll accessed arguments ++ [.call name arguments.length]
  | accessed, .group inner => additions accessed inner

def additionsOfAll : List (Scalar × ElementKey) → List Tree → List Addition
  | _, [] => []
  | accessed, t :: ts =>
    let first := additions accessed t
    first ++ additionsOfAll (accessed ++ Addition.elements first) ts

end

end Formula.Tree

/-- The node calls the process of an operator for two operands. -/
structure Node.Operates (node : Node) (op : String) (left right : Value) : Prop where
  process : Dictionary.get? op operatorProcesses = some node.process
  space : node.space = none
  arguments : operatorArguments op node.specification left right = .ok node.arguments

/-- The node is what was to be added. -/
def Addition.Describes (ws : Workspace) (node : Node) : Addition → Prop
  | .operator op => ∃ left right, node.Operates op left right
  | .negation => ∃ operand : Value, operand.number? = none ∧ node.Operates "*" (.int (-1)) operand
  | .call process count => (node.process, node.space) = splitProcessId process ∧
      ∃ vs, vs.length = count ∧ node.specification.bind vs = .ok node.arguments
  | .element parameter key =>
      (node.process, node.space) =
        splitProcessId (ws.builder node.builder).settings.arrayElementProcess ∧
      ∃ r, r.index < ws.parameters.size ∧ ws.parameter r = .ofCallback parameter.toValue ∧
        node.arguments = [(.str "data", .parameter r), (.str key.argument, key.toValue)]

namespace Workspace

/-- The elements that have been accessed in a builder: each with the name of its callback parameter
and its key. -/
def accessed (ws : Workspace) (b : BuilderRef) : List (Scalar × ElementKey) :=
  (ws.builder b).callbackParameters.flatMap fun p =>
    (ws.access p.2).elements.keys.map fun key => (p.1, key)

end Workspace

/-- All nodes in the value are registered with the builder. -/
def Value.RegisteredIn (ws : Workspace) (b : BuilderRef) (v : Value) : Prop :=
  ∀ n, Ref.node n ∈ v.refs → n ∈ (ws.builder b).nodes.values

/-- The node is what was to be added, and refers to registered nodes only. -/
structure Addition.IsMade (ws : Workspace) (b : BuilderRef) (a : Addition)
    (p : String × NodeRef) : Prop where
  within : p.2.index < ws.nodes.size
  describes : a.Describes ws (ws.node p.2)
  refers : (Value.dict (ws.node p.2).arguments).RegisteredIn ws b

/-- The workspace has come from `ws` by additions to a builder, with a node for each of them. -/
structure Workspace.AddsNodes (b : BuilderRef) (ws : Workspace) (as : List Addition)
    (now : Workspace) : Prop extends ws.Appends now where
  names : now.parentNames b = ws.parentNames b
  added : ∃ added, (now.builder b).nodes = (ws.builder b).nodes ++ added ∧
    List.Forall₂ (Addition.IsMade now b) as added
  accessed : ∀ e, e ∈ now.accessed b ↔ e ∈ ws.accessed b ∨ e ∈ Addition.elements as

/-! ## What lasts -/

section
variable {ws now : Workspace} {b : BuilderRef}

theorem Addition.Describes.grow {a : Addition} {n : NodeRef} (h : a.Describes ws (ws.node n))
    (wf : ws.WellFormed) (g : ws.Grows now) (hn : n.index < ws.nodes.size) :
    a.Describes now (now.node n) := by
  have same := g.node n hn
  have operates {op : String} {left right : Value} (h : (ws.node n).Operates op left right) :
      (now.node n).Operates op left right := by
    refine ⟨?_, same.space.trans h.space, ?_⟩
    · rw [same.process]
      exact h.process
    · rw [same.specification, same.arguments]
      exact h.arguments
  cases a with
  | operator op =>
    obtain ⟨left, right, h⟩ := h
    exact ⟨left, right, operates h⟩
  | negation =>
    obtain ⟨operand, none, h⟩ := h
    exact ⟨operand, none, operates h⟩
  | call process count =>
    obtain ⟨key, vs, length, bound⟩ := h
    refine ⟨?_, vs, length, ?_⟩
    · rw [same.process, same.space]
      exact key
    · rw [same.specification, same.arguments]
      exact bound
  | element parameter key =>
    obtain ⟨process, r, hr, is, arguments⟩ := h
    refine ⟨?_, r, Nat.lt_of_lt_of_le hr g.parameters, (g.parameter r hr).trans is,
      same.arguments.trans arguments⟩
    rw [same.process, same.space, same.builder, (g.builder _ (wf.node n hn).owner).2.1]
    exact process

theorem Value.RegisteredIn.grow {v : Value} (h : v.RegisteredIn ws b)
    {fresh : NodeRef → Prop} (more : (ws.builder b).nodes.GrowsBy fresh (now.builder b).nodes) :
    v.RegisteredIn now b := by
  obtain ⟨added, e, -⟩ := more
  intro n hn
  unfold Dictionary.values
  rw [e, List.map_append]
  exact List.mem_append_left _ (h n hn)

theorem Value.registeredIn_of_refs_eq_nil {v : Value} (h : v.refs = []) : v.RegisteredIn ws b := by
  intro n hn
  rw [h] at hn
  cases hn

theorem Value.registeredIn_node {id : String} {n : NodeRef}
    (h : Dictionary.get? id (ws.builder b).nodes = some n) : (Value.node n).RegisteredIn ws b := by
  intro m hm
  cases List.mem_singleton.1 hm
  exact List.mem_map_of_mem (f := Prod.snd) (Dictionary.mem_of_get? h)

theorem Value.registeredIn_list {vs : List Value} (h : ∀ v ∈ vs, v.RegisteredIn ws b) :
    (Value.list vs).RegisteredIn ws b := by
  intro n hn
  obtain ⟨v, hv, hn⟩ := Value.mem_refs_list.1 hn
  exact h v hv n hn

theorem Value.registeredIn_dict {d : Value.Entries} (h : ∀ p ∈ d, p.2.RegisteredIn ws b) :
    (Value.dict d).RegisteredIn ws b := by
  intro n hn
  obtain ⟨p, hp, hn⟩ := Value.mem_refs_dict.1 hn
  exact h p hp n hn

/-- The element is one of a callback parameter that the builder has. -/
theorem Workspace.mem_accessed {parameter : Scalar} {key : ElementKey} :
    (parameter, key) ∈ ws.accessed b ↔
      ∃ a, (parameter, a) ∈ (ws.builder b).callbackParameters ∧
        key ∈ (ws.access a).elements.keys := by
  simp only [Workspace.accessed, List.mem_flatMap, List.mem_map, Prod.mk.injEq, Prod.exists]
  constructor
  · rintro ⟨k, a, ha, key', hkey, rfl, rfl⟩
    exact ⟨a, ha, hkey⟩
  · rintro ⟨a, ha, hkey⟩
    exact ⟨parameter, a, ha, key, hkey, rfl, rfl⟩

/-- New callback parameters have no elements. -/
theorem Workspace.Continues.accessed_iff (c : ws.Continues now) (hb : b.index < ws.builders.size)
    (same : ws.SameElements now) (e : Scalar × ElementKey) :
    e ∈ now.accessed b ↔ e ∈ ws.accessed b := by
  obtain ⟨parameter, key⟩ := e
  have grows := (c.kept.content b hb).callbackParameters
  simp only [Workspace.mem_accessed]
  constructor
  · rintro ⟨a, ha, hkey⟩
    rw [same a] at hkey
    refine ⟨a, (grows.mem ha).resolve_right fun new => ?_, hkey⟩
    unfold Workspace.access at hkey
    rw [Arena.get_of_size_le new] at hkey
    cases hkey
  · rintro ⟨a, ha, hkey⟩
    obtain ⟨more, e, -⟩ := grows
    exact ⟨a, e ▸ List.mem_append_left _ ha, (same a).symm ▸ hkey⟩

end

/-! ## Steps of a formula -/

theorem Addition.elements_append (as more : List Addition) :
    elements (as ++ more) = elements as ++ elements more := List.filterMap_append

theorem Addition.IsMade.grow {ws now : Workspace} {b : BuilderRef} {a : Addition}
    {p : String × NodeRef} (h : a.IsMade ws b p) (more : ws.Appends now)
    (hb : b.index < ws.builders.size) : a.IsMade now b p where
  within := Nat.lt_of_lt_of_le h.within more.grows.nodes
  describes := h.describes.grow more.start more.grows h.within
  refers := by
    rw [(more.grows.node p.2 h.within).arguments]
    exact h.refers.grow (more.nodes b hb)

namespace Workspace

variable {ws now after : Workspace} {b : BuilderRef} {as more : List Addition}

theorem WellFormed.addsNothing (h : ws.WellFormed) (b : BuilderRef) : AddsNodes b ws [] ws :=
  { h.appends with
    names := rfl
    added := ⟨[], (List.append_nil _).symm, .nil⟩
    accessed := fun e => by simp [Addition.elements] }

section
variable (h : ws.WellFormed) (hb : b.index < ws.builders.size) {a : AccessRef}
include h hb

/-- A builder has its callback parameters under their names. -/
theorem WellFormed.exists_eq_toValue {name : Value} (is : ws.IsCallbackParameter b name a) :
    ∃ parameter : Scalar, name = parameter.toValue ∧
      (parameter, a) ∈ (ws.builder b).callbackParameters := by
  obtain ⟨k, hk⟩ := (h.access a is.within).listed
  rw [is.builder] at hk
  have hm := Dictionary.mem_of_get? hk
  obtain ⟨-, -, -, same⟩ := (h.builder b hb).callbackParameters k a hm
  exact ⟨k, congrArg Parameter.name (is.parameter.symm.trans same), hm⟩

variable {parameter : Scalar} {key : ElementKey}
  (is : ws.IsCallbackParameter b parameter.toValue a)
include is

theorem WellFormed.mem_callbackParameters :
    (parameter, a) ∈ (ws.builder b).callbackParameters := by
  obtain ⟨k, same, hm⟩ := h.exists_eq_toValue hb is
  rwa [Scalar.toValue_injective same]

/-- A name stands for one callback parameter. -/
theorem WellFormed.eq_of_mem_callbackParameters {c : AccessRef}
    (hc : (parameter, c) ∈ (ws.builder b).callbackParameters) : c = a := by
  obtain ⟨hlt, own, -, same⟩ := (h.builder b hb).callbackParameters parameter c hc
  exact h.access_eq_of_name hlt is.within (own.trans is.builder.symm)
    (congrArg Parameter.name (same.trans is.parameter.symm))

theorem WellFormed.mem_accessed_iff :
    (parameter, key) ∈ ws.accessed b ↔ key ∈ (ws.access a).elements.keys := by
  rw [mem_accessed]
  constructor
  · rintro ⟨c, hc, hkey⟩
    rwa [h.eq_of_mem_callbackParameters hb is hc] at hkey
  · exact fun hkey => ⟨a, h.mem_callbackParameters hb is, hkey⟩

theorem WellFormed.accessed_remember (n : NodeRef) (e : Scalar × ElementKey) :
    e ∈ (ws.remember a key n).accessed b ↔ e ∈ ws.accessed b ∨ e = (parameter, key) := by
  obtain ⟨k, key'⟩ := e
  simp only [mem_accessed, remember, access_modifyAccess]
  constructor
  · rintro ⟨c, hc, hkey⟩
    split at hkey
    · rename_i own
      obtain ⟨rfl, -⟩ := own
      obtain ⟨-, -, -, same⟩ := (h.builder b hb).callbackParameters k c hc
      rw [is.parameter] at same
      obtain rfl := Scalar.toValue_injective (congrArg Parameter.name same)
      rcases Dictionary.mem_keys_insert.1 hkey with rfl | old
      · exact .inr rfl
      · exact .inl ⟨c, hc, old⟩
    · exact .inl ⟨c, hc, hkey⟩
  · rintro (⟨c, hc, hkey⟩ | e)
    · refine ⟨c, hc, ?_⟩
      split
      · exact Dictionary.mem_keys_insert.2 (.inr hkey)
      · exact hkey
    · cases e
      refine ⟨a, h.mem_callbackParameters hb is, ?_⟩
      rw [if_pos ⟨rfl, is.within⟩]
      exact Dictionary.mem_keys_insert.2 (.inl rfl)

end

namespace AddsNodes

theorem trans (h : AddsNodes b ws as now) (h' : AddsNodes b now more after)
    (hb : b.index < ws.builders.size) : AddsNodes b ws (as ++ more) after := by
  refine { h.toAppends.trans h'.toAppends with
    names := h'.names.trans h.names
    added := ?_
    accessed := fun e => ?_ }
  · obtain ⟨first, e, made⟩ := h.added
    obtain ⟨second, e', made'⟩ := h'.added
    refine ⟨first ++ second, by rw [e', e, List.append_assoc], List.rel_append ?_ made'⟩
    exact made.imp fun _ _ is => is.grow h'.toAppends (Nat.lt_of_lt_of_le hb h.grows.builders)
  · rw [h'.accessed, h.accessed, Addition.elements_append, List.mem_append, or_assoc]

/-- Steps that register no nodes and access no elements. -/
theorem quiet (c : ws.Continues now) (hb : b.index < ws.builders.size)
    (nodes : (now.builder b).nodes = (ws.builder b).nodes) (same : ws.SameElements now) :
    AddsNodes b ws [] now :=
  { c.appends with
    names := c.kept.parentNames c.start hb
    added := ⟨[], by rw [nodes, List.append_nil], .nil⟩
    accessed := fun e => by simp [Addition.elements, c.accessed_iff hb same e] }

/-- Steps that register one node. -/
theorem one {a : Addition} {id : String} {n : NodeRef} (c : ws.Continues now)
    (hb : b.index < ws.builders.size)
    (nodes : (now.builder b).nodes = (ws.builder b).nodes ++ [(id, n)])
    (hn : n.index < now.nodes.size) (describes : a.Describes now (now.node n))
    (refers : (Value.dict (now.node n).arguments).RegisteredIn ws b)
    (accessed : ∀ e, e ∈ now.accessed b ↔ e ∈ ws.accessed b ∨ e ∈ Addition.elements [a]) :
    AddsNodes b ws [a] now :=
  { c.appends with
    names := c.kept.parentNames c.start hb
    added := ⟨[(id, n)], nodes, .cons ⟨hn, describes, refers.grow (c.appends.nodes b hb)⟩ .nil⟩
    accessed }

section
variable (h : ws.WellFormed) (hb : b.index < ws.builders.size)
include h hb

/-- A call that is no access to an element. -/
theorem invoke {a : Addition} (plain : Addition.elements [a] = []) {process : String}
    {arguments : Value} {n : NodeRef} (hv : arguments.Within ws)
    (refers : arguments.RegisteredIn ws b)
    (run : (Build.invoke b process arguments).run ws = (.ok n, now))
    (describes : ws.IsCall now b (splitProcessId process) arguments n →
      a.Describes now (now.node n)) :
    AddsNodes b ws [a] now ∧ (Value.node n).RegisteredIn now b := by
  obtain ⟨c, -, is, -, -, nodes, registered⟩ := (Build.ensures_invoke (h.extends _ _)
    (open_of_within hb) process hv .null none).of_run run
  have same := SameElements.of_invoke run
  refine ⟨one c hb nodes is.within (describes is) (fun m hm => ?_) fun e => ?_,
    Value.registeredIn_node registered⟩
  · exact refers m (Specification.refs_of_bindArguments is.arguments _ hm)
  · rw [plain, Continues.accessed_iff c hb same e]
    exact (or_iff_left List.not_mem_nil).symm

theorem addOperator {a : Addition} (plain : Addition.elements [a] = []) {op : String}
    {left right : Value} {n : NodeRef} (hl : left.Within ws ∧ left.RegisteredIn ws b)
    (hr : right.Within ws ∧ right.RegisteredIn ws b)
    (run : (Build.addOperator b op left right).run ws = (.ok n, now))
    (describes : (now.node n).Operates op left right → a.Describes now (now.node n)) :
    AddsNodes b ws [a] now ∧ (Value.node n).RegisteredIn now b := by
  obtain ⟨process, spec, entries, operator, found, bound, run⟩ := addOperator_eq_invoke run
  have given (p : Scalar × Value) (hp : p ∈ entries) : p.2.Within ws ∧ p.2.RegisteredIn ws b := by
    rcases mem_of_operatorArguments bound hp with same | same
    · exact same ▸ hl
    · exact same ▸ hr
  refine invoke h hb plain (Value.within_dict.2 fun p hp => (given p hp).1)
    (Value.registeredIn_dict fun p hp => (given p hp).2) run fun is => describes ?_
  -- The specification of the node is the one that the operator's arguments were bound by.
  have key := is.process
  have specification := is.specification
  rw [splitProcessId_operator operator] at key specification
  obtain rfl := Option.some.inj (found.symm.trans specification)
  obtain ⟨process, space⟩ := Prod.mk.inj key
  exact ⟨process ▸ operator, space, bound.trans is.arguments⟩

theorem element {parameter : Scalar} {key : ElementKey} {a : AccessRef} {n : NodeRef}
    (is : ws.IsCallbackParameter b parameter.toValue a)
    (run : (Build.element a key).run ws = (.ok n, now)) :
    AddsNodes b ws (if (parameter, key) ∈ ws.accessed b then [] else [.element parameter key]) now ∧
      (Value.node n).RegisteredIn now b := by
  have known : (parameter, key) ∈ ws.accessed b ↔ key ∈ (ws.access a).elements.keys :=
    h.mem_accessed_iff hb is
  have ok := h.access a is.within
  cases hk : Dictionary.get? key (ws.access a).elements with
  | some m =>
    rw [run_element_of_known hk] at run
    cases run
    have hm := Dictionary.mem_of_get? hk
    rw [if_pos (known.2 (List.mem_map_of_mem hm))]
    have registered := (ok.elements key n hm).registered
    rw [is.builder] at registered
    exact ⟨h.addsNothing b, Value.registeredIn_node registered⟩
  | none =>
    have new : key ∉ (ws.access a).elements.keys := by
      rw [← Dictionary.get?_isSome_iff, hk]
      exact Bool.false_ne_true
    rw [if_neg fun hm => new (known.1 hm)]
    obtain ⟨c, -, element⟩ := (Build.ensures_element (h.extends _ _) is.within
      (is.builder.symm ▸ open_of_within hb) key).of_run run
    obtain ⟨made, r, invoked, rfl⟩ := element_eq_invoke hk run
    rw [is.builder] at invoked
    obtain ⟨c', g, call, -, -, nodes, registered⟩ := (Build.ensures_invoke (h.extends _ _)
      (open_of_within hb) _ (fun x hx => Build.refs_elementArguments x hx ▸ ok.parameter) .null
      none).of_run invoked
    have same := SameElements.of_invoke invoked
    have owner : (made.node n).builder = (ws.access a).builder := call.builder.trans is.builder.symm
    refine ⟨one c hb nodes element.within ⟨?_, (ws.access a).parameter, ?_, ?_, element.arguments⟩
      (fun m hm => ?_) fun e => ?_, Value.registeredIn_node registered⟩
    · have process := element.process
      rwa [← owner] at process
    · exact Nat.lt_of_lt_of_le ok.parameter g.parameters
    · exact (g.parameter _ ok.parameter).trans is.parameter
    · rw [element.arguments] at hm
      cases Build.refs_elementArguments _ hm
    · rw [show e ∈ ((made.remember a key n).addRecord r).accessed b ↔ _ from
        c'.wellFormed.accessed_remember (Continues.within c' hb) (is.grow h g) n e,
        Continues.accessed_iff c' hb same e]
      exact Iff.or .rfl List.mem_singleton.symm

/-- The additions for an identifier are those of the element that it stands for. -/
theorem resolve {name : String} {v : Value}
    (run : (Build.resolve b name).run ws = (.ok v, now)) :
    AddsNodes b ws (Formula.Tree.additions (ws.passed b) (ws.accessed b) (.identifier name)) now ∧
      v.RegisteredIn now b := by
  rw [Build.resolve_eq] at run
  obtain ⟨as, w₁, accesses, rest⟩ := run_bind_eq_ok run
  obtain ⟨c₁, g₁, same, names, hnames, has⟩ := (Build.ensures_accessesFor
    (h.extends (fun _ => True) fun _ => True) hb name).of_run accesses
  have hb₁ := Continues.within c₁ hb
  have first : AddsNodes b ws [] w₁ :=
    quiet c₁ hb (same.registered b hb) (SameElements.of_accessesFor accesses)
  have meant : Reference.ofName name as.length = Reference.ofName name (ws.passed b).length := by
    rw [← has.length_eq]
    exact Reference.ofName_passed hnames
  unfold Formula.Tree.additions
  rw [← meant]
  unfold Build.resolveWith at rest
  split at rest
  · rename_i w href
    cases rest
    rw [href]
    exact ⟨first, Value.registeredIn_of_refs_eq_nil
      (Value.refs_of_literals (Reference.ofName_eq_literal href))⟩
  · rename_i id href
    rw [Build.run_get_bind] at rest
    split at rest
    · rename_i n found
      cases rest
      rw [href]
      exact ⟨first, Value.registeredIn_node found⟩
    · cases rest
  · rename_i depth key href
    rw [if_pos (startsWithDollar_of_element href)] at hnames
    have passed : ws.passed b = names := by
      unfold passed
      rw [hnames]
      rfl
    dsimp only at rest
    split at rest
    · cases rest
    split at rest
    · rename_i a ha
      obtain ⟨n, w₂, made, rest⟩ := run_bind_eq_ok rest
      cases rest
      obtain ⟨hlt, hget⟩ := List.getElem?_eq_some_iff.1 ha
      have hlt' : depth - 1 < names.length := has.length_eq.symm ▸ hlt
      have is : w₁.IsCallbackParameter b names[depth - 1] a := hget ▸ has.get hlt' hlt
      obtain ⟨parameter, name, -⟩ := c₁.wellFormed.exists_eq_toValue hb₁ is
      obtain ⟨k, hk, made⟩ := elementAt_eq_element made
      have meant : (Reference.element depth key).element? (ws.passed b) = some (parameter, k) := by
        have hk : ElementKey.ofText key = .ok k := hk
        have hkey : parameter.toValue.key? = some parameter := by cases parameter <;> rfl
        simp [Reference.element?, passed, List.getElem?_eq_getElem hlt', name, hkey, hk,
          Except.toOption]
      rw [href, meant]
      obtain ⟨second, registered⟩ := element c₁.wellFormed hb₁ (name ▸ is) made
      refine ⟨?_, registered⟩
      have known : (parameter, k) ∈ w₁.accessed b ↔ (parameter, k) ∈ ws.accessed b := by
        rw [first.accessed]
        exact or_iff_left List.not_mem_nil
      have both := first.trans second hb
      simp only [known, List.nil_append] at both
      exact both
    · cases rest
  · rename_i text href
    rw [href]
    obtain ⟨r, w₂, made, rest⟩ := run_bind_eq_ok rest
    obtain ⟨⟨⟩, w₃, declared, rest⟩ := run_bind_eq_ok rest
    cases rest
    obtain ⟨c₂, g₂, same₂, -⟩ := (Build.ensures_newParameter
      (c₁.wellFormed.extends (fun _ => True) fun _ => True) _).of_run made
    have hb₂ := Continues.within c₂ hb₁
    obtain ⟨c₃, -, same₃⟩ := (Build.ensures_addParameter
      (c₂.wellFormed.extends (fun _ => True) fun _ => True) hb₂ _ true (.inl trivial)).of_run
      declared
    have second : AddsNodes b w₁ [] w₂ :=
      quiet c₂ hb₁ (same₂.registered b hb₁) (by cases made; exact fun _ => rfl)
    have third : AddsNodes b w₂ [] now := quiet c₃ hb₂ (same₃.registered b hb₂)
      ((frame_sameElements.keeps_addParameter b _ _).of_run declared)
    exact ⟨(first.trans second hb).trans third hb, fun m hm => by cases List.mem_singleton.1 hm⟩

end

theorem passed_eq (e : AddsNodes b ws as now) : now.passed b = ws.passed b := by
  unfold passed
  rw [e.names]

/-- What is accessed afterwards, in a list of what was accessed before. -/
theorem mem_accessed_iff (e : AddsNodes b ws as now) {accessed : List (Scalar × ElementKey)}
    (same : ∀ x, x ∈ ws.accessed b ↔ x ∈ accessed) (x : Scalar × ElementKey) :
    x ∈ now.accessed b ↔ x ∈ accessed ++ Addition.elements as := by
  rw [e.accessed, same, List.mem_append]

end AddsNodes

end Workspace

/-! ## Trees -/

section
variable {b : BuilderRef}

open Workspace

mutual

theorem addsNodes_lower {ws : Workspace} (h : ws.WellFormed) (hb : b.index < ws.builders.size) :
    (t : Formula.Tree) → {accessed : List (Scalar × ElementKey)} →
    (∀ e, e ∈ ws.accessed b ↔ e ∈ accessed) → {v : Value} → {now : Workspace} →
    (Build.lower b t).run ws = (.ok v, now) →
    AddsNodes b ws (t.additions (ws.passed b) accessed) now ∧ v.RegisteredIn now b
  | .number value, accessed, _, v, now, run => by
    unfold Build.lower at run
    cases run
    unfold Formula.Tree.additions
    exact ⟨h.addsNothing b, Value.registeredIn_of_refs_eq_nil value.refs_toValue⟩
  | .identifier name, accessed, same, v, now, run => by
    unfold Build.lower at run
    have added := AddsNodes.resolve h hb run
    unfold Formula.Tree.additions at added ⊢
    simpa only [same] using added
  | .binary op left right, accessed, same, v, now, run => by
    unfold Build.lower at run
    obtain ⟨l, w₁, hl, run⟩ := run_bind_eq_ok run
    obtain ⟨r, w₂, hr, run⟩ := run_bind_eq_ok run
    obtain ⟨n, w₃, hadd, run⟩ := run_bind_eq_ok run
    cases run
    obtain ⟨c₁, ownedLeft, -⟩ := lower_eq_ok h hb hl
    have hb₁ := c₁.within hb
    obtain ⟨e₁, registeredLeft⟩ := addsNodes_lower h hb left same hl
    obtain ⟨c₂, ownedRight, -⟩ := lower_eq_ok c₁.wellFormed hb₁ hr
    obtain ⟨e₂, registeredRight⟩ :=
      addsNodes_lower c₁.wellFormed hb₁ right (e₁.mem_accessed_iff same) hr
    obtain ⟨e₃, registered⟩ := AddsNodes.addOperator c₂.wellFormed (c₂.within hb₁)
      (a := .operator op) rfl ⟨(ownedLeft.grow c₂.grows).1, registeredLeft.grow (e₂.nodes b hb₁)⟩
      ⟨ownedRight.1, registeredRight⟩ hadd fun operates => ⟨l, r, operates⟩
    rw [e₁.passed_eq] at e₂
    exact ⟨(e₁.trans e₂ hb).trans e₃ hb, registered⟩
  | .unary op operand, accessed, same, v, now, run => by
    unfold Build.lower at run
    obtain ⟨u, w₁, hu, run⟩ := run_bind_eq_ok run
    obtain ⟨c₁, owned, -⟩ := lower_eq_ok h hb hu
    obtain ⟨e₁, registered⟩ := addsNodes_lower h hb operand same hu
    have number := number?_lower h hb operand hu
    unfold Formula.Tree.additions
    rw [number]
    rcases applySign_eq_ok run with
      ⟨hop, rfl, rfl⟩ | ⟨rfl, s, hs, rfl, rfl⟩ | ⟨rfl, none, n, rfl, hadd⟩
    · rw [if_neg fun sign => hop sign.1, List.append_nil]
      exact ⟨e₁, registered⟩
    · rw [if_neg (by simp [hs]), List.append_nil]
      exact ⟨e₁, Value.registeredIn_of_refs_eq_nil s.negated.refs_toValue⟩
    · rw [if_pos ⟨rfl, none⟩]
      obtain ⟨e₂, registered⟩ := AddsNodes.addOperator c₁.wellFormed (c₁.within hb)
        (a := .negation) rfl
        ⟨Value.within_of_refs_eq_nil rfl, Value.registeredIn_of_refs_eq_nil rfl⟩
        ⟨owned.1, registered⟩ hadd fun operates => ⟨u, none, operates⟩
      exact ⟨e₁.trans e₂ hb, registered⟩
  | .call name arguments, accessed, same, v, now, run => by
    unfold Build.lower at run
    obtain ⟨vs, w₁, hvs, run⟩ := run_bind_eq_ok run
    obtain ⟨n, w₂, hinvoke, run⟩ := run_bind_eq_ok run
    cases run
    obtain ⟨c₁, within⟩ := lowerAll_eq_ok h hb hvs
    obtain ⟨e₁, registered, length⟩ := addsNodes_lowerAll h hb arguments same hvs
    obtain ⟨e₂, registered⟩ := AddsNodes.invoke c₁.wellFormed (c₁.within hb)
      (a := .call name arguments.length) rfl (Value.within_list.2 within)
      (Value.registeredIn_list registered) hinvoke
      fun is => ⟨is.process, vs, length, is.arguments⟩
    exact ⟨e₁.trans e₂ hb, registered⟩
  | .group inner, accessed, same, v, now, run => by
    unfold Build.lower at run
    exact addsNodes_lower h hb inner same run

theorem addsNodes_lowerAll {ws : Workspace} (h : ws.WellFormed) (hb : b.index < ws.builders.size) :
    (ts : List Formula.Tree) → {accessed : List (Scalar × ElementKey)} →
    (∀ e, e ∈ ws.accessed b ↔ e ∈ accessed) → {vs : List Value} → {now : Workspace} →
    (Build.lowerAll b ts).run ws = (.ok vs, now) →
    AddsNodes b ws (Formula.Tree.additionsOfAll (ws.passed b) accessed ts) now ∧
      (∀ v ∈ vs, v.RegisteredIn now b) ∧ vs.length = ts.length
  | [], accessed, _, vs, now, run => by
    unfold Build.lowerAll at run
    cases run
    exact ⟨h.addsNothing b, nofun, rfl⟩
  | t :: ts, accessed, same, vs, now, run => by
    unfold Build.lowerAll at run
    obtain ⟨v, w₁, hv, run⟩ := run_bind_eq_ok run
    obtain ⟨vs', w₂, hvs, run⟩ := run_bind_eq_ok run
    cases run
    obtain ⟨c₁, -⟩ := lower_eq_ok h hb hv
    have hb₁ := c₁.within hb
    obtain ⟨e₁, first⟩ := addsNodes_lower h hb t same hv
    obtain ⟨e₂, rest, length⟩ :=
      addsNodes_lowerAll c₁.wellFormed hb₁ ts (e₁.mem_accessed_iff same) hvs
    have last := e₂.nodes b hb₁
    rw [e₁.passed_eq] at e₂
    refine ⟨e₁.trans e₂ hb, fun w hw => ?_, congrArg Nat.succ length⟩
    rcases List.mem_cons.1 hw with rfl | hw
    · exact first.grow last
    · exact rest w hw

end

end

/-! ## Formulas -/

section
variable {ws now : Workspace} {b : BuilderRef} {text : String} {n : NodeRef}

/-- A formula that is added to a builder is parsed, and its tree is lowered to a node. -/
theorem math_eq_ok (h : ws.WellFormed) (run : (Build.math b text).run ws = (.ok n, now)) :
    ∃ t start lowered r, Formula.parse text = .ok t ∧ ws.Continues start ∧
      start.builders = ws.builders ∧ start.accesses = ws.accesses ∧
      (Build.lower b t).run start = (.ok (.node n), lowered) ∧ now = lowered.addRecord r := by
  unfold Build.math Build.compile at run
  obtain ⟨f, w₁, created, run⟩ := run_bind_eq_ok run
  obtain ⟨⟨⟩, start, set, generated⟩ := run_bind_eq_ok run
  obtain ⟨c₁, -⟩ := (Build.ensures_createFormula (h.extends (fun _ => True) fun _ => True)
    text).of_run created
  obtain ⟨c₂, -⟩ := (Build.ensures_setFormulaBuilder c₁ f b).of_run set
  unfold Build.createFormula at created
  split at created
  · rename_i t parsed
    cases created
    have made : (ws.formulas.push { text, tree := t }).get ws.formulas.size =
        { text, tree := t } := Arena.get_push_size ..
    have formula : start.formula ⟨ws.formulas.size⟩ = { text, tree := t, builder := some b } := by
      cases set
      rw [Workspace.formula_modifyFormula, if_pos ⟨rfl, by simp⟩, Workspace.formula, made]
    obtain ⟨lowered, r, lower, rfl⟩ := generate_eq_ok (congrArg Formula.builder formula) generated
    rw [formula] at lower
    exact ⟨t, start, lowered, r, parsed, c₂, by cases set; rfl, by cases set; rfl, lower, rfl⟩
  · cases created
  · cases created

end

/-- Each of the added nodes refers to nodes before it only. -/
def Workspace.RefersBack (ws : Workspace) (old added : Dictionary String NodeRef) : Prop :=
  ∀ earlier p later, added = earlier ++ p :: later →
    ∀ n, Ref.node n ∈ Value.refsInEntries (ws.node p.2).arguments →
      n ∈ Dictionary.values (old ++ earlier)

/-- The formula has been lowered to a node in a builder. -/
structure Workspace.Lowered (b : BuilderRef) (t : Formula.Tree) (n : NodeRef)
    (ws now : Workspace) : Prop where
  /-- The nodes from before are as they were, -/
  same : ∀ m : NodeRef, m.index < ws.nodes.size → now.node m = ws.node m
  /-- the other builders have no others, -/
  others : ∀ c : BuilderRef, c.index < ws.builders.size → c ≠ b →
    (now.builder c).nodes = (ws.builder c).nodes
  /-- and this one has those of the formula behind its own. -/
  added : ∃ added, (now.builder b).nodes = (ws.builder b).nodes ++ added ∧
    List.Forall₂ (fun a p => a.Describes now (now.node p.2))
      (t.additions (ws.passed b) (ws.accessed b)) added ∧
    now.RefersBack (ws.builder b).nodes added
  registered : Dictionary.get? (now.node n).id (now.builder b).nodes = some n

theorem Node.SameCall.eq {n m : Node} (h : n.SameCall m) (result : m.result = n.result)
    (description : m.description = n.description)
    (callbackBuilders : m.callbackBuilders = n.callbackBuilders) : m = n := by
  obtain ⟨builder, specification, process, space, arguments, id⟩ := h
  cases n
  cases m
  simp_all

section
variable {ws now : Workspace} {b : BuilderRef} {as : List Addition}

/-- Nodes that are referred to are older, and registered nodes stand in the order of their age. -/
theorem Workspace.WellFormed.refersBack (h : ws.WellFormed) (hb : b.index < ws.builders.size)
    {old added : Dictionary String NodeRef} (nodes : (ws.builder b).nodes = old ++ added)
    (registered : ∀ p ∈ added, (Value.dict (ws.node p.2).arguments).RegisteredIn ws b) :
    ws.RefersBack old added := by
  rintro earlier p later rfl n hn
  have ok := h.builder b hb
  have mem := registered p (List.mem_append_right _ List.mem_cons_self) n hn
  have hp : p ∈ (ws.builder b).nodes := by
    rw [nodes]
    exact List.mem_append_right _ (List.mem_append_right _ List.mem_cons_self)
  have below := ((h.node p.2 (ok.nodes p.1 p.2 hp).1).arguments _ hn).2
  have ordered := ok.ordered
  rw [nodes, ← List.append_assoc] at ordered mem
  simp only [Dictionary.values, List.map_append, List.map_cons] at mem ⊢
  rcases List.mem_append.1 mem with before | after
  · simpa using before
  have younger := (List.pairwise_cons.1 (List.pairwise_append.1 ordered).2.1).1
  rcases List.mem_cons.1 after with rfl | after
  · exact absurd below (Nat.lt_irrefl _)
  · obtain ⟨q, hq, rfl⟩ := List.mem_map.1 after
    exact absurd below (Nat.lt_asymm (younger q hq))

/-- A registered node is found under its id. -/
theorem Workspace.WellFormed.get?_of_registeredIn (h : ws.WellFormed)
    (hb : b.index < ws.builders.size) {n : NodeRef}
    (registered : (Value.node n).RegisteredIn ws b) :
    Dictionary.get? (ws.node n).id (ws.builder b).nodes = some n := by
  obtain ⟨⟨id, _⟩, hm, rfl⟩ := List.mem_map.1 (registered n List.mem_cons_self)
  have ok := h.builder b hb
  have found := Dictionary.get?_of_mem ok.nodup hm
  rwa [← (ok.nodes id _ hm).2.2] at found

/-- **What a formula adds.** A formula that is added to a builder leaves the nodes that there are as
they are. Behind them stand, operands first and from left to right, a node for each operator and
each call, a product with -1 for each minus in front of something that is no number, and a node for
each element of a callback parameter that has not been accessed before. They refer to nodes before
them only, and the node of the formula is registered. -/
theorem math_addsNodes (h : ws.Reachable) (hb : b.index < ws.builders.size) {text : String}
    {n : NodeRef} (run : (Build.math b text).run ws = (.ok n, now)) :
    ∃ t, Formula.parse text = .ok t ∧ Workspace.Lowered b t n ws now := by
  have wf := h.wellFormed
  obtain ⟨ext, -, -⟩ := (Build.ensures_compile (wf.extends (· = b) fun _ => True)
    ⟨hb, .inl rfl, .inl trivial⟩ text false nofun).of_run run
  have remembers := Build.remembers_compile b text false ws
  rw [show (Build.compile b text false).run ws = _ from run] at remembers
  obtain ⟨t, start, lowered, r, parsed, c, builders, accesses, lower, rfl⟩ := math_eq_ok wf run
  have first : Workspace.AddsNodes b ws [] start := by
    refine .quiet c hb ?_ fun a => ?_
    · unfold Workspace.builder
      rw [builders]
    · unfold Workspace.access
      rw [accesses]
  have hb₁ := c.within hb
  obtain ⟨second, registered⟩ := addsNodes_lower c.wellFormed hb₁ t
    (fun e => (first.accessed e).trans (or_iff_left List.not_mem_nil)) lower
  have hb₂ := Nat.lt_of_lt_of_le hb₁ second.grows.builders
  have third : Workspace.AddsNodes b lowered [] (lowered.addRecord r) :=
    .quiet (Build.ensures_log (second.wellFormed.extends (fun _ => True) fun _ => True) r).1 hb₂
      rfl fun _ => rfl
  have all := (first.trans second hb).trans third hb
  rw [first.passed_eq, List.nil_append, List.append_nil] at all
  obtain ⟨added, nodes, made⟩ := all.added
  refine ⟨t, parsed, fun m hm => ?_, fun c hc other => ?_, ⟨added, nodes, ?_, ?_⟩, ?_⟩
  · exact (ext.kept.node m hm).eq (ext.kept.flags m hm).1 (ext.kept.flags m hm).2
      (remembers.same m hm)
  · exact ((ext.kept.content c hc).untouched.resolve_left other).1
  · exact made.imp fun _ _ is => is.describes
  · refine all.wellFormed.refersBack (Nat.lt_of_lt_of_le hb all.grows.builders) nodes fun p hp => ?_
    obtain ⟨a, -, is⟩ := exists_of_forall₂_of_mem made hp
    exact is.refers
  · exact all.wellFormed.get?_of_registeredIn (Nat.lt_of_lt_of_le hb all.grows.builders) registered

end

/-- The first element has been accessed before, and a number with a sign is a number. -/
theorem math_addsNodes_elements : ∃ n now t,
    (Build.math ⟨1⟩ "$0 + add($1, -2)").run .elementAccessed = (.ok n, now) ∧
      t.additions (Workspace.elementAccessed.passed ⟨1⟩) (Workspace.elementAccessed.accessed ⟨1⟩) =
        [.element (.str "x") (.index 1), .call "add" 2, .operator "+"] ∧
      Workspace.Lowered ⟨1⟩ t n .elementAccessed now := by
  have reachable : Workspace.elementAccessed.Reachable :=
    .operation Workspace.reachable_elements (.element (by decide +kernel) _)
  have additions : (Formula.parse "$0 + add($1, -2)").toOption.map (·.additions
      (Workspace.elementAccessed.passed ⟨1⟩) (Workspace.elementAccessed.accessed ⟨1⟩)) =
      some [.element (.str "x") (.index 1), .call "add" 2, .operator "+"] := by decide +kernel
  have result : ((Build.math ⟨1⟩ "$0 + add($1, -2)").run .elementAccessed).1.toOption =
      some ⟨4⟩ := by decide +kernel
  rcases run : (Build.math ⟨1⟩ "$0 + add($1, -2)").run .elementAccessed with ⟨e | n, now⟩
  · rw [run] at result
    cases result
  · obtain ⟨t, parsed, lowered⟩ := math_addsNodes reachable (by decide +kernel) run
    rw [parsed] at additions
    exact ⟨n, now, t, rfl, Option.some.inj additions, lowered⟩

end ProcessGraph
