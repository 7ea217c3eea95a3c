import ProcessGraph.Proofs.Formula.Doubles
import ProcessGraph.Proofs.Graph.LoweringMeaning

/-!
# What a formula passes to its nodes

The arguments of the nodes that a formula is lowered to are nodes of the builder, parameters, and
the scalars of the formula. So a property that these have (`Passable`) holds of all of them, if the
doubles of the formula have it: one induction over the tree for all such properties
(`passes_lower`).
-/

set_option autoImplicit false

namespace ProcessGraph

/-- A property that lasts while the workspace grows, and that nodes of the builder, parameters, all
scalars but doubles, and with a double its negation have. -/
structure Passable (b : BuilderRef) (P : Workspace → Value → Prop) : Prop where
  grow {ws now : Workspace} {v : Value} : P ws v → ws.Grows now → P now v
  node {ws : Workspace} {n : NodeRef} :
    n.index < ws.nodes.size → (ws.node n).builder = b → P ws (.node n)
  parameter (ws : Workspace) (p : ParameterRef) : P ws (.parameter p)
  scalar (ws : Workspace) {s : Scalar} : (∀ x, s ≠ .float x) → P ws s.toValue
  negated {ws : Workspace} {x : Binary64} : P ws (.float x) → P ws (.float x.neg)

/-- The values that are given to a process, by name or by position, have the property. -/
def Value.Carries (P : Value → Prop) : Value → Prop
  | .dict d => ∀ p ∈ d, P p.2
  | .list vs | .tuple vs => ∀ v ∈ vs, P v
  | _ => True

theorem Value.Carries.entries {P : Value → Prop} {spec : Specification} {arguments : Value}
    {entries : Value.Entries} (h : arguments.Carries P)
    (bound : spec.bindArguments arguments = .ok entries) : ∀ p ∈ entries, P p.2 := by
  unfold Specification.bindArguments at bound
  split at bound
  · cases bound
    exact List.forall_mem_nil _
  · cases bound
    exact h
  · exact fun p hp => h p.2 (Specification.mem_of_bind bound p hp)
  · exact fun p hp => h p.2 (Specification.mem_of_bind bound p hp)
  · cases bound

/-- The builder has only got nodes whose arguments have the property. -/
structure Workspace.Passes (P : Workspace → Value → Prop) (b : BuilderRef)
    (ws now : Workspace) : Prop where
  grows : ws.Grows now
  added : ∃ added, (now.builder b).nodes = (ws.builder b).nodes ++ added ∧
    ∀ p ∈ added, p.2.index < now.nodes.size ∧ ∀ q ∈ (now.node p.2).arguments, P now q.2

namespace Workspace.Passes

variable {P : Workspace → Value → Prop} {b : BuilderRef} {ws now after : Workspace}

/-- Steps that register no node. -/
theorem quiet (g : ws.Grows now) (nodes : (now.builder b).nodes = (ws.builder b).nodes) :
    Passes P b ws now :=
  ⟨g, [], by rw [nodes, List.append_nil], List.forall_mem_nil _⟩

theorem of_extends (hb : b.index < ws.builders.size)
    (ext : ws.Extends (fun _ => False) (fun _ => True) now) : Passes P b ws now :=
  quiet ext.kept.toGrows ((ext.kept.content b hb).untouched.resolve_left id).1

theorem trans (prop : Passable b P) (h : Passes P b ws now) (h' : Passes P b now after) :
    Passes P b ws after := by
  obtain ⟨first, e, ok⟩ := h.added
  obtain ⟨second, e', ok'⟩ := h'.added
  refine ⟨h.grows.trans h'.grows, first ++ second, by rw [e', e, List.append_assoc], fun p hp => ?_⟩
  rcases List.mem_append.1 hp with hp | hp
  · obtain ⟨hlt, arguments⟩ := ok p hp
    refine ⟨Nat.lt_of_lt_of_le hlt h'.grows.nodes, ?_⟩
    rw [(h'.grows.node p.2 hlt).arguments]
    exact fun q hq => prop.grow (arguments q hq) h'.grows
  · exact ok' p hp

end Workspace.Passes

/-! ## Steps -/

section
variable {P : Workspace → Value → Prop} {b : BuilderRef} {ws now : Workspace}
  (prop : Passable b P) (h : ws.WellFormed) (hb : b.index < ws.builders.size)
include prop h hb

open Workspace

theorem passes_invoke {process : String} {arguments : Value} {n : NodeRef}
    (hv : arguments.Carries (P ws)) (hw : arguments.Within ws)
    (run : (Build.invoke b process arguments).run ws = (.ok n, now)) :
    Passes P b ws now ∧ P now (.node n) := by
  obtain ⟨-, g, is, -, -, nodes, -⟩ := (Build.ensures_invoke (h.extends _ _)
    (open_of_within hb) process hw .null none).of_run run
  refine ⟨⟨g, _, nodes, fun p hp => ?_⟩, prop.node is.within is.builder⟩
  cases List.mem_singleton.1 hp
  exact ⟨is.within, fun q hq => prop.grow (hv.entries is.arguments q hq) g⟩

theorem passes_element {a : AccessRef} {key : ElementKey} {n : NodeRef}
    (ha : a.index < ws.accesses.size) (own : (ws.access a).builder = b)
    (run : (Build.element a key).run ws = (.ok n, now)) : Passes P b ws now := by
  rcases element_eq_ok run with ⟨-, rfl⟩ | ⟨w₁, invoked, g, -, builders, -⟩
  · exact .quiet (.refl _) rfl
  · rw [own] at invoked
    have hw : (Value.object [("data", .parameter (ws.access a).parameter),
        (key.argument, key.toValue)]).Within ws := fun r hr =>
      Build.refs_elementArguments r hr ▸ (h.access a ha).parameter
    have carries : (Value.object [("data", .parameter (ws.access a).parameter),
        (key.argument, key.toValue)]).Carries (P ws) := by
      intro p hp
      simp only [List.map_cons, List.map_nil, List.mem_cons, List.not_mem_nil, or_false] at hp
      rcases hp with rfl | rfl
      · exact prop.parameter ws _
      · cases key with
        | index n => exact prop.scalar ws (s := .int n) (by simp)
        | label s => exact prop.scalar ws (s := .str s) (by simp)
    refine (passes_invoke prop h hb carries hw invoked).1.trans prop (.quiet g ?_)
    simp only [Workspace.builder, builders]

theorem passes_resolve {name : String} {v : Value}
    (run : (Build.resolve b name).run ws = (.ok v, now)) : Passes P b ws now := by
  rw [Build.resolve_eq] at run
  obtain ⟨as, w₁, accesses, run⟩ := run_bind_eq_ok run
  obtain ⟨ext₁, -, -, names, -, has⟩ := (Build.ensures_accessesFor
    (h.extends (fun _ => False) fun _ => True) hb name).of_run accesses
  have h₁ := ext₁.wellFormed
  have first : Passes P b ws w₁ := .of_extends hb ext₁
  have hb₁ := Nat.lt_of_lt_of_le hb first.grows.builders
  unfold Build.resolveWith at run
  split at run
  · cases run
    exact first
  · rw [Build.run_get_bind] at run
    split at run
    · cases run
      exact first
    · cases run
  · rename_i depth key _
    split at run <;> dsimp only at run <;> split at run
    · cases run
    · rename_i a ha _
      obtain ⟨n, w₂, element, run⟩ := run_bind_eq_ok run
      cases run
      obtain ⟨_, -, is⟩ := exists_of_forall₂_of_mem has (List.mem_of_getElem? ha)
      obtain ⟨k, -, element⟩ := elementAt_eq_element element
      exact first.trans prop (passes_element prop h₁ hb₁ is.within is.builder element)
    · cases run
    · cases run
  · rename_i text _
    obtain ⟨r, w₂, made, run⟩ := run_bind_eq_ok run
    obtain ⟨⟨⟩, w₃, declared, run⟩ := run_bind_eq_ok run
    cases run
    obtain ⟨ext, g₂, -⟩ := (Build.ensures_newParameter
      (h₁.extends (fun _ => False) fun _ => True) (.named text)).of_run made
    have hb₂ := Nat.lt_of_lt_of_le hb₁ g₂.builders
    have ext' := ((Build.ensures_addParameter (ext.wellFormed.extends (fun _ => False)
      fun _ => True) hb₂ _ true (.inl trivial)).of_run declared).1
    exact (first.trans prop (.of_extends hb₁ ext)).trans prop (.of_extends hb₂ ext')

theorem passes_addOperator {op : String} {left right : Value} {n : NodeRef}
    (hl : P ws left ∧ left.Within ws) (hr : P ws right ∧ right.Within ws)
    (run : (Build.addOperator b op left right).run ws = (.ok n, now)) :
    Passes P b ws now ∧ P now (.node n) := by
  obtain ⟨process, spec, entries, -, -, bound, run⟩ := addOperator_eq_invoke run
  have given (p : Scalar × Value) (hp : p ∈ entries) : P ws p.2 ∧ p.2.Within ws := by
    rcases mem_of_operatorArguments bound hp with e | e
    · exact e ▸ hl
    · exact e ▸ hr
  have carried : (Value.dict entries).Carries (P ws) := fun p hp => (given p hp).1
  exact passes_invoke prop h hb carried (Value.within_dict.2 fun p hp => (given p hp).2) run

omit h hb

/-- What an identifier has become has the property. -/
theorem Workspace.IsResolved.passes {names : List Value} {v : Value} {name : String}
    {available : Nat} (is : ws.IsResolved now b names v (Reference.ofName name available))
    (owned : v.OwnedBy now b) : P now v := by
  have node {n : NodeRef} (e : v = .node n) : P now v := by
    subst e
    exact prop.node (Value.within_node.1 owned.1) (owned.2 n rfl)
  generalize href : Reference.ofName name available = reference at is
  cases reference with
  | literal w =>
    obtain rfl := is
    have hm := Dictionary.mem_of_get? (Reference.ofName_eq_literal href)
    simp only [literals, List.mem_cons, Prod.mk.injEq, List.not_mem_nil, or_false] at hm
    rcases hm with ⟨-, rfl⟩ | ⟨-, rfl⟩ | ⟨-, rfl⟩
    · exact prop.scalar now (s := .bool true) (by simp)
    · exact prop.scalar now (s := .bool false) (by simp)
    · exact prop.scalar now (s := .null) (by simp)
  | node id =>
    obtain ⟨n, e, -⟩ := is
    exact node e
  | element depth key =>
    obtain ⟨_, _, _, n, e, -⟩ := is
    exact node e
  | parameter text =>
    obtain ⟨r, rfl, -⟩ := is
    exact prop.parameter now r

theorem Passable.negated_of_number? {v : Value} {s : Scalar} (hs : v.number? = some s)
    (hv : P ws v) : P ws s.negated.toValue := by
  cases v <;> cases hs
  · exact prop.scalar ws (s := .int _) (by simp)
  · exact prop.negated hv

end

/-! ## Trees -/

section
variable {P : Workspace → Value → Prop} {b : BuilderRef} (prop : Passable b P)
include prop

open Workspace

mutual

theorem passes_lower {ws : Workspace} (h : ws.WellFormed) (hb : b.index < ws.builders.size) :
    (t : Formula.Tree) → (∀ x ∈ t.doubles, ∀ ws, P ws (.float x)) → {v : Value} →
    {now : Workspace} → (Build.lower b t).run ws = (.ok v, now) → Passes P b ws now ∧ P now v
  | .number value, written, v, now, run => by
    unfold Build.lower at run
    cases run
    refine ⟨.quiet (.refl _) rfl, ?_⟩
    cases value with
    | float x => exact written x (List.mem_singleton.2 rfl) _
    | null | bool | int | str => exact prop.scalar _ (by simp)
  | .identifier name, _, v, now, run => by
    unfold Build.lower at run
    obtain ⟨-, -, owned, names, -, is⟩ := (Build.ensures_resolve (h.extends _ _)
      (open_of_within hb) name).of_run run
    exact ⟨passes_resolve prop h hb run, is.passes prop owned⟩
  | .binary op left right, written, v, now, run => by
    unfold Build.lower at run
    obtain ⟨l, w₁, hl, run⟩ := run_bind_eq_ok run
    obtain ⟨r, w₂, hr, run⟩ := run_bind_eq_ok run
    obtain ⟨n, w₃, hadd, run⟩ := run_bind_eq_ok run
    cases run
    obtain ⟨h₁, ownedLeft, -⟩ := lower_eq_ok h hb hl
    obtain ⟨first, passesLeft⟩ :=
      passes_lower h hb left (fun x hx => written x (List.mem_append_left _ hx)) hl
    have hb₁ := h₁.within hb
    obtain ⟨h₂, ownedRight, -⟩ := lower_eq_ok h₁.wellFormed hb₁ hr
    obtain ⟨second, passesRight⟩ := passes_lower h₁.wellFormed hb₁ right
      (fun x hx => written x (List.mem_append_right _ hx)) hr
    obtain ⟨third, passesNode⟩ := passes_addOperator prop h₂.wellFormed (h₂.within hb₁)
      ⟨prop.grow passesLeft h₂.grows, (ownedLeft.grow h₂.grows).1⟩ ⟨passesRight, ownedRight.1⟩ hadd
    exact ⟨(first.trans prop second).trans prop third, passesNode⟩
  | .unary op operand, written, v, now, run => by
    unfold Build.lower at run
    obtain ⟨u, w₁, hu, run⟩ := run_bind_eq_ok run
    obtain ⟨h₁, owned, -⟩ := lower_eq_ok h hb hu
    obtain ⟨first, passesOperand⟩ := passes_lower h hb operand written hu
    rcases applySign_eq_ok run with
      ⟨-, rfl, rfl⟩ | ⟨-, s, hs, rfl, rfl⟩ | ⟨-, -, n, rfl, hadd⟩
    · exact ⟨first, passesOperand⟩
    · exact ⟨first, prop.negated_of_number? hs passesOperand⟩
    · obtain ⟨second, passesNode⟩ := passes_addOperator prop h₁.wellFormed (h₁.within hb)
        ⟨prop.scalar w₁ (s := .int (-1)) (by simp), Value.within_of_refs_eq_nil rfl⟩
        ⟨passesOperand, owned.1⟩ hadd
      exact ⟨first.trans prop second, passesNode⟩
  | .call name arguments, written, v, now, run => by
    unfold Build.lower at run
    obtain ⟨vs, w₁, hvs, run⟩ := run_bind_eq_ok run
    obtain ⟨n, w₂, hinvoke, run⟩ := run_bind_eq_ok run
    cases run
    obtain ⟨h₁, within⟩ := lowerAll_eq_ok h hb hvs
    obtain ⟨first, passesArguments⟩ := passes_lowerAll h hb arguments written hvs
    have carried : (Value.list vs).Carries (P w₁) := passesArguments
    obtain ⟨second, passesNode⟩ := passes_invoke prop h₁.wellFormed (h₁.within hb) carried
      (Value.within_list.2 within) hinvoke
    exact ⟨first.trans prop second, passesNode⟩
  | .group inner, written, v, now, run => by
    unfold Build.lower at run
    exact passes_lower h hb inner written run

theorem passes_lowerAll {ws : Workspace} (h : ws.WellFormed) (hb : b.index < ws.builders.size) :
    (ts : List Formula.Tree) →
    (∀ x ∈ Formula.Tree.doublesOfAll ts, ∀ ws, P ws (.float x)) → {vs : List Value} →
    {now : Workspace} → (Build.lowerAll b ts).run ws = (.ok vs, now) →
    Passes P b ws now ∧ ∀ v ∈ vs, P now v
  | [], _, vs, now, run => by
    unfold Build.lowerAll at run
    cases run
    exact ⟨.quiet (.refl _) rfl, List.forall_mem_nil _⟩
  | t :: ts, written, vs, now, run => by
    unfold Build.lowerAll at run
    obtain ⟨v, w₁, hv, run⟩ := run_bind_eq_ok run
    obtain ⟨vs', w₂, hvs, run⟩ := run_bind_eq_ok run
    cases run
    obtain ⟨h₁, -⟩ := lower_eq_ok h hb hv
    obtain ⟨first, passesValue⟩ :=
      passes_lower h hb t (fun x hx => written x (List.mem_append_left _ hx)) hv
    have hb₁ := h₁.within hb
    obtain ⟨h₂, -⟩ := lowerAll_eq_ok h₁.wellFormed hb₁ hvs
    obtain ⟨second, passesRest⟩ := passes_lowerAll h₁.wellFormed hb₁ ts
      (fun x hx => written x (List.mem_append_right _ hx)) hvs
    refine ⟨first.trans prop second, fun w hw => ?_⟩
    rcases List.mem_cons.1 hw with rfl | hw
    · exact prop.grow passesValue h₂.grows
    · exact passesRest w hw

end

end

end ProcessGraph
