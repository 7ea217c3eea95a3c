import ProcessGraph.Proofs.Graph.CallDeclarations

/-!
# What formulas declare

Lowering a formula declares the parameters that its identifiers stand for, and whenever a node gets
an argument, the parameters that are reached from it again. These are the parameters of identifiers
and those behind the nodes that the formula refers to (`Workspace.DeclaredBy`). The induction over
the formula is about a workspace that has come from an earlier one by such declarations and by nodes
that reach nothing else (`Workspace.DeclaresOnly`).

Main statement: the declaration of a name is left alone if no such parameter is called so, and that
of an identifier gets an empty schema and an empty description (`lower_redeclares`). So a formula
keeps what is declared for an identifier only if there was nothing to lose
(`declaration?_lower_eq_iff`).
-/

set_option autoImplicit false

namespace ProcessGraph

/-! ## Identifiers -/

/-- Names that do not start with a dollar are no elements. -/
theorem Reference.ofName_congr {name : String} (h : Build.startsWithDollar name = false)
    (m n : Nat) : Reference.ofName name m = Reference.ofName name n := by
  unfold Reference.ofName
  split
  · rfl
  · split
    · rfl
    · rename_i cs e
      rw [Build.startsWithDollar, e] at h
      cases h
    · rfl

theorem Reference.eq_of_ofName {name text : String} {n : Nat}
    (h : Reference.ofName name n = .parameter text) : text = name := by
  unfold Reference.ofName at h
  split at h
  · cases h
  · split at h
    · cases h
    · dsimp only at h
      split at h <;> cases h
      rfl
    · cases h
      rfl

/-- The callback parameters of a builder count only for names that start with a dollar. -/
theorem Reference.ofName_passed {ws : Workspace} {b : BuilderRef} {name : String}
    {names : List Value}
    (h : (if Build.startsWithDollar name then ws.parentNames b else .ok []) = .ok names) :
    Reference.ofName name names.length = Reference.ofName name (ws.passed b).length := by
  split at h
  · unfold Workspace.passed
    rw [h]
    rfl
  · rename_i plain
    exact Reference.ofName_congr (by simpa using plain) _ _

/-! ## Steps of a formula -/

namespace Workspace

/-- All parameters that are reached from a value and declared in the builder have a property. -/
def Confines (ws : Workspace) (b : BuilderRef) (Q : Parameter → Prop) (v : Value) : Prop :=
  ∀ x ∈ v.refs, ∀ r, ws.Reaches x r → ws.declares b (ws.parameter r) → Q (ws.parameter r)

/-- A workspace that has come from `base` by declaring parameters on the root, all of which have a
property, and by giving the builder nodes that reach no others. -/
structure DeclaresOnly (b : BuilderRef) (Q : Parameter → Prop) (base : Workspace)
    (ps : List Parameter) (now : Workspace) : Prop extends base.Appends now where
  names : now.parentNames b = base.parentNames b
  declared : Redeclares (base.root b) ps base now
  only : ∀ p ∈ ps, Q p
  confined : ∀ p ∈ (now.builder b).nodes, base.NewNode p.2 → now.Confines b Q (.node p.2)

/-- The identifier stands for a parameter that is declared when it is used in the builder. -/
def NamesParameter (ws : Workspace) (b : BuilderRef) (name : String) : Prop :=
  Reference.ofName name (ws.passed b).length = .parameter name ∧
    ws.passes b (.str name) = false

/-- What an identifier stands for reaches no parameters but those with a property. -/
structure Admits (ws : Workspace) (b : BuilderRef) (Q : Parameter → Prop) (name : String) :
    Prop where
  parameter : ws.NamesParameter b name → Q (.named name)
  node : ∀ id n, Reference.ofName name (ws.passed b).length = .node id →
    Dictionary.get? id (ws.builder b).nodes = some n → ws.Confines b Q (.node n)

section
variable {base ws now : Workspace} {b : BuilderRef} {Q : Parameter → Prop} {v : Value}

theorem Confines.grow (hc : ws.Confines b Q v) (h : ws.WellFormed) (g : ws.Grows now)
    (same : now.parentNames b = ws.parentNames b) (hv : v.Within ws) : now.Confines b Q v := by
  intro x hx r reached declares
  have before := reached.of_grow h g (hv x hx)
  rw [g.parameter r (before.within h (hv x hx)), declares_congr same] at declares
  rw [g.parameter r (before.within h (hv x hx))]
  exact hc x hx r before declares

theorem confines_of_refs_eq_nil (h : v.refs = []) : ws.Confines b Q v := by
  intro x hx
  rw [h] at hx
  cases hx

theorem confines_list {vs : List Value} (h : ∀ v ∈ vs, ws.Confines b Q v) :
    ws.Confines b Q (.list vs) := by
  intro x hx
  obtain ⟨v, hv, hx⟩ := Value.mem_refs_list.1 hx
  exact h v hv x hx

theorem confines_dict {d : Value.Entries} (h : ∀ p ∈ d, ws.Confines b Q p.2) :
    ws.Confines b Q (.dict d) := by
  intro x hx
  obtain ⟨p, hp, hx⟩ := Value.mem_refs_dict.1 hx
  exact h p hp x hx

/-- A node reaches what its arguments reach. -/
theorem confines_node {n : NodeRef} (h : ∀ x ∈ Value.refsInEntries (ws.node n).arguments,
    ∀ r, ws.Reaches x r → ws.declares b (ws.parameter r) → Q (ws.parameter r)) :
    ws.Confines b Q (.node n) := by
  intro x hx r reached
  cases List.mem_singleton.1 hx
  cases reached with
  | node hx hr => exact h _ hx r hr

end

namespace DeclaresOnly

variable {base ws now : Workspace} {b : BuilderRef} {Q : Parameter → Prop}
  {ps more : List Parameter} (e : DeclaresOnly b Q base ps ws) (hb : b.index < base.builders.size)
include e hb

theorem within : b.index < ws.builders.size := Nat.lt_of_lt_of_le hb e.grows.builders

theorem step (a : ws.Appends now) (same : now.parentNames b = ws.parentNames b)
    (declared : Redeclares (ws.root b) more ws now) (only : ∀ p ∈ more, Q p)
    (made : ∀ p ∈ (now.builder b).nodes, ws.NewNode p.2 → now.Confines b Q (.node p.2)) :
    DeclaresOnly b Q base (ps ++ more) now := by
  rw [e.start.root_eq e.grows hb] at declared
  refine { e.toAppends.trans a with
    names := same.trans e.names
    declared := e.declared.trans declared
    only := fun p hp => (List.mem_append.1 hp).elim (e.only p) (only p)
    confined := fun p hp new => ?_ }
  rcases (a.nodes b (e.within hb)).mem hp with old | new'
  · have hn := ((e.wellFormed.builder b (e.within hb)).nodes p.1 p.2 old).1
    exact (e.confined p old new).grow e.wellFormed a.grows same (Value.within_node.2 hn)
  · exact made p hp new'

/-- Steps that register no nodes. -/
theorem declare (a : ws.Appends now) (same : now.parentNames b = ws.parentNames b)
    (declared : Redeclares (ws.root b) more ws now) (only : ∀ p ∈ more, Q p)
    (nodes : (now.builder b).nodes = (ws.builder b).nodes) :
    DeclaresOnly b Q base (ps ++ more) now := by
  refine e.step hb a same declared only fun p hp new => ?_
  rw [nodes] at hp
  have old := ((e.wellFormed.builder b (e.within hb)).nodes p.1 p.2 hp).1
  exact absurd old (Nat.not_lt.2 new)

/-- Steps that do not declare parameters, either. -/
theorem quiet (a : ws.Appends now) (same : now.parentNames b = ws.parentNames b)
    (declared : Redeclares (ws.root b) [] ws now)
    (nodes : (now.builder b).nodes = (ws.builder b).nodes) : DeclaresOnly b Q base ps now :=
  List.append_nil ps ▸ e.declare hb a same declared (fun _ hp => nomatch hp) nodes

theorem quiet_of_extends (ext : ws.Extends (fun _ => False) (fun _ => False) now) :
    DeclaresOnly b Q base ps now :=
  e.quiet hb ext.appends (ext.kept.parentNames e.wellFormed (e.within hb))
    (ext.redeclares e.wellFormed (e.within hb))
    ((ext.kept.content b (e.within hb)).untouched.resolve_left id).1

theorem invoke {process : String} {arguments : Value} {n : NodeRef} (hv : arguments.Within ws)
    (hc : ws.Confines b Q arguments)
    (run : (Build.invoke b process arguments).run ws = (.ok n, now)) :
    ∃ more, DeclaresOnly b Q base (ps ++ more) now ∧ now.Confines b Q (.node n) := by
  have hw := e.within hb
  obtain ⟨ext, g, is, -, -, nodes, -⟩ := (Build.ensures_invoke (e.wellFormed.extends _ _)
    (open_of_within hw) process hv .null none).of_run run
  obtain ⟨more, declared, all⟩ := redeclares_invoke e.wellFormed hw hv run
  have same := ext.kept.parentNames e.wellFormed hw
  have hc' := hc.grow e.wellFormed g same hv
  have made : now.Confines b Q (.node n) := confines_node fun x hx =>
    hc' x (Specification.refs_of_bindArguments is.arguments x hx)
  refine ⟨more, e.step hb ext.appends same declared (fun p hp => ?_) fun p hp new => ?_, made⟩
  · obtain ⟨declares, x, hx, r, reached, rfl⟩ := all p hp
    exact hc x hx r reached declares
  · rw [nodes] at hp
    rcases List.mem_append.1 hp with hp | hp
    · exact absurd ((e.wellFormed.builder b hw).nodes p.1 p.2 hp).1 (Nat.not_lt.2 new)
    · cases List.mem_singleton.1 hp
      exact made

/-- Elements reach callback parameters only, which are not declared. -/
theorem element {a : AccessRef} {key : ElementKey} {n : NodeRef} (ha : a.index < ws.accesses.size)
    (own : (ws.access a).builder = b) (run : (Build.element a key).run ws = (.ok n, now)) :
    ∃ more, DeclaresOnly b Q base (ps ++ more) now ∧ now.Confines b Q (.node n) := by
  have ok := e.wellFormed.access a ha
  have hc : ws.Confines b Q (.object [("data", .parameter (ws.access a).parameter),
      (key.argument, key.toValue)]) := by
    intro x hx r reached declares
    rw [Build.refs_elementArguments x hx] at reached
    cases reached
    obtain ⟨k, hk⟩ := ok.listed
    obtain ⟨-, -, -, isCallback⟩ :=
      (e.wellFormed.builder _ ok.builder).callbackParameters k a (Dictionary.mem_of_get? hk)
    have isCallback : ws.parameter (ws.access a).parameter = .ofCallback k.toValue := isCallback
    rw [isCallback] at declares
    cases declares
  rcases element_eq_ok run with ⟨known, rfl⟩ | ⟨w₁, invoked, g, nodes, builders, names⟩
  · have is := ok.elements key n (Dictionary.mem_of_get? known)
    refine ⟨[], (List.append_nil ps).symm ▸ e, confines_node fun x hx => ?_⟩
    rw [is.arguments] at hx
    exact hc x hx
  · rw [own] at invoked
    obtain ⟨more, e₁, made⟩ := e.invoke hb
      (fun x hx => Build.refs_elementArguments x hx ▸ ok.parameter) hc invoked
    obtain ⟨ext, -, is⟩ := (Build.ensures_element (e.wellFormed.extends _ _) ha
      (own.symm ▸ open_of_within (e.within hb)) key).of_run run
    have same (c : BuilderRef) : now.builder c = w₁.builder c := by
      simp only [Workspace.builder, builders]
    have names := parentNames_of_same e₁.wellFormed g (e₁.within hb) names
      (congrArg Builder.parentNode (same b)) (congrArg Builder.parentParameter (same b))
    refine ⟨more, e₁.quiet hb (e₁.wellFormed.appends_of_eq ext.wellFormed g fun c _ => ?_) names
      (.of_eq ?_) ?_, made.grow e₁.wellFormed g names (Value.within_node.2 ?_)⟩
    · rw [same]
    · rw [same]
    · rw [same]
    · exact nodes ▸ is.within

/-- A parameter is made for an identifier, and declared unless a callback parameter has its name. -/
theorem parameter {name : String} {v : Value}
    (admitted : base.passes b (.str name) = false → Q (.named name))
    (run : (do
      let r ← Build.newParameter (.named name)
      Build.addParameter b (Parameter.named name).declaration
      return .parameter r : Build Value).run ws = (.ok v, now)) :
    ∃ more, DeclaresOnly b Q base (ps ++ more) now ∧ now.Confines b Q v ∧
      (base.passes b (.str name) = false → .named name ∈ more) := by
  obtain ⟨r, w₁, made, rest⟩ := run_bind_eq_ok run
  obtain ⟨⟨⟩, w₂, declared, rest⟩ := run_bind_eq_ok rest
  cases rest
  obtain ⟨ext₁, -, -, -, hr, is⟩ := (Build.ensures_newParameter
    (e.wellFormed.extends (fun _ => False) fun _ => False) _).of_run made
  have e₁ := e.quiet_of_extends hb ext₁
  obtain ⟨ext₂, g₂, same⟩ := (Build.ensures_addParameter
    (e₁.wellFormed.extends (fun _ => True) fun _ => True) (e₁.within hb) _ true
    (.inl trivial)).of_run declared
  have names := ext₂.kept.parentNames e₁.wellFormed (e₁.within hb)
  have declared := redeclares_addParameter e₁.wellFormed (e₁.within hb) declared
  have shadow : base.passes b (Parameter.named name).name = base.passes b (.str name) := rfl
  rw [passes_congr e₁.names, shadow] at declared
  refine ⟨_, e₁.declare hb ext₂.appends names declared (fun p hp => ?_)
    (same.registered b (e₁.within hb)), fun x hx q reached declares => ?_, fun free => ?_⟩
  · cases free : base.passes b (.str name) with
    | true =>
      rw [free, if_pos rfl] at hp
      cases hp
    | false =>
      rw [free, if_neg Bool.false_ne_true] at hp
      rw [List.mem_singleton.1 hp]
      exact admitted free
  · cases List.mem_singleton.1 hx
    cases reached
    rw [g₂.parameter r hr, is] at declares ⊢
    rw [declares_congr (names.trans e₁.names)] at declares
    refine admitted ?_
    have free : (!base.passes b (Parameter.named name).name) = true :=
      (Bool.and_eq_true_iff.1 declares).2
    simpa [shadow] using free
  · rw [free, if_neg Bool.false_ne_true]
    exact List.mem_singleton.2 rfl

theorem resolve {name : String} {v : Value} (admits : base.Admits b Q name)
    (run : (Build.resolve b name).run ws = (.ok v, now)) :
    ∃ more, DeclaresOnly b Q base (ps ++ more) now ∧ now.Confines b Q v ∧
      (base.NamesParameter b name → .named name ∈ more) := by
  rw [Build.resolve_eq] at run
  obtain ⟨as, w₁, accesses, rest⟩ := run_bind_eq_ok run
  obtain ⟨ext, -, -, names, hnames, has⟩ := (Build.ensures_accessesFor
    (e.wellFormed.extends (fun _ => False) fun _ => False) (e.within hb) name).of_run accesses
  have e₁ := e.quiet_of_extends hb ext
  have meant : Reference.ofName name as.length = Reference.ofName name (base.passed b).length := by
    rw [← has.length_eq]
    exact Reference.ofName_passed (e.names ▸ hnames)
  -- An identifier that is no parameter declares nothing.
  have other {reference : Reference} (href : Reference.ofName name as.length = reference)
      (ne : reference ≠ .parameter name) {more : List Parameter} :
      base.NamesParameter b name → .named name ∈ more := fun is =>
    absurd (href.symm.trans (meant.trans is.1)) ne
  unfold Build.resolveWith at rest
  split at rest
  · rename_i w href
    cases rest
    exact ⟨[], (List.append_nil ps).symm ▸ e₁, confines_of_refs_eq_nil
      (Value.refs_of_literals (Reference.ofName_eq_literal href)), other href nofun⟩
  · rename_i id href
    rw [Build.run_get_bind] at rest
    split at rest
    · rename_i n found
      cases rest
      refine ⟨[], (List.append_nil ps).symm ▸ e₁, ?_, other href nofun⟩
      by_cases new : base.NewNode n
      · exact e₁.confined _ (Dictionary.mem_of_get? found) new
      · have old := (e₁.nodes b hb).get?_old found new
        have hn := ((e.start.builder b hb).nodes id n (Dictionary.mem_of_get? old)).1
        exact (admits.node id n (meant.symm.trans href) old).grow e.start e₁.grows e₁.names
          (Value.within_node.2 hn)
    · cases rest
  · rename_i depth key href
    split at rest <;> dsimp only at rest <;> split at rest
    · cases rest
    · rename_i a ha _
      obtain ⟨n, w₂, made, rest⟩ := run_bind_eq_ok rest
      cases rest
      obtain ⟨_, -, is⟩ := exists_of_forall₂_of_mem has (List.mem_of_getElem? ha)
      obtain ⟨k, -, made⟩ := elementAt_eq_element made
      obtain ⟨more, e₂, reached⟩ := e₁.element hb is.within is.builder made
      exact ⟨more, e₂, reached, other href nofun⟩
    · cases rest
    · cases rest
  · rename_i text href
    obtain rfl := Reference.eq_of_ofName href
    obtain ⟨more, e₂, reached, mem⟩ := e₁.parameter hb
      (fun free => admits.parameter ⟨meant.symm.trans href, free⟩) rest
    exact ⟨more, e₂, reached, fun is => mem is.2⟩

theorem addOperator {op : String} {left right : Value} {n : NodeRef}
    (hl : left.Within ws ∧ ws.Confines b Q left) (hr : right.Within ws ∧ ws.Confines b Q right)
    (run : (Build.addOperator b op left right).run ws = (.ok n, now)) :
    ∃ more, DeclaresOnly b Q base (ps ++ more) now ∧ now.Confines b Q (.node n) := by
  obtain ⟨process, spec, entries, -, -, bound, run⟩ := addOperator_eq_invoke run
  have given (p : Scalar × Value) (hp : p ∈ entries) : p.2.Within ws ∧ ws.Confines b Q p.2 := by
    rcases mem_of_operatorArguments bound hp with same | same
    · exact same ▸ hl
    · exact same ▸ hr
  exact e.invoke hb (Value.within_dict.2 fun p hp => (given p hp).1)
    (confines_dict fun p hp => (given p hp).2) run

end DeclaresOnly

end Workspace

/-! ## Formulas -/

namespace Formula.Tree

mutual

/-- The identifiers of a formula, from left to right. -/
def identifiers : Tree → List String
  | .number _ => []
  | .identifier name => [name]
  | .binary _ left right => left.identifiers ++ right.identifiers
  | .unary _ operand => operand.identifiers
  | .call _ arguments => identifiersOfAll arguments
  | .group inner => inner.identifiers

def identifiersOfAll : List Tree → List String
  | [] => []
  | t :: ts => t.identifiers ++ identifiersOfAll ts

end

end Formula.Tree

section
variable {base : Workspace} {b : BuilderRef} {Q : Parameter → Prop}
  (hb : b.index < base.builders.size)
include hb

open Workspace

mutual

theorem declaresOnly_lower {ws : Workspace} {ps : List Parameter}
    (e : DeclaresOnly b Q base ps ws) : (t : Formula.Tree) →
    (∀ name ∈ t.identifiers, base.Admits b Q name) → {v : Value} → {now : Workspace} →
    (Build.lower b t).run ws = (.ok v, now) →
    ∃ more, DeclaresOnly b Q base (ps ++ more) now ∧ now.Confines b Q v ∧
      ∀ name ∈ t.identifiers, base.NamesParameter b name → .named name ∈ more
  | .number value, _, v, now, run => by
    unfold Build.lower at run
    cases run
    exact ⟨[], (List.append_nil ps).symm ▸ e, confines_of_refs_eq_nil value.refs_toValue,
      fun _ hname => nomatch hname⟩
  | .identifier name, admits, v, now, run => by
    unfold Build.lower at run
    obtain ⟨more, e₁, reached, mem⟩ := e.resolve hb (admits name List.mem_cons_self) run
    refine ⟨more, e₁, reached, fun text htext => ?_⟩
    obtain rfl := List.mem_singleton.1 htext
    exact mem
  | .binary op left right, admits, v, now, run => by
    unfold Build.lower at run
    obtain ⟨l, w₁, hl, run⟩ := run_bind_eq_ok run
    obtain ⟨r, w₂, hr, run⟩ := run_bind_eq_ok run
    obtain ⟨n, w₃, hadd, run⟩ := run_bind_eq_ok run
    cases run
    unfold Formula.Tree.identifiers at admits ⊢
    obtain ⟨h₁, ownedLeft, -⟩ := lower_eq_ok e.wellFormed (e.within hb) hl
    obtain ⟨more₁, e₁, reachedLeft, memLeft⟩ := declaresOnly_lower e left
      (fun name hname => admits name (List.mem_append_left _ hname)) hl
    obtain ⟨h₂, ownedRight, -⟩ := lower_eq_ok e₁.wellFormed (e₁.within hb) hr
    obtain ⟨more₂, e₂, reachedRight, memRight⟩ := declaresOnly_lower e₁ right
      (fun name hname => admits name (List.mem_append_right _ hname)) hr
    have reachedLeft := reachedLeft.grow e₁.wellFormed h₂.grows
      (h₂.kept.parentNames e₁.wellFormed (e₁.within hb)) ownedLeft.1
    obtain ⟨more₃, e₃, reached⟩ := e₂.addOperator hb
      ⟨(ownedLeft.grow h₂.grows).1, reachedLeft⟩ ⟨ownedRight.1, reachedRight⟩ hadd
    refine ⟨more₁ ++ more₂ ++ more₃, by simpa only [List.append_assoc] using e₃, reached,
      fun name hname is => List.mem_append_left _ ?_⟩
    rcases List.mem_append.1 hname with hname | hname
    · exact List.mem_append_left _ (memLeft name hname is)
    · exact List.mem_append_right _ (memRight name hname is)
  | .unary op operand, admits, v, now, run => by
    unfold Build.lower at run
    obtain ⟨u, w₁, hu, run⟩ := run_bind_eq_ok run
    unfold Formula.Tree.identifiers at admits ⊢
    obtain ⟨-, owned, -⟩ := lower_eq_ok e.wellFormed (e.within hb) hu
    obtain ⟨more, e₁, reached, mem⟩ := declaresOnly_lower e operand admits hu
    rcases applySign_eq_ok run with
      ⟨-, rfl, rfl⟩ | ⟨-, s, -, rfl, rfl⟩ | ⟨-, -, n, rfl, hadd⟩
    · exact ⟨more, e₁, reached, mem⟩
    · exact ⟨more, e₁, confines_of_refs_eq_nil s.negated.refs_toValue, mem⟩
    · obtain ⟨more', e₂, reached⟩ := e₁.addOperator hb
        ⟨Value.within_of_refs_eq_nil rfl, confines_of_refs_eq_nil rfl⟩ ⟨owned.1, reached⟩ hadd
      exact ⟨more ++ more', by simpa only [List.append_assoc] using e₂, reached,
        fun name hname is => List.mem_append_left _ (mem name hname is)⟩
  | .call name arguments, admits, v, now, run => by
    unfold Build.lower at run
    obtain ⟨vs, w₁, hvs, run⟩ := run_bind_eq_ok run
    obtain ⟨n, w₂, hinvoke, run⟩ := run_bind_eq_ok run
    cases run
    unfold Formula.Tree.identifiers at admits ⊢
    obtain ⟨-, within⟩ := lowerAll_eq_ok e.wellFormed (e.within hb) hvs
    obtain ⟨more, e₁, reached, mem⟩ := declaresOnly_lowerAll e arguments admits hvs
    obtain ⟨more', e₂, reached⟩ := e₁.invoke hb (Value.within_list.2 within)
      (confines_list reached) hinvoke
    exact ⟨more ++ more', by simpa only [List.append_assoc] using e₂, reached,
      fun name hname is => List.mem_append_left _ (mem name hname is)⟩
  | .group inner, admits, v, now, run => by
    unfold Build.lower at run
    unfold Formula.Tree.identifiers at admits ⊢
    exact declaresOnly_lower e inner admits run

theorem declaresOnly_lowerAll {ws : Workspace} {ps : List Parameter}
    (e : DeclaresOnly b Q base ps ws) : (ts : List Formula.Tree) →
    (∀ name ∈ Formula.Tree.identifiersOfAll ts, base.Admits b Q name) → {vs : List Value} →
    {now : Workspace} → (Build.lowerAll b ts).run ws = (.ok vs, now) →
    ∃ more, DeclaresOnly b Q base (ps ++ more) now ∧ (∀ v ∈ vs, now.Confines b Q v) ∧
      ∀ name ∈ Formula.Tree.identifiersOfAll ts, base.NamesParameter b name → .named name ∈ more
  | [], _, vs, now, run => by
    unfold Build.lowerAll at run
    cases run
    refine ⟨[], (List.append_nil ps).symm ▸ e, fun v hv => ?_, fun name hname => ?_⟩
    · cases hv
    · cases hname
  | t :: ts, admits, vs, now, run => by
    unfold Build.lowerAll at run
    obtain ⟨v, w₁, hv, run⟩ := run_bind_eq_ok run
    obtain ⟨vs', w₂, hvs, run⟩ := run_bind_eq_ok run
    cases run
    unfold Formula.Tree.identifiersOfAll at admits ⊢
    obtain ⟨h₁, owned, -⟩ := lower_eq_ok e.wellFormed (e.within hb) hv
    obtain ⟨more₁, e₁, reachedFirst, memFirst⟩ := declaresOnly_lower e t
      (fun name hname => admits name (List.mem_append_left _ hname)) hv
    obtain ⟨h₂, -⟩ := lowerAll_eq_ok e₁.wellFormed (e₁.within hb) hvs
    obtain ⟨more₂, e₂, reachedRest, memRest⟩ := declaresOnly_lowerAll e₁ ts
      (fun name hname => admits name (List.mem_append_right _ hname)) hvs
    refine ⟨more₁ ++ more₂, by simpa only [List.append_assoc] using e₂, fun w hw => ?_,
      fun name hname is => ?_⟩
    · rcases List.mem_cons.1 hw with rfl | hw
      · exact reachedFirst.grow e₁.wellFormed h₂.grows
          (h₂.kept.parentNames e₁.wellFormed (e₁.within hb)) owned.1
      · exact reachedRest w hw
    · rcases List.mem_append.1 hname with hname | hname
      · exact List.mem_append_left _ (memFirst name hname is)
      · exact List.mem_append_right _ (memRest name hname is)

end

end

/-- The parameters that a formula declares. -/
inductive Workspace.DeclaredBy (ws : Workspace) (b : BuilderRef) (t : Formula.Tree) :
    Parameter → Prop
  | identifier {name : String} (hname : name ∈ t.identifiers) (is : ws.NamesParameter b name) :
      DeclaredBy ws b t (.named name)
  /-- The formula refers to a node that reaches the parameter. -/
  | node {name id : String} {n : NodeRef} {r : ParameterRef} (hname : name ∈ t.identifiers)
      (is : Reference.ofName name (ws.passed b).length = .node id)
      (hn : Dictionary.get? id (ws.builder b).nodes = some n) (hr : ws.Reaches (.node n) r)
      (declares : ws.declares b (ws.parameter r)) : DeclaredBy ws b t (ws.parameter r)

/-- The declaration of a name on the root of a builder. -/
def Workspace.declaration? (ws : Workspace) (b : BuilderRef) (s : String) : Option Value.Entries :=
  (ws.builder (ws.root b)).metadata.parameters.declaration? s

/-- The declaration of a name after parameters have been declared one after the other. -/
theorem Workspace.Redeclares.declaration?_eq {ws now : Workspace} {b : BuilderRef}
    {ps : List Parameter} (declared : Workspace.Redeclares (ws.root b) ps ws now)
    (root : now.root b = ws.root b) (s : String) :
    now.declaration? b s = Value.merged s (ws.declaration? b s) (ps.map Parameter.declaration) := by
  unfold Workspace.declaration?
  rw [root]
  exact declaration?_declareEach (List.forall_mem_map.2 fun p _ => p.nodup_declaration) declared s

section
variable {ws now : Workspace} {b : BuilderRef} {t : Formula.Tree} {v : Value} (h : ws.WellFormed)
  (hb : b.index < ws.builders.size)
include h hb

theorem Workspace.WellFormed.declaresOnly (Q : Parameter → Prop) : ws.DeclaresOnly b Q [] ws :=
  { h.appends with
    names := rfl
    declared := .of_eq rfl
    only := fun _ hp => nomatch hp
    confined := fun p hp new =>
      absurd ((h.builder b hb).nodes p.1 p.2 hp).1 (Nat.not_lt.2 new) }

/-- The parameters of the root after a formula are those from before, with declarations of what the
formula declares, among them one for each identifier that stands for a parameter. -/
theorem redeclares_lower (run : (Build.lower b t).run ws = (.ok v, now)) :
    ∃ ps, Workspace.Redeclares (ws.root b) ps ws now ∧ (∀ p ∈ ps, ws.DeclaredBy b t p) ∧
      ∀ name ∈ t.identifiers, ws.NamesParameter b name → .named name ∈ ps := by
  have admits : ∀ name ∈ t.identifiers, ws.Admits b (ws.DeclaredBy b t) name := fun name hname => by
    refine ⟨fun is => .identifier hname is, fun id n is hn x hx r reached declares => ?_⟩
    cases List.mem_singleton.1 hx
    exact .node hname is hn reached declares
  obtain ⟨ps, e, -, mem⟩ := declaresOnly_lower hb (h.declaresOnly hb _) t admits run
  exact ⟨ps, e.declared, e.only, mem⟩

theorem root_of_lower (run : (Build.lower b t).run ws = (.ok v, now)) : now.root b = ws.root b :=
  h.root_eq (lower_eq_ok h hb run).1.grows hb

/-- Names that nothing is called that the formula declares. -/
theorem declaration?_lower_of_ne (run : (Build.lower b t).run ws = (.ok v, now)) {s : String}
    (other : ∀ p, ws.DeclaredBy b t p → p.name ≠ .str s) :
    now.declaration? b s = ws.declaration? b s := by
  obtain ⟨ps, declared, all, -⟩ := redeclares_lower h hb run
  rw [declared.declaration?_eq (root_of_lower h hb run)]
  exact Value.merged_of_ne _ (List.forall_mem_map.2 fun p hp called => other p (all p hp) called)

/-- The name of an identifier, if the formula declares nothing else that is called so. -/
theorem declaration?_lower_of_mem (run : (Build.lower b t).run ws = (.ok v, now)) {s : String}
    (hs : s ∈ t.identifiers) (is : ws.NamesParameter b s)
    (only : ∀ p, ws.DeclaredBy b t p → p.name = .str s → p = .named s) :
    now.declaration? b s = some (Dictionary.insertAll ((ws.declaration? b s).getD [])
      (Parameter.named s).declaration) := by
  obtain ⟨ps, declared, all, mem⟩ := redeclares_lower h hb run
  rw [declared.declaration?_eq (root_of_lower h hb run)]
  refine Value.merged_of_eq _ (List.mem_map_of_mem (mem s hs is)) rfl ?_
  exact List.forall_mem_map.2 fun p hp called => by rw [only p (all p hp) called]

end

/-! ## What is kept -/

/-- Merging the declaration of an identifier changes nothing if schema and description are empty. -/
theorem insertAll_named_eq_self_iff {s : String} {d : Value.Entries} (h : Value.IsCalled s d) :
    Dictionary.insertAll d (Parameter.named s).declaration = d ↔
      Value.field? "schema" d = some (.dict []) ∧
      Value.field? "description" d = some (.str "") := by
  have named : Value.field? "name" d = some (.str s) := by
    unfold Value.IsCalled Value.field at h
    cases hn : Value.field? "name" d with
    | none => rw [hn] at h; cases h
    | some v => rw [hn] at h; exact congrArg some h
  rw [Dictionary.insertAll_eq_self_iff (Parameter.named s).nodup_declaration]
  constructor
  · intro all
    exact ⟨all (.str "schema", .dict []) (by simp [Parameter.declaration, Parameter.named]),
      all (.str "description", .str "") (by simp [Parameter.declaration, Parameter.named])⟩
  · rintro ⟨schema, description⟩ p hp
    simp only [Parameter.declaration, Parameter.named, List.append_nil, List.mem_cons,
      List.not_mem_nil, or_false] at hp
    rcases hp with rfl | rfl | rfl
    · exact named
    · exact schema
    · exact description

section
variable {ws now : Workspace} {b : BuilderRef} {t : Formula.Tree} {v : Value} (h : ws.Reachable)
  (hb : b.index < ws.builders.size)
include h hb

/-- A formula without nodes keeps a declaration exactly if it does not mention its name, or schema
and description are empty anyway. -/
theorem declaration?_lower_eq_iff (run : (Build.lower b t).run ws = (.ok v, now))
    (plain : ∀ name ∈ t.identifiers, ∀ id,
      Reference.ofName name (ws.passed b).length ≠ .node id)
    {s : String} {d : Value.Entries} (declared : ws.declaration? b s = some d) :
    now.declaration? b s = some d ↔
      (s ∈ t.identifiers → ws.NamesParameter b s →
        Value.field? "schema" d = some (.dict []) ∧
        Value.field? "description" d = some (.str "")) := by
  have named : ∀ p, ws.DeclaredBy b t p → p.name = .str s →
      p = .named s ∧ s ∈ t.identifiers ∧ ws.NamesParameter b s := by
    rintro p (⟨hname, is⟩ | ⟨hname, is, _, _, _⟩) called
    · cases called
      exact ⟨rfl, hname, is⟩
    · exact absurd is (plain _ hname _)
  have called := Value.isCalled_of_declaration? declared
  by_cases mentioned : s ∈ t.identifiers ∧ ws.NamesParameter b s
  · rw [declaration?_lower_of_mem h.wellFormed hb run mentioned.1 mentioned.2
      fun p hp e => (named p hp e).1, declared, Option.getD_some, Option.some.injEq,
      insertAll_named_eq_self_iff called]
    exact ⟨fun e _ _ => e, fun e => e mentioned.1 mentioned.2⟩
  · rw [declaration?_lower_of_ne h.wellFormed hb run fun p hp e => mentioned (named p hp e).2]
    exact iff_of_true declared fun hs is => absurd ⟨hs, is⟩ mentioned

/-- **What a formula does to declared parameters.** The declaration of a name stays as it is if
nothing that the formula declares is called so. The declaration of an identifier gets an empty
schema and an empty description and keeps its other entries; if there is none, it is added. -/
theorem lower_redeclares (run : (Build.lower b t).run ws = (.ok v, now)) (s : String) :
    ((∀ p, ws.DeclaredBy b t p → p.name ≠ .str s) →
      now.declaration? b s = ws.declaration? b s) ∧
    (s ∈ t.identifiers → ws.NamesParameter b s →
      (∀ p, ws.DeclaredBy b t p → p.name = .str s → p = .named s) →
      now.declaration? b s = some (Dictionary.insertAll ((ws.declaration? b s).getD [])
        (Parameter.named s).declaration)) :=
  ⟨declaration?_lower_of_ne h.wellFormed hb run, declaration?_lower_of_mem h.wellFormed hb run⟩

end

/-! ## An offset that is documented -/

/-- The number 5, unless another one is given. -/
def documentedOffset : Parameter :=
  ⟨.str "offset", .object [("type", .str "number")], .str "Added to every value", some (.int 5)⟩

/-- A builder that knows addition and multiplication, with a declared parameter. -/
def Workspace.documented : Workspace :=
  ((Build.addParameter ⟨0⟩ documentedOffset.declaration).run .arithmetic).2

/-- `offset + 1` -/
def offsetPlusOne : Formula.Tree := .binary "+" (.identifier "offset") (.number (.int 1))

/-- The parameter is still optional and has its default, but schema and description are lost. -/
theorem lower_redeclares_offset :
    Workspace.documented.declaration? ⟨0⟩ "offset" = some documentedOffset.declaration ∧
    ∃ v now, (Build.lower ⟨0⟩ offsetPlusOne).run .documented = (.ok v, now) ∧
      now.declaration? ⟨0⟩ "offset" = some [(.str "name", .str "offset"),
        (.str "schema", .dict []), (.str "description", .str ""),
        (.str "optional", .bool true), (.str "default", .int 5)] := by
  have reachable : Workspace.documented.Reachable :=
    .operation (.operation (.refl _) (.createBuilder _ _ none none [] nofun))
      (.addParameter (by decide +kernel) _ true)
  have before : Workspace.documented.declaration? ⟨0⟩ "offset" =
      some documentedOffset.declaration := by rfl
  have stands (n : Nat) : Reference.ofName "offset" n = .parameter "offset" :=
    Reference.ofName_congr rfl n 0
  have named : Workspace.documented.NamesParameter ⟨0⟩ "offset" := ⟨stands _, by decide +kernel⟩
  have only : ∀ p, Workspace.documented.DeclaredBy ⟨0⟩ offsetPlusOne p → p.name = .str "offset" →
      p = .named "offset" := by
    rintro p (⟨-, -⟩ | ⟨hname, is, -, -, -⟩) called
    · cases called
      rfl
    · rw [List.mem_singleton.1 hname, stands] at is
      cases is
  have result : ((Build.lower ⟨0⟩ offsetPlusOne).run .documented).1.toOption.bind Value.node? =
      some ⟨0⟩ := by decide +kernel
  rcases run : (Build.lower ⟨0⟩ offsetPlusOne).run .documented with ⟨e | v, now⟩
  · rw [run] at result
    cases result
  · refine ⟨before, v, now, rfl, ?_⟩
    rw [(lower_redeclares reachable (by decide +kernel) run "offset").2 List.mem_cons_self
      named only, before]
    rfl

end ProcessGraph
