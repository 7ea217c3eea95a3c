import ProcessGraph.Proofs.Graph.Blocks
import ProcessGraph.Proofs.Graph.SimulatedFormulas

/-!
# Functions in the place of formulas

`Value.Swapped S`: the values are the same, but some functions of the first are formulas in the
second. If such a function is exported as the formula is, then so are the nodes that have the values
as arguments, however deep the functions are in them (`Documents.simulates_swappedNode`).

`Comparison.alike ws n m`: the nodes `n` and `m` of one workspace are exported, each in a run of its
own. Whatever was there stands for itself, and in addition the one node stands for the other
(`Workspace.WellFormed.matches_alike`).
-/

set_option autoImplicit false

namespace ProcessGraph

/-- The values are the same, except for functions that are swapped for formulas. -/
inductive Value.Swapped (S : Callback → FormulaRef → Prop) : Value → Value → Prop where
  | same (v : Value) : Swapped S v v
  | swap {f : Callback} {g : FormulaRef} (h : S f g) : Swapped S (.callback f) (.formula g)
  | list {vs ws : List Value} (h : List.Forall₂ (Swapped S) vs ws) : Swapped S (.list vs) (.list ws)
  | tuple {vs ws : List Value} (h : List.Forall₂ (Swapped S) vs ws) :
      Swapped S (.tuple vs) (.tuple ws)
  | dict {d e : List (Scalar × Value)} (h : Dictionary.Match (Swapped S) d e) :
      Swapped S (.dict d) (.dict e)

/-- The same arguments, but with functions that are swapped for formulas; which ones depends on the
argument. -/
def Value.SwappedArguments (S : Scalar → Callback → FormulaRef → Prop) (d e : Value.Entries) :
    Prop :=
  List.Forall₂ (fun p q => p.1 = q.1 ∧ Value.Swapped (S p.1) p.2 q.2) d e

namespace Value

/-- Functions and formulas do not choose the names of callback parameters. -/
theorem SwappedArguments.names_eq {S : Scalar → Callback → FormulaRef → Prop} {d e : Value.Entries}
    (h : SwappedArguments S d e) (names : CallbackNames) : names.names d = names.names e := by
  have all : Dictionary.Match (fun v w => ∃ k, Swapped (S k) v w) d e :=
    .of_forall₂ (h.imp fun p q hpq => ⟨hpq.1, p.1, hpq.2⟩)
  cases names with
  | fixed names => rfl
  | ifTrue argument names otherwise =>
    rcases all.get? (.str argument) with ⟨hd, he⟩ | ⟨v, w, hd, he, k, hvw⟩
    · simp only [CallbackNames.names, Value.field?, hd, he]
    · simp only [CallbackNames.names, Value.field?, hd, he]
      cases hvw <;> rfl

end Value

/-! ## Documents -/

namespace Documents

section
variable {σ τ : Type} {C : Comparison} {H : HostRelation σ τ}
  {call : Callback → List Value → Run σ Value} {call' : Callback → List Value → Run τ Value}
  {inner : BuilderRef → Run σ Value} {inner' : BuilderRef → Run τ Value}
  {p : Stage (World σ) (World τ)} {n m : NodeRef} {S : Scalar → Callback → FormulaRef → Prop}

/-- Functions are exported as the formulas that they are swapped for, from `p` on. -/
def SimulateSwaps (C : Comparison) (H : HostRelation σ τ)
    (call : Callback → List Value → Run σ Value) (inner : BuilderRef → Run σ Value)
    (inner' : BuilderRef → Run τ Value) (p : Stage (World σ) (World τ)) (n m : NodeRef)
    (S : Scalar → Callback → FormulaRef → Prop) : Prop :=
  ∀ {q : Stage (World σ) (World τ)} {argument : Scalar} {f : Callback} {g : FormulaRef},
    (C.running H).later p q → (C.running H).holds q → S argument f g →
    Simulates (C.running H) q (ofCallback call inner n argument f) (ofFormula inner' m argument g)
      fun _ => Eq

mutual

/-- What is the same stands for itself, and what is swapped is exported in the same way. -/
theorem simulates_swappedArgument (hinner : SimulateBuilders C H inner inner')
    (hcall : SimulateCalls C H call call') (hnm : C.SameNode p.matching n m)
    (swaps : SimulateSwaps C H call inner inner' p n m S)
    {q : Stage (World σ) (World τ)} (l : (C.running H).later p q)
    (h : (C.running H).holds q) (argument : Scalar) {v w : Value}
    (known : ∀ r ∈ v.refs, p.matching r r) :
    Value.Swapped (S argument) v w →
    Simulates (C.running H) q (ofArgument call inner n argument v)
      (ofArgument call' inner' m argument w) fun _ => Eq
  | .same v => by
    have related : Value.Related (C.Shown q.matching) v v :=
      .refl v fun r hr => .inl (l.1 _ _ (known r hr))
    exact simulates_ofArgument hinner hcall h (hnm.mono l.1) argument v related
  | .swap hs => swaps l h hs
  | .list hvs => by
    unfold ofArgument
    exact (simulates_swappedArguments hinner hcall hnm swaps l h argument known hvs).bind
      fun r x y _ hr e => .pure hr (congrArg Value.list e)
  | .tuple hvs => by
    unfold ofArgument
    exact (simulates_swappedArguments hinner hcall hnm swaps l h argument known hvs).bind
      fun r x y _ hr e => .pure hr (congrArg Value.list e)
  | .dict hd => by
    unfold ofArgument
    exact (simulates_swappedEntries hinner hcall hnm swaps l h argument known hd).bind
      fun r x y _ hr e => .pure hr (congrArg Value.dict e)

theorem simulates_swappedArguments (hinner : SimulateBuilders C H inner inner')
    (hcall : SimulateCalls C H call call') (hnm : C.SameNode p.matching n m)
    (swaps : SimulateSwaps C H call inner inner' p n m S)
    {q : Stage (World σ) (World τ)} (l : (C.running H).later p q)
    (h : (C.running H).holds q) (argument : Scalar) {vs ws : List Value}
    (known : ∀ r ∈ Value.refsInList vs, p.matching r r) :
    List.Forall₂ (Value.Swapped (S argument)) vs ws →
    Simulates (C.running H) q (ofArguments call inner n argument vs)
      (ofArguments call' inner' m argument ws) fun _ => Eq
  | .nil => .pure h rfl
  | .cons hvw hvs => by
    unfold ofArguments
    refine (simulates_swappedArgument hinner hcall hnm swaps l h argument
      (fun r hr => known r (List.mem_append_left _ hr)) hvw).bind fun r x y l' hr e => ?_
    subst e
    exact (simulates_swappedArguments hinner hcall hnm swaps ((C.running H).trans l l') hr argument
      (fun r hr => known r (List.mem_append_right _ hr)) hvs).bind
        fun s xs ys _ hs e => .pure hs (congrArg (x :: ·) e)

theorem simulates_swappedEntries (hinner : SimulateBuilders C H inner inner')
    (hcall : SimulateCalls C H call call') (hnm : C.SameNode p.matching n m)
    (swaps : SimulateSwaps C H call inner inner' p n m S)
    {q : Stage (World σ) (World τ)} (l : (C.running H).later p q)
    (h : (C.running H).holds q) (argument : Scalar) {d e : List (Scalar × Value)}
    (known : ∀ r ∈ Value.refsInEntries d, p.matching r r) :
    Dictionary.Match (Value.Swapped (S argument)) d e →
    Simulates (C.running H) q (ofEntries call inner n argument d)
      (ofEntries call' inner' m argument e) fun _ => Eq
  | .nil => .pure h rfl
  | .cons k hvw hde => by
    unfold ofEntries
    refine (simulates_swappedArgument hinner hcall hnm swaps l h argument
      (fun r hr => known r (List.mem_append_left _ hr)) hvw).bind fun r x y l' hr e => ?_
    subst e
    exact (simulates_swappedEntries hinner hcall hnm swaps ((C.running H).trans l l') hr argument
      (fun r hr => known r (List.mem_append_right _ hr)) hde).bind
        fun s xs ys _ hs e => .pure hs (congrArg ((k, x) :: ·) e)

end

variable (hinner : SimulateBuilders C H inner inner') (hcall : SimulateCalls C H call call')
  (hnm : C.SameNode p.matching n m) (swaps : SimulateSwaps C H call inner inner' p n m S)
include hinner hcall hnm swaps

theorem simulates_swappedNamed {q : Stage (World σ) (World τ)} (l : (C.running H).later p q)
    (h : (C.running H).holds q) {d e : Value.Entries}
    (known : ∀ r ∈ Value.refsInEntries d, p.matching r r) (hde : Value.SwappedArguments S d e) :
    Simulates (C.running H) q (ofNamed call inner n d) (ofNamed call' inner' m e)
      fun _ => Eq := by
  induction hde generalizing q with
  | nil => exact .pure h rfl
  | @cons x y d e hxy _ ih =>
    obtain ⟨k, v⟩ := x
    obtain ⟨k', w⟩ := y
    obtain ⟨rfl, hvw⟩ := hxy
    unfold ofNamed
    refine (simulates_swappedArgument hinner hcall hnm swaps l h k
      (fun r hr => known r (List.mem_append_left _ hr)) hvw).bind fun r x y l' hr same => ?_
    subst same
    exact (ih ((C.running H).trans l l') hr fun r hr =>
      known r (List.mem_append_right _ hr)).bind
        fun s xs ys _ hs same => .pure hs (congrArg ((k, x) :: ·) same)

/-- Nodes are exported in the same way if one has functions where the other has the formulas. -/
theorem simulates_swappedNode (h : (C.running H).holds p)
    (flags : p.matching (.node n) (.node m) ∨ C.SameFlags n m)
    (known : ∀ r ∈ Value.refsInEntries (p.left.workspace.node n).arguments, p.matching r r)
    (arguments : Value.SwappedArguments S (p.left.workspace.node n).arguments
      (p.right.workspace.node m).arguments) :
    Simulates (C.running H) p (ofNode call inner n) (ofNode call' inner' m) fun _ => Eq :=
  simulates_ofNode_of h hnm flags (simulates_swappedNamed hinner hcall hnm swaps
    ((C.running H).refl p) h known arguments)

end

end Documents

/-! ## Nodes of one workspace -/

/-- The nodes are calls of one process in one builder, with the same flags. -/
structure Workspace.Alike (ws : Workspace) (n m : NodeRef) : Prop where
  within : n.index < ws.nodes.size ∧ m.index < ws.nodes.size
  builder : (ws.node n).builder = (ws.node m).builder
  specification : (ws.node n).specification = (ws.node m).specification
  process : (ws.node n).process = (ws.node m).process
  space : (ws.node n).space = (ws.node m).space
  result : (ws.node n).result = (ws.node m).result
  description : (ws.node n).description = (ws.node m).description

/-- Two runs in one workspace, in which one node stands for another one. -/
def Comparison.alike (ws : Workspace) (n m : NodeRef) : Comparison :=
  { Comparison.alone ws ws with outerNode := fun x y => x = n ∧ y = m }

namespace Comparison

/-- More nodes may stand for each other. -/
theorem Matches.withNodes {C : Comparison} {R : Matching} {A B : Workspace} (h : C.Matches R A B)
    {P : NodeRef → NodeRef → Prop} (more : ∀ n m, C.outerNode n m → P n m)
    (outer : ∀ {n m}, P n m → C.OuterNodeMatch R A B n m) :
    { C with outerNode := P }.Matches R A B := by
  have builder {x y : Builder} (hxy : C.BuilderMatch R x y) :
      { C with outerNode := P }.BuilderMatch R x y :=
    { hxy with parentNode := hxy.parentNode.mono fun n m hnm => hnm.imp_right (more n m) }
  refine { h with
    pair := fun {r s} hrs => ?_
    outerBuilder := fun hbc => { h.outerBuilder hbc with }
    outerNode := fun hnm => { outer hnm with } }
  have hp := h.pair hrs
  cases r <;> cases s <;> first | exact hp | skip
  exact ⟨builder hp.1, hp.2⟩

end Comparison

theorem Workspace.Restores.refl {ws : Workspace} (wf : ws.WellFormed) : ws.Restores ws :=
  { wf.extends _ _ with builder := fun _ _ => ⟨rfl, rfl, rfl⟩ }

/-- Nodes that are alike may stand for each other. -/
theorem Workspace.WellFormed.matches_alike {ws : Workspace} (wf : ws.WellFormed)
    {functions : Nat → Prop}
    (hf : ∀ n : NodeRef, n.index < ws.nodes.size →
      ∀ f, .callback f ∈ Value.refsInEntries (ws.node n).arguments → functions f)
    {n m : NodeRef} (alike : ws.Alike n m)
    (names : ∀ names : CallbackNames,
      names.names (ws.node n).arguments = names.names (ws.node m).arguments) :
    (Comparison.alike ws n m).Matches (.old ws functions) ws ws := by
  have start := (Restores.refl wf).matches_start (wf.extends _ _) (wf.extends _ _) hf
  refine start.withNodes (fun _ _ => False.elim) ?_
  rintro _ _ ⟨rfl, rfl⟩
  exact ⟨alike.within, .inl ⟨congrArg Ref.builder alike.builder, (wf.node _ alike.within.1).owner⟩,
    ⟨.inl trivial, .inl trivial⟩, alike.specification, alike.process, names⟩

end ProcessGraph
