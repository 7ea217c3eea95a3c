import ProcessGraph.Proofs.Graph.Lowering
import ProcessGraph.Proofs.Graph.Related

/-!
# Workspaces that cannot be told apart

`C.Matches R A B`: the workspaces `A` and `B` hold the same objects, as far as the matching `R`
relates references of the one to references of the other. Nodes may be numbered differently, and
either side may hold other objects that nobody can reach; `A` may also hold callback parameters that
`B` has yet to make (`Spare`).

A `Comparison` sets what is fixed while two runs are compared: where each run began and what it may
change, and the outer part of the workspaces, which is looked at but not worked on. The outermost
builders of the outer part may have different declared parameters; every admitted declaration must
treat them alike.
-/

set_option autoImplicit false

theorem Option.Rel.mono {α β : Type} {P Q : α → β → Prop} {x : Option α} {y : Option β}
    (h : Option.Rel P x y) (hpq : ∀ a b, P a b → Q a b) : Option.Rel Q x y := by
  cases h with
  | some h => exact .some (hpq _ _ h)
  | none => exact .none

namespace ProcessGraph

/-- Where a run began, and the builders that it may fill and on which it may declare parameters. -/
structure Frame where
  base : Workspace
  content : BuilderRef → Prop
  declared : BuilderRef → Prop
  own : ∀ b, content b → declared b

namespace Frame

def Holds (F : Frame) (ws : Workspace) : Prop := F.base.Extends F.content F.declared ws

def Open (F : Frame) (ws : Workspace) (b : BuilderRef) : Prop :=
  Workspace.Open F.content F.declared F.base ws b

/-- Parameters may be declared on the root of a builder that may be filled, or on itself. -/
theorem Open.free {F : Frame} {ws : Workspace} {b : BuilderRef} (h : F.Open ws b) (onRoot : Bool) :
    F.base.Free F.declared (if onRoot then ws.root b else b) := by
  cases onRoot with
  | true => exact h.declared
  | false => exact h.content.imp_left (F.own b)

end Frame

structure Comparison where
  left : Frame
  right : Frame
  outerBuilder : BuilderRef → BuilderRef → Prop
  outerNode : NodeRef → NodeRef → Prop
  /-- What may be declared. -/
  admits : Value.Entries → Prop
  named : ∀ name, admits (Parameter.named name).declaration
  /-- The declared parameters of an outermost builder. -/
  parameters : BuilderRef → Value → Value → Prop
  declare : ∀ {b : BuilderRef} {p q : Value} (declaration : Value.Entries), parameters b p q →
    admits declaration → Outcome (fun x y => parameters b x.1 y.1)
      (declareIn declaration (Value.field "name" declaration) p)
      (declareIn declaration (Value.field "name" declaration) q)

namespace Comparison

variable (C : Comparison) (R : Matching)

/-- The builders stand for each other. -/
def Same (b c : BuilderRef) : Prop := R (.builder b) (.builder c) ∨ C.outerBuilder b c

/-- The nodes stand for each other. -/
def SameNode (n m : NodeRef) : Prop := R (.node n) (.node m) ∨ C.outerNode n m

/-! ## Objects that stand for each other -/

structure NodeMatch (x y : Node) : Prop where
  builder : R (.builder x.builder) (.builder y.builder)
  specification : x.specification = y.specification
  process : x.process = y.process
  space : x.space = y.space
  arguments : Dictionary.Match (Value.Related R) x.arguments y.arguments
  id : x.id = y.id
  result : x.result = y.result
  description : x.description = y.description

structure BuilderMatch (x y : Builder) : Prop where
  catalog : x.catalog = y.catalog
  settings : x.settings = y.settings
  parent : Option.Rel (C.Same R) x.parent y.parent
  parentNode : Option.Rel (C.SameNode R) x.parentNode y.parentNode
  parentParameter : x.parentParameter = y.parentParameter
  nodes : Dictionary.Match (fun n m => R (.node n) (.node m)) x.nodes y.nodes
  counters : x.counters = y.counters
  metadata : x.metadata = y.metadata

structure AccessMatch (x y : ArrayAccess) : Prop where
  parameter : R (.parameter x.parameter) (.parameter y.parameter)
  builder : R (.builder x.builder) (.builder y.builder)
  elements : Dictionary.Match (fun n m => R (.node n) (.node m)) x.elements y.elements

/-- The callback parameter is as if it had not been made: it has no elements, and nothing stands
for it. -/
def Spare (A : Workspace) (a : AccessRef) : Prop :=
  (A.access a).elements = [] ∧ ∀ c, ¬ R (.access a) (.access c)

/-- The callback parameters of builders, where the first may have spare ones. -/
def CallbackParametersMatch (A B : Workspace) (b c : BuilderRef) : Prop :=
  ∀ k, match Dictionary.get? k (B.builder c).callbackParameters with
    | some d => ∃ a, Dictionary.get? k (A.builder b).callbackParameters = some a ∧
        R (.access a) (.access d)
    | none => ∀ a, Dictionary.get? k (A.builder b).callbackParameters = some a → Spare R A a

/-- What the outer part has to say about builders. -/
structure OuterBuilderMatch (A B : Workspace) (b c : BuilderRef) : Prop where
  within : b.index < A.builders.size ∧ c.index < B.builders.size
  catalog : (A.builder b).catalog = (B.builder c).catalog
  settings : (A.builder b).settings = (B.builder c).settings
  parent : Option.Rel C.outerBuilder (A.builder b).parent (B.builder c).parent
  parameters : (A.builder b).parent = none →
    C.parameters b (A.builder b).metadata.parameters (B.builder c).metadata.parameters

/-- Nodes that are exported without being worked on. Their arguments are compared as far as they
choose the names of callback parameters. -/
structure OuterNodeMatch (A B : Workspace) (n m : NodeRef) : Prop where
  within : n.index < A.nodes.size ∧ m.index < B.nodes.size
  builder : C.Same R (A.node n).builder (B.node m).builder
  declared : C.left.base.Free C.left.declared (A.root (A.node n).builder) ∧
    C.right.base.Free C.right.declared (B.root (B.node m).builder)
  specification : (A.node n).specification = (B.node m).specification
  process : (A.node n).process = (B.node m).process
  names : ∀ names : CallbackNames,
    names.names (A.node n).arguments = names.names (B.node m).arguments

end Comparison

namespace Comparison

/-- What related references lead to. -/
def Pair (C : Comparison) (R : Matching) (A B : Workspace) : Ref → Ref → Prop
  | .node n, .node m => NodeMatch R (A.node n) (B.node m)
  | .parameter p, .parameter q => A.parameter p = B.parameter q ∧
      ((A.parameter p).isDeclarable → C.admits (A.parameter p).declaration)
  | .access a, .access c => AccessMatch R (A.access a) (B.access c)
  | .builder b, .builder c => C.BuilderMatch R (A.builder b) (B.builder c) ∧
      C.left.Open A b ∧ C.right.Open B c
  | .formula f, .formula g => (A.formula f).text = (B.formula g).text ∧
      (A.formula f).tree = (B.formula g).tree
  | .callback _, .callback _ => True
  | _, _ => False

/-- The workspaces cannot be told apart through related references. -/
structure Matches (C : Comparison) (R : Matching) (A B : Workspace) : Prop where
  left : C.left.Holds A
  right : C.right.Holds B
  catalogs : A.catalogs = B.catalogs
  callbackNames : A.callbackNames = B.callbackNames
  within : ∀ {r s}, R r s → r.Within A ∧ s.Within B
  pair : ∀ {r s}, R r s → C.Pair R A B r s
  callbackParameters : ∀ {b c}, R (.builder b) (.builder c) → CallbackParametersMatch R A B b c
  outerBuilder : ∀ {b c}, C.outerBuilder b c → C.OuterBuilderMatch A B b c
  outerNode : ∀ {n m}, C.outerNode n m → C.OuterNodeMatch R A B n m
  uniqueNode : ∀ {n m n' m'}, R (.node n) (.node m) → R (.node n') (.node m') → (n = n' ↔ m = m')
  uniqueAccess : ∀ {a c a' c'}, R (.access a) (.access c) → R (.access a') (.access c') →
    (a = a' ↔ c = c')
  uniqueBuilder : ∀ {b c b' c'}, C.Same R b c → C.Same R b' c' → (b = b' ↔ c = c')
  apart : ∀ {b c}, R (.builder b) (.builder c) → ¬ C.outerBuilder b c

end Comparison

/-! ## Larger matchings -/

/-- One more pair of references. -/
def Matching.add (R : Matching) (r s : Ref) : Matching := fun x y => R x y ∨ x = r ∧ y = s

theorem Matching.le_add (R : Matching) (r s : Ref) : R ≤ R.add r s := fun _ _ h => .inl h

theorem Matching.add_self (R : Matching) (r s : Ref) : R.add r s r s := .inr ⟨rfl, rfl⟩

namespace Comparison

variable {C : Comparison} {R R' : Matching} (hle : R ≤ R')
include hle

theorem Same.mono {b c : BuilderRef} (h : C.Same R b c) : C.Same R' b c := h.imp_left (hle _ _)

theorem SameNode.mono {n m : NodeRef} (h : C.SameNode R n m) : C.SameNode R' n m :=
  h.imp_left (hle _ _)

theorem NodeMatch.mono {x y : Node} (h : NodeMatch R x y) : NodeMatch R' x y :=
  { h with
    builder := hle _ _ h.builder
    arguments := Value.related_entries_mono hle h.arguments }

theorem BuilderMatch.mono {x y : Builder} (h : C.BuilderMatch R x y) : C.BuilderMatch R' x y :=
  { h with
    parent := h.parent.mono fun _ _ => Same.mono hle
    parentNode := h.parentNode.mono fun _ _ => SameNode.mono hle
    nodes := h.nodes.mono fun _ _ => hle _ _ }

theorem AccessMatch.mono {x y : ArrayAccess} (h : AccessMatch R x y) : AccessMatch R' x y where
  parameter := hle _ _ h.parameter
  builder := hle _ _ h.builder
  elements := h.elements.mono fun _ _ => hle _ _

end Comparison

/-! ## Larger workspaces -/

/-- The second workspace has all objects of the first, as they are, and builders may have got
callback parameters. -/
structure Workspace.Keeps (ws now : Workspace) : Prop extends ws.Grows now where
  catalogs : now.catalogs = ws.catalogs
  callbackNames : now.callbackNames = ws.callbackNames
  sameNode : ∀ n : NodeRef, n.index < ws.nodes.size → now.node n = ws.node n
  sameBuilder : ∀ b : BuilderRef, b.index < ws.builders.size → now.builder b =
    { ws.builder b with callbackParameters := (now.builder b).callbackParameters }
  sameAccess : ∀ a : AccessRef, a.index < ws.accesses.size → now.access a = ws.access a

/-- The second workspace has all objects of the first, as they are. -/
structure Workspace.Adds (ws now : Workspace) : Prop extends ws.Keeps now where
  sameCallbackParameters : ∀ b : BuilderRef, b.index < ws.builders.size →
    (now.builder b).callbackParameters = (ws.builder b).callbackParameters

namespace Workspace

variable (ws : Workspace)

theorem Keeps.refl : ws.Keeps ws :=
  { Grows.refl ws with
    catalogs := rfl
    callbackNames := rfl
    sameNode := fun _ _ => rfl
    sameBuilder := fun _ _ => rfl
    sameAccess := fun _ _ => rfl }

theorem Adds.refl : ws.Adds ws :=
  { Keeps.refl ws with sameCallbackParameters := fun _ _ => rfl }

theorem adds_addRecord (r : Log.Record) : ws.Adds (ws.addRecord r) :=
  { Adds.refl ws with toGrows := ws.grows_addRecord r }

theorem adds_newNode (n : Node) : ws.Adds { ws with nodes := ws.nodes.push n } :=
  { Adds.refl ws with
    toGrows := ws.grows_newNode n
    sameNode := fun _ hm => Arena.get_push_of_lt hm n }

theorem adds_newParameter (p : Parameter) :
    ws.Adds { ws with parameters := ws.parameters.push p } :=
  { Adds.refl ws with toGrows := ws.grows_newParameter p }

theorem adds_newBuilder (b : Builder) : ws.Adds { ws with builders := ws.builders.push b } := by
  have same : ∀ c : BuilderRef, c.index < ws.builders.size →
      ({ ws with builders := ws.builders.push b } : Workspace).builder c = ws.builder c :=
    fun _ hc => Arena.get_push_of_lt hc b
  refine { Adds.refl ws with
    toGrows := ws.grows_newBuilder b
    sameBuilder := fun c hc => ?_
    sameCallbackParameters := fun c hc => ?_ }
  · rw [same c hc]
  · rw [same c hc]

theorem adds_newFormula (f : Formula) : ws.Adds { ws with formulas := ws.formulas.push f } :=
  { Adds.refl ws with toGrows := ws.grows_newFormula f }

end Workspace

namespace Comparison

variable {C : Comparison} {R R' : Matching} {A A' B B' : Workspace}

theorem Pair.keeps (hle : R ≤ R') (hA : A.WellFormed) (hB : B.WellFormed) (gA : A.Keeps A')
    (gB : B.Keeps B') {r s : Ref} (hw : r.Within A ∧ s.Within B) (h : C.Pair R A B r s) :
    C.Pair R' A' B' r s := by
  obtain ⟨hr, hs⟩ := hw
  cases r <;> cases s <;> first | exact h.elim | skip
  case node.node n m =>
    show NodeMatch R' (A'.node n) (B'.node m)
    rw [gA.sameNode n hr, gB.sameNode m hs]
    exact NodeMatch.mono hle h
  case parameter.parameter p q =>
    show A'.parameter p = B'.parameter q ∧ _
    rw [gA.parameter p hr, gB.parameter q hs]
    exact h
  case access.access a c =>
    show AccessMatch R' (A'.access a) (B'.access c)
    rw [gA.sameAccess a hr, gB.sameAccess c hs]
    exact AccessMatch.mono hle h
  case builder.builder b c =>
    show C.BuilderMatch R' (A'.builder b) (B'.builder c) ∧ _
    rw [gA.sameBuilder b hr, gB.sameBuilder c hs]
    exact ⟨{ BuilderMatch.mono hle h.1 with }, h.2.1.grow hA gA.toGrows, h.2.2.grow hB gB.toGrows⟩
  case formula.formula f g =>
    show (A'.formula f).text = (B'.formula g).text ∧ (A'.formula f).tree = (B'.formula g).tree
    rw [(gA.formula f hr).1, (gA.formula f hr).2, (gB.formula g hs).1, (gB.formula g hs).2]
    exact h
  case callback.callback => trivial

theorem OuterBuilderMatch.grow (gA : A.Grows A') (gB : B.Grows B') {b c : BuilderRef}
    (h : C.OuterBuilderMatch A B b c) (parameters : (A.builder b).parent = none →
      C.parameters b (A'.builder b).metadata.parameters (B'.builder c).metadata.parameters) :
    C.OuterBuilderMatch A' B' b c := by
  obtain ⟨hb, hc⟩ := h.within
  obtain ⟨p₁, s₁, c₁⟩ := gA.builder b hb
  obtain ⟨p₂, s₂, c₂⟩ := gB.builder c hc
  refine ⟨⟨Nat.lt_of_lt_of_le hb gA.builders, Nat.lt_of_lt_of_le hc gB.builders⟩,
    c₁.trans (h.catalog.trans c₂.symm), s₁.trans (h.settings.trans s₂.symm), ?_,
    fun hp => parameters (p₁ ▸ hp)⟩
  rw [p₁, p₂]
  exact h.parent

theorem OuterNodeMatch.grow (hle : R ≤ R') (hA : A.WellFormed) (hB : B.WellFormed)
    (gA : A.Grows A') (gB : B.Grows B') {n m : NodeRef} (h : C.OuterNodeMatch R A B n m) :
    C.OuterNodeMatch R' A' B' n m := by
  obtain ⟨hn, hm⟩ := h.within
  have sA := gA.node n hn
  have sB := gB.node m hm
  refine ⟨⟨Nat.lt_of_lt_of_le hn gA.nodes, Nat.lt_of_lt_of_le hm gB.nodes⟩, ?_, ?_, ?_, ?_, ?_⟩
  · rw [sA.builder, sB.builder]; exact h.builder.mono hle
  · rw [sA.builder, sB.builder, hA.root_eq gA (hA.node n hn).owner,
      hB.root_eq gB (hB.node m hm).owner]
    exact h.declared
  · rw [sA.specification, sB.specification]; exact h.specification
  · rw [sA.process, sB.process]; exact h.process
  · rw [sA.arguments, sB.arguments]; exact h.names

theorem OuterBuilderMatch.keeps (gA : A.Keeps A') (gB : B.Keeps B') {b c : BuilderRef}
    (h : C.OuterBuilderMatch A B b c) : C.OuterBuilderMatch A' B' b c := by
  refine h.grow gA.toGrows gB.toGrows fun hp => ?_
  rw [gA.sameBuilder b h.within.1, gB.sameBuilder c h.within.2]
  exact h.parameters hp

/-- The clause for callback parameters, if no callback parameter has been related. -/
theorem CallbackParametersMatch.adds (hle : R ≤ R')
    (same : ∀ a c, R' (.access a) (.access c) → R (.access a) (.access c)) (hA : A.WellFormed)
    (gA : A.Adds A') (gB : B.Adds B') {b c : BuilderRef} (hb : b.index < A.builders.size)
    (hc : c.index < B.builders.size) (h : CallbackParametersMatch R A B b c) :
    CallbackParametersMatch R' A' B' b c := by
  intro k
  have hk := h k
  rw [gA.sameCallbackParameters b hb, gB.sameCallbackParameters c hc]
  cases hd : Dictionary.get? k (B.builder c).callbackParameters with
  | some d =>
    rw [hd] at hk
    obtain ⟨a, ha, hr⟩ := hk
    exact ⟨a, ha, hle _ _ hr⟩
  | none =>
    rw [hd] at hk
    intro a ha
    obtain ⟨helements, hspare⟩ := hk a ha
    have hlt := ((hA.builder b hb).callbackParameters k a (Dictionary.mem_of_get? ha)).1
    exact ⟨by rw [gA.sameAccess a hlt]; exact helements, fun c hr => hspare c (same a c hr)⟩

/-- The references are not related to anything else, where that matters. -/
def Fresh (C : Comparison) (R : Matching) : Ref → Ref → Prop
  | .node n, .node m => (∀ m', ¬ R (.node n) (.node m')) ∧ ∀ n', ¬ R (.node n') (.node m)
  | .access a, .access c =>
    (∀ c', ¬ R (.access a) (.access c')) ∧ ∀ a', ¬ R (.access a') (.access c)
  | .builder b, .builder c => (∀ c', ¬ C.Same R b c') ∧ ∀ b', ¬ C.Same R b' c
  | _, _ => True

namespace Matches

variable (h : C.Matches R A B)
include h

theorem wellFormed_left : A.WellFormed := h.left.wellFormed

theorem wellFormed_right : B.WellFormed := h.right.wellFormed

/-- Objects that nobody can reach make no difference. -/
theorem adds (gA : A.Adds A') (gB : B.Adds B') (hl : C.left.Holds A') (hr : C.right.Holds B') :
    C.Matches R A' B' where
  left := hl
  right := hr
  catalogs := gA.catalogs.trans (h.catalogs.trans gB.catalogs.symm)
  callbackNames := gA.callbackNames.trans (h.callbackNames.trans gB.callbackNames.symm)
  within hrs := ⟨gA.within (h.within hrs).1, gB.within (h.within hrs).2⟩
  pair hrs :=
    (h.pair hrs).keeps (fun _ _ => id) h.wellFormed_left h.wellFormed_right gA.toKeeps gB.toKeeps
      (h.within hrs)
  callbackParameters hbc :=
    (h.callbackParameters hbc).adds (fun _ _ => id) (fun _ _ => id) h.wellFormed_left gA gB
      (h.within hbc).1 (h.within hbc).2
  outerBuilder hbc := (h.outerBuilder hbc).keeps gA.toKeeps gB.toKeeps
  outerNode hnm := (h.outerNode hnm).grow (fun _ _ => id) h.wellFormed_left h.wellFormed_right
    gA.toGrows gB.toGrows
  uniqueNode := h.uniqueNode
  uniqueAccess := h.uniqueAccess
  uniqueBuilder := h.uniqueBuilder
  apart := h.apart

/-- A new pair of objects that stand for each other. -/
theorem extend {r s : Ref} (gA : A.Adds A') (gB : B.Adds B') (hl : C.left.Holds A')
    (hr : C.right.Holds B') (hw : r.Within A' ∧ s.Within B') (fresh : C.Fresh R r s)
    (pair : C.Pair (R.add r s) A' B' r s)
    (callbackParameters : ∀ {b c}, R.add r s (.builder b) (.builder c) →
      CallbackParametersMatch (R.add r s) A' B' b c) :
    C.Matches (R.add r s) A' B' where
  left := hl
  right := hr
  catalogs := gA.catalogs.trans (h.catalogs.trans gB.catalogs.symm)
  callbackNames := gA.callbackNames.trans (h.callbackNames.trans gB.callbackNames.symm)
  within hxy := by
    rcases hxy with hxy | ⟨rfl, rfl⟩
    · exact ⟨gA.within (h.within hxy).1, gB.within (h.within hxy).2⟩
    · exact hw
  pair hxy := by
    rcases hxy with hxy | ⟨rfl, rfl⟩
    · exact (h.pair hxy).keeps (R.le_add _ _) h.wellFormed_left h.wellFormed_right gA.toKeeps
        gB.toKeeps (h.within hxy)
    · exact pair
  callbackParameters := callbackParameters
  outerBuilder hbc := (h.outerBuilder hbc).keeps gA.toKeeps gB.toKeeps
  outerNode hnm := (h.outerNode hnm).grow (R.le_add _ _) h.wellFormed_left h.wellFormed_right
    gA.toGrows gB.toGrows
  uniqueNode hx hy := by
    rcases hx with hx | ⟨rfl, rfl⟩ <;> rcases hy with hy | ⟨hr, hs⟩
    · exact h.uniqueNode hx hy
    · subst hr hs
      exact ⟨fun e => absurd (e ▸ hx) (fresh.1 _), fun e => absurd (e ▸ hx) (fresh.2 _)⟩
    · exact ⟨fun e => absurd (e ▸ hy) (fresh.1 _), fun e => absurd (e ▸ hy) (fresh.2 _)⟩
    · cases hr
      cases hs
      exact ⟨fun _ => rfl, fun _ => rfl⟩
  uniqueAccess hx hy := by
    rcases hx with hx | ⟨rfl, rfl⟩ <;> rcases hy with hy | ⟨hr, hs⟩
    · exact h.uniqueAccess hx hy
    · subst hr hs
      exact ⟨fun e => absurd (e ▸ hx) (fresh.1 _), fun e => absurd (e ▸ hx) (fresh.2 _)⟩
    · exact ⟨fun e => absurd (e ▸ hy) (fresh.1 _), fun e => absurd (e ▸ hy) (fresh.2 _)⟩
    · cases hr
      cases hs
      exact ⟨fun _ => rfl, fun _ => rfl⟩
  apart hx := by
    rcases hx with hx | ⟨rfl, rfl⟩
    · exact h.apart hx
    · exact fun ho => fresh.1 _ (.inr ho)
  uniqueBuilder := by
    intro b c b' c' hx hy
    have split : ∀ {b c}, C.Same (R.add r s) b c →
        C.Same R b c ∨ r = .builder b ∧ s = .builder c := by
      intro b c hx
      rcases hx with (hx | ⟨rfl, rfl⟩) | hx
      · exact .inl (.inl hx)
      · exact .inr ⟨rfl, rfl⟩
      · exact .inl (.inr hx)
    replace hx := split hx
    replace hy := split hy
    clear split
    rcases hx with hx | ⟨rfl, rfl⟩ <;> rcases hy with hy | ⟨hr, hs⟩
    · exact h.uniqueBuilder hx hy
    · subst hr hs
      exact ⟨fun e => absurd (e ▸ hx) (fresh.1 _), fun e => absurd (e ▸ hx) (fresh.2 _)⟩
    · exact ⟨fun e => absurd (e ▸ hy) (fresh.1 _), fun e => absurd (e ▸ hy) (fresh.2 _)⟩
    · cases hr
      cases hs
      exact ⟨fun _ => rfl, fun _ => rfl⟩

/-! ### Changed objects -/

/-- Changes on both sides that keep what is said about each pair. -/
theorem change (gA : A.Grows A') (gB : B.Grows B') (hl : C.left.Holds A') (hr : C.right.Holds B')
    (catalogs : A'.catalogs = B'.catalogs) (callbackNames : A'.callbackNames = B'.callbackNames)
    (pair : ∀ r s, R r s → C.Pair R A B r s → C.Pair R A' B' r s)
    (callbackParameters : ∀ b c, R (.builder b) (.builder c) →
      CallbackParametersMatch R A' B' b c)
    (parameters : ∀ b c, C.outerBuilder b c → (A.builder b).parent = none →
      C.parameters b (A'.builder b).metadata.parameters (B'.builder c).metadata.parameters) :
    C.Matches R A' B' := by
  refine { h with
    left := hl
    right := hr
    catalogs := catalogs
    callbackNames := callbackNames
    within := fun hrs => ⟨gA.within (h.within hrs).1, gB.within (h.within hrs).2⟩
    pair := fun hrs => pair _ _ hrs (h.pair hrs)
    callbackParameters := fun hbc => callbackParameters _ _ hbc
    outerBuilder := fun hbc => (h.outerBuilder hbc).grow gA gB (parameters _ _ hbc)
    outerNode := fun hnm =>
      (h.outerNode hnm).grow (fun _ _ => id) h.wellFormed_left h.wellFormed_right gA gB }

/-- What is said about a pair of builders, as far as it can stay the same. -/
theorem pair_builder (gA : A.Grows A') (gB : B.Grows B') {b c : BuilderRef}
    (hbc : R (.builder b) (.builder c))
    (match' : C.BuilderMatch R (A'.builder b) (B'.builder c)) :
    C.Pair R A' B' (.builder b) (.builder c) := by
  obtain ⟨-, oA, oB⟩ := h.pair hbc
  exact ⟨match', oA.grow h.wellFormed_left gA, oB.grow h.wellFormed_right gB⟩

/-- A node of the matching is changed on both sides. -/
theorem modifyNode {n m : NodeRef} {f g : Node → Node} (hl : C.left.Holds (A.modifyNode n f))
    (hr : C.right.Holds (B.modifyNode m g)) (hnm : R (.node n) (.node m))
    (hf : ∀ x : Node, x.SameCall (f x)) (hg : ∀ y : Node, y.SameCall (g y))
    (hfg : NodeMatch R (f (A.node n)) (g (B.node m))) :
    C.Matches R (A.modifyNode n f) (B.modifyNode m g) := by
  obtain ⟨hn, hm⟩ := h.within hnm
  have gA := A.grows_modifyNode n hf
  have gB := B.grows_modifyNode m hg
  refine h.change gA gB hl hr h.catalogs h.callbackNames (fun r s hrs hp => ?_)
    (fun _ _ hbc => h.callbackParameters hbc) (fun _ _ hbc => (h.outerBuilder hbc).parameters)
  cases r <;> cases s <;> first | exact hp | skip
  case node.node x y =>
    show NodeMatch R ((A.modifyNode n f).node x) ((B.modifyNode m g).node y)
    rw [Workspace.node_modifyNode, Workspace.node_modifyNode]
    by_cases hx : x = n
    · have hy := (h.uniqueNode hrs hnm).1 hx
      subst hx hy
      rw [if_pos ⟨rfl, hn⟩, if_pos ⟨rfl, hm⟩]
      exact hfg
    · have hy := mt (h.uniqueNode hrs hnm).2 hx
      rw [if_neg fun h => hx h.1, if_neg fun h => hy h.1]
      exact hp
  case builder.builder b c => exact h.pair_builder gA gB hrs hp.1

/-- What is remembered about lowered callbacks is not compared. -/
theorem modifyCallbackBuilders {n m : NodeRef}
    {f g : Dictionary Scalar BuilderRef → Dictionary Scalar BuilderRef}
    (hl : C.left.Holds
      (A.modifyNode n fun x => { x with callbackBuilders := f x.callbackBuilders }))
    (hr : C.right.Holds
      (B.modifyNode m fun y => { y with callbackBuilders := g y.callbackBuilders })) :
    C.Matches R (A.modifyNode n fun x => { x with callbackBuilders := f x.callbackBuilders })
      (B.modifyNode m fun y => { y with callbackBuilders := g y.callbackBuilders }) := by
  have hf : ∀ x : Node, x.SameCall { x with callbackBuilders := f x.callbackBuilders } :=
    fun _ => ⟨rfl, rfl, rfl, rfl, rfl, rfl⟩
  have hg : ∀ y : Node, y.SameCall { y with callbackBuilders := g y.callbackBuilders } :=
    fun _ => ⟨rfl, rfl, rfl, rfl, rfl, rfl⟩
  have gA := A.grows_modifyNode n hf
  have gB := B.grows_modifyNode m hg
  refine h.change gA gB hl hr h.catalogs h.callbackNames (fun r s hrs hp => ?_)
    (fun _ _ hbc => h.callbackParameters hbc) (fun _ _ hbc => (h.outerBuilder hbc).parameters)
  cases r <;> cases s <;> first | exact hp | skip
  case node.node x y =>
    show NodeMatch R (Workspace.node (A.modifyNode n _) x) (Workspace.node (B.modifyNode m _) y)
    rw [Workspace.node_modifyNode, Workspace.node_modifyNode]
    split <;> split <;>
      exact ⟨hp.builder, hp.specification, hp.process, hp.space, hp.arguments, hp.id, hp.result,
        hp.description⟩
  case builder.builder b c => exact h.pair_builder gA gB hrs hp.1

/-- A builder is changed on both sides. -/
theorem modifyBuilder {b c : BuilderRef} {f g : Builder → Builder}
    (hl : C.left.Holds (A.modifyBuilder b f)) (hr : C.right.Holds (B.modifyBuilder c g))
    (hbc : C.Same R b c)
    (hf : ∀ x, (f x).parent = x.parent ∧ (f x).settings = x.settings ∧ (f x).catalog = x.catalog)
    (hg : ∀ y, (g y).parent = y.parent ∧ (g y).settings = y.settings ∧ (g y).catalog = y.catalog)
    (callbackParameters : (∀ x, (f x).callbackParameters = x.callbackParameters) ∧
      ∀ y, (g y).callbackParameters = y.callbackParameters)
    (inner : R (.builder b) (.builder c) → C.BuilderMatch R (A.builder b) (B.builder c) →
      C.BuilderMatch R (f (A.builder b)) (g (B.builder c)))
    (outer : C.outerBuilder b c → (A.builder b).parent = none →
      C.parameters b (f (A.builder b)).metadata.parameters
        (g (B.builder c)).metadata.parameters) :
    C.Matches R (A.modifyBuilder b f) (B.modifyBuilder c g) := by
  have hw : b.index < A.builders.size ∧ c.index < B.builders.size := by
    rcases hbc with hbc | hbc
    · exact h.within hbc
    · exact (h.outerBuilder hbc).within
  have gA := A.grows_modifyBuilder b hf
  have gB := B.grows_modifyBuilder c hg
  -- A pair of builders is this one or has nothing to do with it.
  have lookup : ∀ {b' c'}, C.Same R b' c' →
      (b' = b ∧ c' = c ∧ (A.modifyBuilder b f).builder b' = f (A.builder b) ∧
        (B.modifyBuilder c g).builder c' = g (B.builder c)) ∨
      ((A.modifyBuilder b f).builder b' = A.builder b' ∧
        (B.modifyBuilder c g).builder c' = B.builder c') := by
    intro b' c' hs
    rw [Workspace.builder_modifyBuilder, Workspace.builder_modifyBuilder]
    by_cases hb : b' = b
    · have hc := (h.uniqueBuilder hs hbc).1 hb
      subst hb hc
      rw [if_pos ⟨rfl, hw.1⟩, if_pos ⟨rfl, hw.2⟩]
      exact .inl ⟨rfl, rfl, rfl, rfl⟩
    · have hc := mt (h.uniqueBuilder hs hbc).2 hb
      rw [if_neg fun h => hb h.1, if_neg fun h => hc h.1]
      exact .inr ⟨rfl, rfl⟩
  refine h.change gA gB hl hr h.catalogs h.callbackNames (fun r s hrs hp => ?_)
    (fun b' c' hbc' => ?_) (fun b' c' hbc' hp => ?_)
  · cases r <;> cases s <;> first | exact hp | skip
    case builder.builder b' c' =>
      refine h.pair_builder gA gB hrs ?_
      rcases lookup (.inl hrs) with ⟨rfl, rfl, eA, eB⟩ | ⟨eA, eB⟩
      · rw [eA, eB]
        exact inner hrs hp.1
      · rw [eA, eB]
        exact hp.1
  · have hk := h.callbackParameters hbc'
    have same : ((A.modifyBuilder b f).builder b').callbackParameters =
          (A.builder b').callbackParameters ∧
        ((B.modifyBuilder c g).builder c').callbackParameters =
          (B.builder c').callbackParameters := by
      rcases lookup (.inl hbc') with ⟨rfl, rfl, eA, eB⟩ | ⟨eA, eB⟩
      · rw [eA, eB]
        exact ⟨callbackParameters.1 _, callbackParameters.2 _⟩
      · rw [eA, eB]
        exact ⟨rfl, rfl⟩
    unfold CallbackParametersMatch
    rw [same.1, same.2]
    exact hk
  · rcases lookup (.inr hbc') with ⟨rfl, rfl, eA, eB⟩ | ⟨eA, eB⟩
    · rw [eA, eB]
      exact outer hbc' hp
    · rw [eA, eB]
      exact (h.outerBuilder hbc').parameters hp

/-- The elements of a callback parameter are changed on both sides. -/
theorem modifyAccess {a c : AccessRef} {f g : ArrayAccess → ArrayAccess}
    (hl : C.left.Holds (A.modifyAccess a f)) (hr : C.right.Holds (B.modifyAccess c g))
    (hac : R (.access a) (.access c))
    (hf : ∀ x, (f x).parameter = x.parameter ∧ (f x).builder = x.builder)
    (hg : ∀ y, (g y).parameter = y.parameter ∧ (g y).builder = y.builder)
    (hfg : AccessMatch R (A.access a) (B.access c) →
      AccessMatch R (f (A.access a)) (g (B.access c))) :
    C.Matches R (A.modifyAccess a f) (B.modifyAccess c g) := by
  obtain ⟨ha, hc⟩ := h.within hac
  have gA := A.grows_modifyAccess a hf
  have gB := B.grows_modifyAccess c hg
  refine h.change gA gB hl hr h.catalogs h.callbackNames (fun r s hrs hp => ?_)
    (fun b' c' hbc' => ?_) (fun _ _ hbc => (h.outerBuilder hbc).parameters)
  · cases r <;> cases s <;> first | exact hp | skip
    case access.access x y =>
      show AccessMatch R ((A.modifyAccess a f).access x) ((B.modifyAccess c g).access y)
      rw [Workspace.access_modifyAccess, Workspace.access_modifyAccess]
      by_cases hx : x = a
      · have hy := (h.uniqueAccess hrs hac).1 hx
        subst hx hy
        rw [if_pos ⟨rfl, ha⟩, if_pos ⟨rfl, hc⟩]
        exact hfg hp
      · have hy := mt (h.uniqueAccess hrs hac).2 hx
        rw [if_neg fun h => hx h.1, if_neg fun h => hy h.1]
        exact hp
    case builder.builder b c => exact h.pair_builder gA gB hrs hp.1
  · intro k
    have hk := h.callbackParameters hbc' k
    show match Dictionary.get? k (B.builder c').callbackParameters with
      | some d => ∃ x, Dictionary.get? k (A.builder b').callbackParameters = some x ∧
          R (.access x) (.access d)
      | none => ∀ x, Dictionary.get? k (A.builder b').callbackParameters = some x →
          Spare R (A.modifyAccess a f) x
    split
    · rename_i d hd
      rw [hd] at hk
      exact hk
    · rename_i hd
      rw [hd] at hk
      intro x hx
      obtain ⟨helements, hspare⟩ := hk x hx
      refine ⟨?_, hspare⟩
      rw [Workspace.access_modifyAccess, if_neg]
      · exact helements
      · rintro ⟨rfl, -⟩
        exact hspare c hac

theorem modifyFormula {f f' : FormulaRef} {g g' : Formula → Formula}
    (hl : C.left.Holds (A.modifyFormula f g)) (hr : C.right.Holds (B.modifyFormula f' g'))
    (hg : ∀ x, (g x).text = x.text ∧ (g x).tree = x.tree)
    (hg' : ∀ x, (g' x).text = x.text ∧ (g' x).tree = x.tree) :
    C.Matches R (A.modifyFormula f g) (B.modifyFormula f' g') := by
  have gA := A.grows_modifyFormula f hg
  have gB := B.grows_modifyFormula f' hg'
  refine h.change gA gB hl hr h.catalogs h.callbackNames (fun r s hrs hp => ?_)
    (fun _ _ hbc => h.callbackParameters hbc) (fun _ _ hbc => (h.outerBuilder hbc).parameters)
  cases r <;> cases s <;> first | exact hp | skip
  case builder.builder b c => exact h.pair_builder gA gB hrs hp.1
  case formula.formula x y =>
    obtain ⟨hx, hy⟩ := h.within hrs
    show ((A.modifyFormula f g).formula x).text = ((B.modifyFormula f' g').formula y).text ∧
      ((A.modifyFormula f g).formula x).tree = ((B.modifyFormula f' g').formula y).tree
    rw [(gA.formula x hx).1, (gA.formula x hx).2, (gB.formula y hy).1, (gB.formula y hy).2]
    exact hp

/-! ### New objects -/

/-- The clause for callback parameters, if other objects are related. -/
theorem callbackParameters_add {r s : Ref} (gA : A.Adds A') (gB : B.Adds B')
    (ha : ∀ a, r ≠ .access a) (hb : ∀ b, r ≠ .builder b) {b c : BuilderRef}
    (hbc : R.add r s (.builder b) (.builder c)) :
    CallbackParametersMatch (R.add r s) A' B' b c := by
  have old : R (.builder b) (.builder c) := hbc.resolve_right fun e => hb b e.1.symm
  exact (h.callbackParameters old).adds (R.le_add r s)
    (fun a c hac => hac.resolve_right fun e => ha a e.1.symm) h.wellFormed_left gA gB
    (h.within old).1 (h.within old).2

theorem newNode {x y : Node} (hl : C.left.Holds { A with nodes := A.nodes.push x })
    (hr : C.right.Holds { B with nodes := B.nodes.push y }) (hxy : NodeMatch R x y) :
    C.Matches (R.add (.node ⟨A.nodes.size⟩) (.node ⟨B.nodes.size⟩))
      { A with nodes := A.nodes.push x } { B with nodes := B.nodes.push y } := by
  have gA := A.adds_newNode x
  have gB := B.adds_newNode y
  refine h.extend gA gB hl hr ⟨?_, ?_⟩ ⟨fun m hm => ?_, fun n hn => ?_⟩ ?_
    (h.callbackParameters_add gA gB (by rintro _ ⟨⟩) (by rintro _ ⟨⟩))
  · show A.nodes.size < (A.nodes.push x).size
    simp
  · show B.nodes.size < (B.nodes.push y).size
    simp
  · exact absurd (h.within hm).1 (Nat.lt_irrefl _)
  · exact absurd (h.within hn).2 (Nat.lt_irrefl _)
  · show NodeMatch _ ((A.nodes.push x).get A.nodes.size) ((B.nodes.push y).get B.nodes.size)
    rw [Arena.get_push_size, Arena.get_push_size]
    exact NodeMatch.mono (R.le_add _ _) hxy

theorem newParameter {x : Parameter}
    (hl : C.left.Holds { A with parameters := A.parameters.push x })
    (hr : C.right.Holds { B with parameters := B.parameters.push x })
    (hx : x.isDeclarable → C.admits x.declaration) :
    C.Matches (R.add (.parameter ⟨A.parameters.size⟩) (.parameter ⟨B.parameters.size⟩))
      { A with parameters := A.parameters.push x }
      { B with parameters := B.parameters.push x } := by
  have gA := A.adds_newParameter x
  have gB := B.adds_newParameter x
  refine h.extend gA gB hl hr ⟨?_, ?_⟩ trivial ?_
    (h.callbackParameters_add gA gB (by rintro _ ⟨⟩) (by rintro _ ⟨⟩))
  · show A.parameters.size < (A.parameters.push x).size
    simp
  · show B.parameters.size < (B.parameters.push x).size
    simp
  · show (A.parameters.push x).get A.parameters.size = (B.parameters.push x).get B.parameters.size ∧
      (((A.parameters.push x).get A.parameters.size).isDeclarable →
        C.admits ((A.parameters.push x).get A.parameters.size).declaration)
    rw [Arena.get_push_size, Arena.get_push_size]
    exact ⟨rfl, hx⟩

theorem newFormula {x : Formula} (hl : C.left.Holds { A with formulas := A.formulas.push x })
    (hr : C.right.Holds { B with formulas := B.formulas.push x }) :
    C.Matches (R.add (.formula ⟨A.formulas.size⟩) (.formula ⟨B.formulas.size⟩))
      { A with formulas := A.formulas.push x } { B with formulas := B.formulas.push x } := by
  have gA := A.adds_newFormula x
  have gB := B.adds_newFormula x
  refine h.extend gA gB hl hr ⟨?_, ?_⟩ trivial ?_
    (h.callbackParameters_add gA gB (by rintro _ ⟨⟩) (by rintro _ ⟨⟩))
  · show A.formulas.size < (A.formulas.push x).size
    simp
  · show B.formulas.size < (B.formulas.push x).size
    simp
  · show ((A.formulas.push x).get A.formulas.size).text =
        ((B.formulas.push x).get B.formulas.size).text ∧
      ((A.formulas.push x).get A.formulas.size).tree =
        ((B.formulas.push x).get B.formulas.size).tree
    rw [Arena.get_push_size, Arena.get_push_size]
    exact ⟨rfl, rfl⟩

/-- New builders that have no callback parameters yet. -/
theorem newBuilder {x y : Builder} (hl : C.left.Holds { A with builders := A.builders.push x })
    (hr : C.right.Holds { B with builders := B.builders.push y }) (hxy : C.BuilderMatch R x y)
    (hx : x.callbackParameters = []) (hy : y.callbackParameters = [])
    (oA : C.left.Open { A with builders := A.builders.push x } ⟨A.builders.size⟩)
    (oB : C.right.Open { B with builders := B.builders.push y } ⟨B.builders.size⟩) :
    C.Matches (R.add (.builder ⟨A.builders.size⟩) (.builder ⟨B.builders.size⟩))
      { A with builders := A.builders.push x } { B with builders := B.builders.push y } := by
  have gA := A.adds_newBuilder x
  have gB := B.adds_newBuilder y
  have hA : C.Same R ⟨A.builders.size⟩ = fun _ => False := by
    funext c
    refine eq_false ?_
    rintro (hc | hc)
    · exact absurd (h.within hc).1 (Nat.lt_irrefl _)
    · exact absurd (h.outerBuilder hc).within.1 (Nat.lt_irrefl _)
  have hB : ∀ b, ¬ C.Same R b ⟨B.builders.size⟩ := by
    rintro b (hb | hb)
    · exact absurd (h.within hb).2 (Nat.lt_irrefl _)
    · exact absurd (h.outerBuilder hb).within.2 (Nat.lt_irrefl _)
  have eA : ({ A with builders := A.builders.push x } : Workspace).builder ⟨A.builders.size⟩ = x :=
    Arena.get_push_size ..
  have eB : ({ B with builders := B.builders.push y } : Workspace).builder ⟨B.builders.size⟩ = y :=
    Arena.get_push_size ..
  refine h.extend gA gB hl hr ⟨?_, ?_⟩ ⟨fun c hc => by rwa [hA] at hc, hB⟩ ⟨?_, oA, oB⟩ ?_
  · show A.builders.size < (A.builders.push x).size
    simp
  · show B.builders.size < (B.builders.push y).size
    simp
  · rw [eA, eB]
    exact BuilderMatch.mono (R.le_add _ _) hxy
  · intro b c hbc
    rcases hbc with hbc | ⟨hb, hc⟩
    · exact (h.callbackParameters hbc).adds (R.le_add _ _)
        (fun a c hac => hac.resolve_right (by rintro ⟨⟨⟩, -⟩)) h.wellFormed_left gA gB
        (h.within hbc).1 (h.within hbc).2
    · cases hb
      cases hc
      intro k
      rw [eA, eB, hx, hy]
      intro _ ha
      cases ha

end Matches

end Comparison

end ProcessGraph
