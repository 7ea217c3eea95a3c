import ProcessGraph.Graph.Shortcut
import ProcessGraph.Proofs.Graph.Contract
import Mathlib.Data.List.Forall2

/-!
# Contracts of the operations of builders

One contract for each operation, from callback parameters to calls and array elements
(`ensures_callbackParameter`, `ensures_addParameter`, `ensures_generateId`, `ensures_invoke`,
`ensures_element`): the workspace stays well-formed, only the builder itself gets content, only its
root gets parameters, and the result is what the operation is for.
-/

set_option autoImplicit false

namespace ProcessGraph

theorem Value.eq_toValue_of_key? {v : Value} {k : Scalar} (h : v.key? = some k) :
    v = k.toValue := by
  cases v <;> simp only [Value.key?, Option.some.injEq, reduceCtorEq] at h <;> subst h <;> rfl

/-! ## Names of callback parameters -/

namespace Workspace

/-- The names of the parameters that a node passes to the callback given for an argument. -/
def callbackNamesOf (ws : Workspace) (n : NodeRef) (argument : Scalar) :
    Except Failure (List Value) := do
  let parameters ← Specification.parameters (ws.node n).specification
  match ← Specification.declaredNames argument parameters with
  | some names => return names
  | none =>
    match Dictionary.get? (ws.node n).process ws.callbackNames with
    | some names => return names.names (ws.node n).arguments
    | none => return []

/-- The names of the parameters that the parent process passes to the process of a builder. -/
def parentNames (ws : Workspace) (b : BuilderRef) : Except Failure (List Value) :=
  match (ws.builder b).parentNode, (ws.builder b).parentParameter with
  | none, _ => return []
  | _, .null => return []
  | some n, argument => ws.callbackNamesOf n argument

/-- The names depend on the call only. -/
theorem callbackNamesOf_eq {ws now : Workspace} (g : ws.Grows now)
    (names : now.callbackNames = ws.callbackNames) {n : NodeRef} (hn : n.index < ws.nodes.size)
    (argument : Scalar) : now.callbackNamesOf n argument = ws.callbackNamesOf n argument := by
  have same := g.node n hn
  unfold callbackNamesOf
  rw [same.specification, same.process, same.arguments, names]

end Workspace

namespace Build

theorem run_callbackNames (n : NodeRef) (argument : Scalar) (ws : Workspace) :
    (callbackNames n argument).run ws = (ws.callbackNamesOf n argument, ws) := by
  unfold callbackNames Workspace.callbackNamesOf
  rw [run_get_bind, run_bind_state, run_ofExcept]
  cases Specification.parameters (ws.node n).specification with
  | error e => rfl
  | ok parameters =>
    simp only [run_bind_state, run_ofExcept]
    cases hd : Specification.declaredNames argument parameters with
    | error e => simp only [bind, Except.bind, hd]
    | ok names =>
      simp only [bind, Except.bind, hd]
      cases names with
      | some names => rfl
      | none => cases Dictionary.get? (ws.node n).process ws.callbackNames <;> rfl

theorem run_parentParameters (b : BuilderRef) (ws : Workspace) :
    (parentParameters b).run ws =
      (do let names ← ofExcept (ws.parentNames b); callbackParameterList b names).run ws := by
  unfold parentParameters Workspace.parentNames
  rw [run_get_bind, run_bind_state, run_ofExcept]
  dsimp only
  cases (ws.builder b).parentNode with
  | none => rfl
  | some n =>
    cases (ws.builder b).parentParameter with
    | null => rfl
    | _ => simp only [run_bind_state, run_callbackNames]

end Build

/-! ## Callback parameters -/

namespace Workspace

/-- A workspace with a new callback parameter of a builder. -/
def withCallbackParameter (ws : Workspace) (b : BuilderRef) (key : Scalar) : Workspace :=
  { ws with
    parameters := ws.parameters.push (.ofCallback key.toValue)
    accesses := ws.accesses.push { parameter := ⟨ws.parameters.size⟩, builder := b }
    builders := ws.builders.modify b.index fun builder =>
      { builder with
        callbackParameters := Dictionary.insert key ⟨ws.accesses.size⟩
          builder.callbackParameters } }

section
variable (ws : Workspace) (b : BuilderRef) (key : Scalar)

theorem builder_withCallbackParameter (c : BuilderRef) :
    (ws.withCallbackParameter b key).builder c =
      if c = b ∧ b.index < ws.builders.size then
        { ws.builder c with
          callbackParameters := Dictionary.insert key ⟨ws.accesses.size⟩
            (ws.builder c).callbackParameters }
      else ws.builder c :=
  ws.builder_modifyBuilder b c _

theorem access_withCallbackParameter (a : AccessRef) :
    (ws.withCallbackParameter b key).access a =
      if a.index = ws.accesses.size then { parameter := ⟨ws.parameters.size⟩, builder := b }
      else ws.access a :=
  Arena.get_push ..

theorem parameter_withCallbackParameter (p : ParameterRef) :
    (ws.withCallbackParameter b key).parameter p =
      if p.index = ws.parameters.size then .ofCallback key.toValue else ws.parameter p :=
  Arena.get_push ..

theorem grows_withCallbackParameter : ws.Grows (ws.withCallbackParameter b key) := by
  refine { Grows.refl ws with
    parameters := by simp [withCallbackParameter]
    accesses := by simp [withCallbackParameter]
    builders := by simp [withCallbackParameter]
    parameter := fun p hp => ?_, access := fun a ha => ?_, builder := fun c _ => ?_ }
  · rw [parameter_withCallbackParameter, if_neg (Nat.ne_of_lt hp)]
  · rw [access_withCallbackParameter, if_neg (Nat.ne_of_lt ha)]
    exact ⟨rfl, rfl⟩
  · rw [builder_withCallbackParameter]
    split <;> exact ⟨rfl, rfl, rfl⟩

theorem accessParameter_withCallbackParameter :
    (ws.withCallbackParameter b key).accessParameter ⟨ws.accesses.size⟩ =
      .ofCallback key.toValue := by
  simp only [accessParameter, access_withCallbackParameter, parameter_withCallbackParameter,
    if_true]

end

section
variable {ws base : Workspace} {b : BuilderRef} {key : Scalar}
  (hb : b.index < ws.builders.size)
  (hk : Dictionary.get? key (ws.builder b).callbackParameters = none)
include hb hk

theorem callbackParameters_withCallbackParameter :
    ((ws.withCallbackParameter b key).builder b).callbackParameters =
      (ws.builder b).callbackParameters ++ [(key, ⟨ws.accesses.size⟩)] := by
  rw [builder_withCallbackParameter, if_pos ⟨rfl, hb⟩]
  refine Dictionary.insert_of_not_mem _ fun h => ?_
  rw [← Dictionary.get?_isSome_iff, hk] at h
  cases h

theorem WellFormed.withCallbackParameter (h : ws.WellFormed) :
    (ws.withCallbackParameter b key).WellFormed := by
  have g := ws.grows_withCallbackParameter b key
  have e := callbackParameters_withCallbackParameter hb hk
  have hsize : (ws.withCallbackParameter b key).accesses.size = ws.accesses.size + 1 :=
    Arena.size_push ..
  have hnodes : ∀ c, ((ws.withCallbackParameter b key).builder c).nodes = (ws.builder c).nodes := by
    intro c
    rw [builder_withCallbackParameter]
    split <;> rfl
  have keep : ws.Retains (ws.withCallbackParameter b key) := by
    refine ⟨fun c _ id n hn => ?_, fun c _ k a ha => ?_⟩
    · rw [hnodes]
      exact hn
    · by_cases hc : c = b
      · subst hc
        rw [e]
        exact Dictionary.get?_append_of_eq_some ha _
      · rw [builder_withCallbackParameter, if_neg fun h => hc h.1]
        exact ha
  refine h.grow g keep (fun n hnew hlt => absurd hlt (Nat.not_lt.2 hnew)) (fun c hc => ?_)
    (fun a ha => ?_) (fun a hnew ha c hc hac => ?_)
  · have hc' : c.index < ws.builders.size := by simpa [Workspace.withCallbackParameter] using hc
    by_cases hcb : c = b
    · subst hcb
      have ok := (h.builder c hb).grow g
      refine .inr ⟨?_, ?_, ?_, ?_, ?_, ?_⟩
      · rw [builder_withCallbackParameter, if_pos ⟨rfl, hb⟩]
        exact ok.parent
      · rw [builder_withCallbackParameter, if_pos ⟨rfl, hb⟩]
        exact ok.parentNode
      · rw [hnodes]
        exact ok.nodes
      · rw [hnodes]
        exact ok.nodup
      · rw [hnodes]
        exact ok.ordered
      · rw [e]
        intro k a ha
        rcases List.mem_append.1 ha with ha | ha
        · exact ok.callbackParameters k a ha
        · obtain ⟨rfl, rfl⟩ := Prod.mk.inj (List.mem_singleton.1 ha)
          rw [access_withCallbackParameter, if_pos rfl, accessParameter_withCallbackParameter]
          refine ⟨hsize ▸ Nat.lt_succ_self _, rfl, ?_, rfl⟩
          show ws.parameters.size < (ws.parameters.push _).size
          simp
    · rw [builder_withCallbackParameter, if_neg fun h => hcb h.1]
      exact .inl ⟨hc', rfl⟩
  · rw [access_withCallbackParameter]
    split
    · rename_i hnew
      obtain ⟨i⟩ := a
      have hi : i = ws.accesses.size := hnew
      subst hi
      refine .inr ⟨?_, Nat.lt_of_lt_of_le hb g.builders, ⟨key, ?_⟩, fun k n hn => by cases hn⟩
      · show ws.parameters.size < (ws.parameters.push _).size
        simp
      · show Dictionary.get? key ((ws.withCallbackParameter b key).builder b).callbackParameters = _
        rw [builder_withCallbackParameter, if_pos ⟨rfl, hb⟩]
        exact Dictionary.get?_insert_self ..
    · exact .inl ⟨by omega, rfl⟩
  · have hi : a.index = ws.accesses.size := by
      have : ws.accesses.size ≤ a.index := hnew
      omega
    rw [access_withCallbackParameter, if_pos hi, access_withCallbackParameter] at hac
    split at hac
    · rename_i hj
      obtain ⟨i⟩ := a
      obtain ⟨j⟩ := c
      exact congrArg AccessRef.mk (hi.trans hj.symm)
    · -- The parameter is new, but that of an old callback parameter is not.
      have hlt := (h.access c (by omega)).parameter
      rw [← hac] at hlt
      exact absurd hlt (Nat.lt_irrefl _)

theorem Preserves.withCallbackParameter {S P : BuilderRef → Prop} (h : base.Preserves S P ws) :
    base.Preserves S P (ws.withCallbackParameter b key) := by
  have e := callbackParameters_withCallbackParameter hb hk
  have h₁ := h.newParameter (.ofCallback key.toValue)
  have h₂ := h₁.pushAccess (a := { parameter := ⟨ws.parameters.size⟩, builder := b }) rfl
  refine h₂.modifyBuilder b (fun _ => ⟨rfl, rfl, rfl⟩) fun hlt => ?_
  have kept := h.content b hlt
  rw [builder_withCallbackParameter, if_pos ⟨rfl, hb⟩] at e
  refine ⟨kept.parentNode, kept.parentParameter, kept.metadata, kept.parameters, kept.nodes, ?_,
    kept.untouched⟩
  refine Eq.subst (motive := Dictionary.GrowsBy _ _) e.symm ?_
  exact kept.callbackParameters.append fun p hp => by
    obtain rfl := List.mem_singleton.1 hp
    exact h.accesses

end

end Workspace

/-! ## Contracts -/

/-- A builder that may get content, and whose root may get parameters. -/
structure Workspace.Open (S P : BuilderRef → Prop) (base ws : Workspace) (b : BuilderRef) :
    Prop where
  within : b.index < ws.builders.size
  content : base.Free S b
  declared : base.Free P (ws.root b)

/-- No node has been made or registered, and the callback parameters are as they were. -/
structure Workspace.SameNodes (ws now : Workspace) : Prop where
  nodes : now.nodes = ws.nodes
  registered : ∀ b : BuilderRef, b.index < ws.builders.size →
    (now.builder b).nodes = (ws.builder b).nodes
  access : ∀ a : AccessRef, a.index < ws.accesses.size → now.access a = ws.access a

/-- The callback parameter of a builder with a name. -/
structure Workspace.IsCallbackParameter (ws : Workspace) (b : BuilderRef) (name : Value)
    (a : AccessRef) : Prop where
  within : a.index < ws.accesses.size
  builder : (ws.access a).builder = b
  parameter : ws.accessParameter a = .ofCallback name

namespace Workspace

variable {S P : BuilderRef → Prop} {base ws now after : Workspace} {b : BuilderRef}

theorem Open.grow (h : Open S P base ws b) (hws : ws.WellFormed) (g : ws.Grows now) :
    Open S P base now b where
  within := Nat.lt_of_lt_of_le h.within g.builders
  content := h.content
  declared := by
    rw [hws.root_eq g h.within]
    exact h.declared

/-- An atomic step that fails takes the invariant back to where it began. -/
theorem Extends.rollBack (h : base.Extends S P ws) (h' : base.Extends S P now) (g : ws.Grows now)
    (hb : Open S P base ws b) : base.Extends S P (ws.rollBack b now) where
  start := h.start
  wellFormed := .rollBack h.wellFormed h'.wellFormed g hb.within
  kept := .rollBack h.start h.wellFormed h'.wellFormed h.kept h'.kept g hb.within hb.content
    hb.declared

theorem SameNodes.refl (ws : Workspace) : ws.SameNodes ws :=
  ⟨rfl, fun _ _ => rfl, fun _ _ => rfl⟩

theorem SameNodes.trans (h : ws.SameNodes now) (g : ws.Grows now) (h' : now.SameNodes after) :
    ws.SameNodes after where
  nodes := h'.nodes.trans h.nodes
  registered b hb :=
    (h'.registered b (Nat.lt_of_lt_of_le hb g.builders)).trans (h.registered b hb)
  access a ha := (h'.access a (Nat.lt_of_lt_of_le ha g.accesses)).trans (h.access a ha)

theorem IsCallbackParameter.grow {name : Value} {a : AccessRef}
    (h : ws.IsCallbackParameter b name a) (hws : ws.WellFormed) (g : ws.Grows now) :
    now.IsCallbackParameter b name a where
  within := Nat.lt_of_lt_of_le h.within g.accesses
  builder := (g.access a h.within).2.trans h.builder
  parameter := (g.accessParameter h.within (hws.access a h.within).parameter).trans h.parameter

end Workspace

namespace Build

section
variable {S P : BuilderRef → Prop} {base ws : Workspace} {b : BuilderRef}
  (h : base.Extends S P ws) (hb : b.index < ws.builders.size)
include h

theorem ensures_log (r : Log.Record) :
    Ensures (base.Extends S P) ws (log r) fun _ now => ws.SameNodes now :=
  .change ⟨h.start, h.wellFormed.addRecord r, h.kept.addRecord r⟩ (ws.grows_addRecord r)
    ⟨rfl, fun _ _ => rfl, fun _ _ => rfl⟩

include hb

theorem ensures_callbackParameter (name : Value) :
    Ensures (base.Extends S P) ws (callbackParameter b name) fun a now =>
      ws.SameNodes now ∧ now.IsCallbackParameter b name a := by
  unfold callbackParameter
  refine .get_bind ?_
  cases hk : name.key? with
  | none => exact .throw h
  | some key =>
    dsimp only
    obtain rfl := Value.eq_toValue_of_key? hk
    cases ha : Dictionary.get? key (ws.builder b).callbackParameters with
    | some a =>
      obtain ⟨hlt, hab, -, hp⟩ :=
        (h.wellFormed.builder b hb).callbackParameters key a (Dictionary.mem_of_get? ha)
      exact .pure h ⟨.refl ws, hlt, hab, hp⟩
    | none =>
      have run : (newParameter (.ofCallback key.toValue) >>= fun p =>
          newAccess { parameter := p, builder := b } >>= fun a =>
          change (fun ws => ws.modifyBuilder b fun builder =>
            { builder with callbackParameters :=
                Dictionary.insert key a builder.callbackParameters }) >>= fun _ =>
          pure a : Build AccessRef).run ws =
          (.ok ⟨ws.accesses.size⟩, ws.withCallbackParameter b key) := rfl
      unfold Ensures
      rw [run]
      refine ⟨⟨h.start, h.wellFormed.withCallbackParameter hb ha,
        h.kept.withCallbackParameter hb ha⟩,
        ws.grows_withCallbackParameter b key, fun a e => ?_⟩
      obtain rfl := Except.ok.inj e
      refine ⟨⟨rfl, fun c _ => ?_, fun a ha => ?_⟩, ?_, ?_,
        ws.accessParameter_withCallbackParameter b key⟩
      · rw [Workspace.builder_withCallbackParameter]
        split <;> rfl
      · rw [Workspace.access_withCallbackParameter, if_neg (Nat.ne_of_lt ha)]
      · show ws.accesses.size < (ws.accesses.push _).size
        simp
      · rw [Workspace.access_withCallbackParameter, if_pos rfl]

theorem ensures_callbackParameterList (names : List Value) :
    Ensures (base.Extends S P) ws (callbackParameterList b names) fun as now =>
      ws.SameNodes now ∧ List.Forall₂ (now.IsCallbackParameter b) names as := by
  induction names generalizing ws with
  | nil => exact .pure h ⟨.refl ws, .nil⟩
  | cons name names ih =>
    refine (ensures_callbackParameter h hb name).bind fun a now h' g ⟨same, ha⟩ => ?_
    have hb' := Nat.lt_of_lt_of_le hb g.builders
    refine (ih h' hb').bind fun as after h'' g' ⟨same', has⟩ => ?_
    exact .pure h'' ⟨same.trans g same', .cons (ha.grow h'.wellFormed g') has⟩

theorem ensures_parentParameters :
    Ensures (base.Extends S P) ws (parentParameters b) fun as now =>
      ws.SameNodes now ∧ ∃ names, ws.parentNames b = .ok names ∧
        List.Forall₂ (now.IsCallbackParameter b) names as := by
  refine .of_run_eq ?_ (run_parentParameters b ws)
  refine .bind (R := fun names now => ws.SameNodes now ∧ ws.parentNames b = .ok names)
    (.ofExcept h fun names hn => ⟨.refl ws, hn⟩) fun names now h' g ⟨same, hn⟩ => ?_
  refine (ensures_callbackParameterList h' (Nat.lt_of_lt_of_le hb g.builders) names).mono
    fun as after _ _ ⟨same', has⟩ => ⟨same.trans g same', names, hn, has⟩

end

/-! ## Declared parameters -/

section
variable {S P : BuilderRef → Prop} {base ws : Workspace} {b : BuilderRef}
  (h : base.Extends S P ws)
include h

/-- Other parameters of a process. -/
theorem ensures_setParameters (parameters : Value) (hP : base.Free P b) :
    Ensures (base.Extends S P) ws
      (change fun ws => ws.modifyBuilder b fun builder =>
        { builder with metadata.parameters := parameters }) fun _ now => ws.SameNodes now := by
  refine .change ⟨h.start, ?_, ?_⟩ (ws.grows_modifyBuilder b fun _ => ⟨rfl, rfl, rfl⟩)
    ⟨rfl, fun c _ => ?_, fun _ _ => rfl⟩
  · refine h.wellFormed.modifyBuilder b (fun _ => ⟨rfl, rfl, rfl⟩) (fun hlt => ?_)
      (fun _ _ hn => hn) fun _ _ ha => ha
    have ok := h.wellFormed.builder b hlt
    exact ⟨ok.parent, ok.parentNode, ok.nodes, ok.nodup, ok.ordered, ok.callbackParameters⟩
  · refine h.kept.modifyBuilder b (fun _ => ⟨rfl, rfl, rfl⟩) fun hlt => ?_
    have kept := h.kept.content b hlt
    exact ⟨kept.parentNode, kept.parentParameter, kept.metadata,
      .inl (hP.resolve_right (Nat.not_le.2 hlt)), kept.nodes, kept.callbackParameters,
      kept.untouched⟩
  · rw [Workspace.builder_modifyBuilder]
    split <;> rfl

theorem ensures_addParameter (hb : b.index < ws.builders.size) (declaration : Value.Entries)
    (onRoot : Bool) (hP : base.Free P (if onRoot then ws.root b else b)) :
    Ensures (base.Extends S P) ws (addParameter b declaration onRoot) fun _ now =>
      ws.SameNodes now := by
  unfold addParameter
  refine (ensures_parentParameters h hb).bind fun as now h' g ⟨same, _⟩ => ?_
  refine .bind (R := fun _ after => after = now) ?_ fun known now' h'' g' e => ?_
  · exact .get_bind (.pure h' rfl)
  subst e
  refine .ite (fun _ => .pure h'' same) fun _ => .get_bind ?_
  refine .bind (R := fun _ after => after = now') (.ofExcept h'' fun _ _ => rfl)
    fun result after h₃ g₃ e => ?_
  subst e
  have target : base.Free P (if onRoot then after.root b else b) := by
    cases onRoot with
    | true => exact (h.wellFormed.root_eq g hb).symm ▸ hP
    | false => exact hP
  refine (ensures_setParameters h₃ result.1 target).bind fun _ last h₄ g₄ same₄ => ?_
  refine .ite (fun _ => ?_) fun _ => .pure h₄ (same.trans g same₄)
  exact (ensures_log h₄ _).mono fun _ _ _ _ same₅ =>
    same.trans g (same₄.trans g₄ same₅)

theorem ensures_declareAll (hb : Workspace.Open S P base ws b) (rs : List ParameterRef) :
    Ensures (base.Extends S P) ws (declareAll b rs) fun _ now => ws.SameNodes now := by
  induction rs generalizing ws with
  | nil => exact .pure h (.refl ws)
  | cons r rs ih =>
    unfold declareAll
    refine .get_bind (.ite (fun _ => ?_) fun _ => ?_)
    · refine (ensures_addParameter h hb.within _ true hb.declared).bind fun _ now h' g same => ?_
      exact (ih h' (hb.grow h.wellFormed g)).mono fun _ _ _ _ same' => same.trans g same'
    · exact ih h hb

end

end Build

end ProcessGraph
