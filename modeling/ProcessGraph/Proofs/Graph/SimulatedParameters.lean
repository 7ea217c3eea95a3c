import ProcessGraph.Proofs.Graph.Discovery
import ProcessGraph.Proofs.Graph.Simulation

/-!
# Simulation of parameters

Callback parameters of related builders stand for each other, also those that one run has made
before the other (`simulates_callbackParameter`). Declarations do the same on both sides
(`simulates_addParameter`), and the same parameters are discovered in related arguments
(`Comparison.Matches.discover`).
-/

set_option autoImplicit false

namespace ProcessGraph

/-! ## Callback parameters -/

/-- The second workspace is the first, in which the builder has a callback parameter under a key
that has no elements. -/
structure Workspace.Provides (ws now : Workspace) (b : BuilderRef) (k : Scalar) (a : AccessRef) :
    Prop extends ws.Keeps now where
  others : ∀ (c : BuilderRef) (k' : Scalar), c ≠ b ∨ k' ≠ k →
    Dictionary.get? k' (now.builder c).callbackParameters =
      Dictionary.get? k' (ws.builder c).callbackParameters
  found : Dictionary.get? k (now.builder b).callbackParameters = some a
  elements : (now.access a).elements = []

namespace Workspace

variable {ws : Workspace} {b : BuilderRef} {k : Scalar} {a : AccessRef}

theorem Provides.of_found (hk : Dictionary.get? k (ws.builder b).callbackParameters = some a)
    (he : (ws.access a).elements = []) : ws.Provides ws b k a :=
  { Keeps.refl ws with
    others := fun _ _ _ => rfl
    found := hk
    elements := he }

theorem provides_withCallbackParameter (hb : b.index < ws.builders.size) :
    ws.Provides (ws.withCallbackParameter b k) b k ⟨ws.accesses.size⟩ := by
  refine { ws.grows_withCallbackParameter b k with
    catalogs := rfl
    callbackNames := rfl
    sameNode := fun _ _ => rfl
    sameBuilder := fun c _ => ?_
    sameAccess := fun a ha => ?_
    others := fun c k' h => ?_
    found := ?_
    elements := ?_ }
  · rw [builder_withCallbackParameter]
    split <;> rfl
  · rw [access_withCallbackParameter, if_neg (Nat.ne_of_lt ha)]
  · rw [builder_withCallbackParameter]
    split
    · rename_i hc
      exact Dictionary.get?_insert_of_ne (h.resolve_left fun hne => hne hc.1) _ _
    · rfl
  · rw [builder_withCallbackParameter, if_pos ⟨rfl, hb⟩]
    exact Dictionary.get?_insert_self ..
  · rw [access_withCallbackParameter, if_pos rfl]

end Workspace

theorem Scalar.toValue_injective {s t : Scalar} (h : s.toValue = t.toValue) : s = t := by
  cases s <;> cases t <;> cases h <;> rfl

/-- A callback parameter is in one place only. -/
theorem Workspace.WellFormed.callbackParameter_unique {ws : Workspace} (wf : ws.WellFormed)
    {b c : BuilderRef} (hb : b.index < ws.builders.size) (hc : c.index < ws.builders.size)
    {k k' : Scalar} {a : AccessRef}
    (h : Dictionary.get? k (ws.builder b).callbackParameters = some a)
    (h' : Dictionary.get? k' (ws.builder c).callbackParameters = some a) : b = c ∧ k = k' := by
  obtain ⟨-, ofb, -, named⟩ := (wf.builder b hb).callbackParameters k a (Dictionary.mem_of_get? h)
  obtain ⟨-, ofc, -, named'⟩ :=
    (wf.builder c hc).callbackParameters k' a (Dictionary.mem_of_get? h')
  exact ⟨ofb.symm.trans ofc,
    Scalar.toValue_injective (congrArg Parameter.name (named.symm.trans named'))⟩

namespace Comparison

variable {C : Comparison} {R R' : Matching} {A A' B B' : Workspace}

/-- The clause for callback parameters, if two builders have one under a key, and these are related
from now on. -/
theorem CallbackParametersMatch.provide (hA : A.WellFormed) (hA' : A'.WellFormed) (hle : R ≤ R')
    {a d : AccessRef} (hac : R' (.access a) (.access d))
    (only : ∀ a' d', R' (.access a') (.access d') → R (.access a') (.access d') ∨ a' = a)
    {b c x y : BuilderRef} {k : Scalar} (gA : A.Provides A' b k a) (gB : B.Provides B' c k d)
    (hb : b.index < A.builders.size) (hx : x.index < A.builders.size) (same : x = b ↔ y = c)
    (h : CallbackParametersMatch R A B x y) : CallbackParametersMatch R' A' B' x y := by
  intro k'
  by_cases here : x = b ∧ k' = k
  · obtain ⟨rfl, rfl⟩ := here
    obtain rfl := same.1 rfl
    rw [gB.found]
    exact ⟨a, gA.found, hac⟩
  · have elsewhere : x ≠ b ∨ k' ≠ k := not_and_or.1 here
    have hold := h k'
    rw [gB.others y k' (elsewhere.imp_left (mt same.2)), gA.others x k' elsewhere]
    cases hd : Dictionary.get? k' (B.builder y).callbackParameters with
    | some d' =>
      rw [hd] at hold
      obtain ⟨a', ha', had'⟩ := hold
      exact ⟨a', ha', hle _ _ had'⟩
    | none =>
      rw [hd] at hold
      intro a' ha'
      obtain ⟨empty, spare⟩ := hold a' ha'
      have old := ((hA.builder x hx).callbackParameters k' a' (Dictionary.mem_of_get? ha')).1
      refine ⟨by rw [gA.sameAccess a' old]; exact empty, fun d' hd' => ?_⟩
      rcases only a' d' hd' with hd' | rfl
      · exact spare d' hd'
      · rw [← gA.others x k' elsewhere] at ha'
        exact here (hA'.callbackParameter_unique (Nat.lt_of_lt_of_le hx gA.builders)
          (Nat.lt_of_lt_of_le hb gA.builders) ha' gA.found)

namespace Matches

/-- Both builders have a callback parameter under a key, and these stand for each other from now
on. -/
theorem provide (h : C.Matches R A B) {b c : BuilderRef} (hbc : R (.builder b) (.builder c))
    {k : Scalar} {a d : AccessRef} (gA : A.Provides A' b k a) (gB : B.Provides B' c k d)
    (hl : C.left.Holds A') (hr : C.right.Holds B') (ha : ∀ c', ¬ R (.access a) (.access c'))
    (hd : ∀ a', ¬ R (.access a') (.access d)) :
    C.Matches ((R.add (.parameter (A'.access a).parameter)
      (.parameter (B'.access d).parameter)).add (.access a) (.access d)) A' B' := by
  obtain ⟨hb, hc⟩ := h.within hbc
  obtain ⟨ha', hab, hpa, hka⟩ := (hl.wellFormed.builder b
    (Nat.lt_of_lt_of_le hb gA.builders)).callbackParameters k a (Dictionary.mem_of_get? gA.found)
  obtain ⟨hd', hdc, hpd, hkd⟩ := (hr.wellFormed.builder c
    (Nat.lt_of_lt_of_le hc gB.builders)).callbackParameters k d (Dictionary.mem_of_get? gB.found)
  generalize hR : (R.add (.parameter (A'.access a).parameter)
    (.parameter (B'.access d).parameter)).add (.access a) (.access d) = R'
  have hle : R ≤ R' := fun _ _ hxy => hR ▸ .inl (.inl hxy)
  have hp : R' (.parameter (A'.access a).parameter) (.parameter (B'.access d).parameter) :=
    hR ▸ .inl (.inr ⟨rfl, rfl⟩)
  have hac : R' (.access a) (.access d) := hR ▸ .inr ⟨rfl, rfl⟩
  have new : ∀ {x y}, R' x y → R x y ∨ (x = .parameter (A'.access a).parameter ∧
      y = .parameter (B'.access d).parameter) ∨ (x = .access a ∧ y = .access d) := by
    intro x y hxy
    rw [← hR] at hxy
    rcases hxy with (hxy | hxy) | hxy
    · exact .inl hxy
    · exact .inr (.inl hxy)
    · exact .inr (.inr hxy)
  have oldNode : ∀ {n m}, R' (.node n) (.node m) → R (.node n) (.node m) := fun hxy =>
    (new hxy).resolve_right (by rintro (⟨⟨⟩, -⟩ | ⟨⟨⟩, -⟩))
  have oldBuilder : ∀ {x y}, R' (.builder x) (.builder y) → R (.builder x) (.builder y) :=
    fun hxy => (new hxy).resolve_right (by rintro (⟨⟨⟩, -⟩ | ⟨⟨⟩, -⟩))
  have oldAccess : ∀ {x y}, R' (.access x) (.access y) →
      R (.access x) (.access y) ∨ x = a ∧ y = d := fun hxy => by
    rcases new hxy with hxy | ⟨⟨⟩, -⟩ | ⟨⟨⟩, ⟨⟩⟩
    · exact .inl hxy
    · exact .inr ⟨rfl, rfl⟩
  have oldSame : ∀ {x y}, C.Same R' x y → C.Same R x y := fun hxy => hxy.imp_left oldBuilder
  refine
    { left := hl, right := hr
      catalogs := gA.catalogs.trans (h.catalogs.trans gB.catalogs.symm)
      callbackNames := gA.callbackNames.trans (h.callbackNames.trans gB.callbackNames.symm)
      within := fun hxy => ?_
      pair := fun hxy => ?_
      callbackParameters := fun hxy => ?_
      outerBuilder := fun hxy => (h.outerBuilder hxy).keeps gA.toKeeps gB.toKeeps
      outerNode := fun hxy => (h.outerNode hxy).grow hle h.wellFormed_left h.wellFormed_right
        gA.toGrows gB.toGrows
      uniqueNode := fun hx hy => h.uniqueNode (oldNode hx) (oldNode hy)
      uniqueAccess := fun hx hy => ?_
      uniqueBuilder := fun hx hy => h.uniqueBuilder (oldSame hx) (oldSame hy)
      apart := fun hx => h.apart (oldBuilder hx) }
  · rcases new hxy with hxy | ⟨rfl, rfl⟩ | ⟨rfl, rfl⟩
    · exact ⟨gA.within (h.within hxy).1, gB.within (h.within hxy).2⟩
    · exact ⟨hpa, hpd⟩
    · exact ⟨ha', hd'⟩
  · rcases new hxy with hxy | ⟨rfl, rfl⟩ | ⟨rfl, rfl⟩
    · exact (h.pair hxy).keeps hle h.wellFormed_left h.wellFormed_right gA.toKeeps gB.toKeeps
        (h.within hxy)
    · refine ⟨hka.trans hkd.symm, fun hdecl => ?_⟩
      rw [show A'.parameter (A'.access a).parameter = _ from hka] at hdecl
      cases hdecl
    · refine ⟨hp, ?_, ?_⟩
      · rw [hab, hdc]
        exact hle _ _ hbc
      · rw [gA.elements, gB.elements]
        exact .nil
  · have hxy := oldBuilder hxy
    exact (h.callbackParameters hxy).provide h.wellFormed_left hl.wellFormed hle hac
      (fun _ _ had => (oldAccess had).imp_right And.left) gA gB hb (h.within hxy).1
      (h.uniqueBuilder (.inl hxy) (.inl hbc))
  · rcases oldAccess hx with hx | ⟨rfl, rfl⟩ <;> rcases oldAccess hy with hy | ⟨rfl, rfl⟩
    · exact h.uniqueAccess hx hy
    · exact ⟨fun e => absurd (e ▸ hx) (ha _), fun e => absurd (e ▸ hx) (hd _)⟩
    · exact ⟨fun e => absurd (e ▸ hy) (ha _), fun e => absurd (e ▸ hy) (hd _)⟩
    · exact ⟨fun _ => rfl, fun _ => rfl⟩

end Matches

end Comparison

namespace Build

theorem run_callbackParameter {ws : Workspace} {b : BuilderRef} {name : Value} {key : Scalar}
    (hk : name.key? = some key) :
    (callbackParameter b name).run ws =
      match Dictionary.get? key (ws.builder b).callbackParameters with
      | some a => (.ok a, ws)
      | none => (.ok ⟨ws.accesses.size⟩, ws.withCallbackParameter b key) := by
  obtain rfl := Value.eq_toValue_of_key? hk
  unfold callbackParameter
  rw [run_get_bind, hk]
  dsimp only
  cases Dictionary.get? key (ws.builder b).callbackParameters <;> rfl

section
variable {C : Comparison} {p : Stage Workspace Workspace} (h : C.building.holds p)
include h

theorem isOpen {b c : BuilderRef} (hbc : p.matching (.builder b) (.builder c)) :
    C.left.Open p.left b ∧ C.right.Open p.right c := (h.pair hbc).2

theorem simulates_log (r r' : Log.Record) :
    Simulates C.building p (log r) (log r') fun _ _ _ => True :=
  simulates_change (p.left.grows_addRecord r) (p.right.grows_addRecord r')
    (h.adds (p.left.adds_addRecord r) (p.right.adds_addRecord r') (ensures_log h.left r).1
      (ensures_log h.right r').1) trivial

variable {b c : BuilderRef} (hbc : p.matching (.builder b) (.builder c))
include hbc

theorem simulates_callbackParameter (name : Value) :
    Simulates C.building p (callbackParameter b name) (callbackParameter c name)
      fun q a d => q.matching (.access a) (.access d) := by
  obtain ⟨oA, oB⟩ := isOpen h hbc
  have hl := (ensures_callbackParameter h.left oA.within name).1
  have hr := (ensures_callbackParameter h.right oB.within name).1
  cases hk : name.key? with
  | none =>
    unfold callbackParameter
    refine .get_bind ?_
    rw [hk]
    exact .throw h
  | some key =>
    have hold := h.callbackParameters hbc key
    unfold Simulates
    rw [run_callbackParameter hk] at hl hr ⊢
    rw [run_callbackParameter hk]
    -- Is there a callback parameter on the right, and if not, a spare one on the left?
    cases hd : Dictionary.get? key (p.right.builder c).callbackParameters with
    | some d =>
      rw [hd] at hold
      obtain ⟨a, ha, had⟩ := hold
      rw [ha]
      exact ⟨p.matching, C.building.refl p, h, .ok had⟩
    | none =>
      rw [hd] at hold hr
      have gB := Workspace.provides_withCallbackParameter (k := key) oB.within
      have hnew : ∀ a, ¬ p.matching (.access a) (.access ⟨p.right.accesses.size⟩) :=
        fun a had => Nat.lt_irrefl _ (h.within had).2
      cases ha : Dictionary.get? key (p.left.builder b).callbackParameters with
      | some a =>
        rw [ha] at hl
        obtain ⟨he, hspare⟩ := hold a ha
        have gA := Workspace.Provides.of_found ha he
        refine ⟨_, ⟨?_, gA.toGrows, gB.toGrows⟩, h.provide hbc gA gB hl hr hspare hnew,
          .ok (Matching.add_self ..)⟩
        exact (Matching.grows_add _ (by rintro _ ⟨⟩)).trans (Matching.grows_add _ (by rintro _ ⟨⟩))
      | none =>
        rw [ha] at hl
        have gA := Workspace.provides_withCallbackParameter (k := key) oA.within
        have hnew' : ∀ d, ¬ p.matching (.access ⟨p.left.accesses.size⟩) (.access d) :=
          fun d had => Nat.lt_irrefl _ (h.within had).1
        refine ⟨_, ⟨?_, gA.toGrows, gB.toGrows⟩, h.provide hbc gA gB hl hr hnew' hnew,
          .ok (Matching.add_self ..)⟩
        exact (Matching.grows_add _ (by rintro _ ⟨⟩)).trans (Matching.grows_add _ (by rintro _ ⟨⟩))

theorem simulates_callbackParameterList (names : List Value) :
    Simulates C.building p (callbackParameterList b names) (callbackParameterList c names)
      fun q as ds => List.Forall₂ (fun a d => q.matching (.access a) (.access d)) as ds := by
  induction names generalizing p with
  | nil => exact .pure h .nil
  | cons name names ih =>
    refine (simulates_callbackParameter h hbc name).bind fun q a d l hq had => ?_
    refine (ih hq (l.1.le _ _ hbc)).bind fun r as ds l' hr hads => ?_
    exact .pure hr (.cons (l'.1.le _ _ had) hads)

/-- Related builders get callback parameters of the same names. -/
theorem parentNames_eq : p.left.parentNames b = p.right.parentNames c := by
  have hm := (h.pair hbc).1
  unfold Workspace.parentNames
  rw [hm.parentParameter]
  have hn := hm.parentNode
  revert hn
  generalize (p.left.builder b).parentNode = x
  generalize (p.right.builder c).parentNode = y
  intro hn
  cases hn with
  | none => rfl
  | some hn =>
    rename_i n m
    have names : ∀ argument, p.left.callbackNamesOf n argument =
        p.right.callbackNamesOf m argument := by
      intro argument
      unfold Workspace.callbackNamesOf
      rcases hn with hn | hn
      · have hnm := h.pair hn
        rw [hnm.specification, hnm.process, h.callbackNames]
        have e := fun names : CallbackNames => names.names_eq hnm.arguments
        simp only [e]
      · have hnm := h.outerNode hn
        rw [hnm.specification, hnm.process, h.callbackNames]
        simp only [hnm.names]
    cases (p.right.builder c).parentParameter with
    | null => rfl
    | _ => exact names _

theorem simulates_parentParameters :
    Simulates C.building p (parentParameters b) (parentParameters c)
      fun q as ds => List.Forall₂ (fun a d => q.matching (.access a) (.access d)) as ds := by
  refine .of_run_eq ?_ (run_parentParameters b p.left) (run_parentParameters c p.right)
  rw [parentNames_eq h hbc]
  refine (simulates_ofExcept (Q := Eq) h (.refl fun _ _ => rfl)).bind fun q names _ l hq ⟨_, e⟩ => ?_
  subst e
  exact simulates_callbackParameterList hq (l.1.le _ _ hbc) names

end

end Build

/-! ## Declared parameters -/

namespace Comparison.Matches

variable {C : Comparison} {R : Matching} {A B : Workspace}

/-- The outermost builders of related builders are related. -/
theorem root (h : C.Matches R A B) {b c : BuilderRef} (hbc : C.Same R b c) :
    C.Same R (A.root b) (B.root c) ∧ (A.builder (A.root b)).parent = none := by
  obtain ⟨n, hn⟩ : ∃ n, b.index = n := ⟨_, rfl⟩
  induction n using Nat.strongRecOn generalizing b c with
  | ind n ih =>
    obtain ⟨hb, hc, hp⟩ : b.index < A.builders.size ∧ c.index < B.builders.size ∧
        Option.Rel (C.Same R) (A.builder b).parent (B.builder c).parent := by
      rcases hbc with hbc | hbc
      · exact ⟨(h.within hbc).1, (h.within hbc).2, (h.pair hbc).1.parent⟩
      · have o := h.outerBuilder hbc
        exact ⟨o.within.1, o.within.2, o.parent.mono fun _ _ => .inr⟩
    cases hx : (A.builder b).parent with
    | none =>
      cases hy : (B.builder c).parent with
      | none =>
        rw [h.wellFormed_left.root_of_none hb hx, h.wellFormed_right.root_of_none hc hy]
        exact ⟨hbc, hx⟩
      | some c' =>
        rw [hx, hy] at hp
        cases hp
    | some b' =>
      cases hy : (B.builder c).parent with
      | none =>
        rw [hx, hy] at hp
        cases hp
      | some c' =>
        rw [hx, hy] at hp
        cases hp with
        | some hp =>
          rw [h.wellFormed_left.root_of_some hb hx, h.wellFormed_right.root_of_some hc hy]
          exact ih _ (hn ▸ (h.wellFormed_left.builder b hb).parent b' hx) hp rfl

/-- The builders that a declaration is for are related. It is only for outer ones if these are the
outermost ones. -/
theorem targets (h : C.Matches R A B) {b c : BuilderRef} (hbc : R (.builder b) (.builder c))
    (onRoot : Bool) :
    C.Same R (if onRoot then A.root b else b) (if onRoot then B.root c else c) ∧
    (C.outerBuilder (if onRoot then A.root b else b) (if onRoot then B.root c else c) →
      onRoot ∧ (A.builder (if onRoot then A.root b else b)).parent = none) := by
  cases onRoot with
  | true =>
    obtain ⟨same, top⟩ := h.root (.inl hbc)
    exact ⟨same, fun _ => ⟨rfl, top⟩⟩
  | false => exact ⟨.inl hbc, fun outer => absurd outer (h.apart hbc)⟩

theorem accessParameter_eq (h : C.Matches R A B) {a d : AccessRef}
    (had : R (.access a) (.access d)) : A.accessParameter a = B.accessParameter d :=
  (h.pair (h.pair had).parameter).1

end Comparison.Matches

namespace Build

section
variable {C : Comparison} {p : Stage Workspace Workspace} (h : C.building.holds p)
include h

/-- A record on one side only makes no difference, either. -/
theorem simulates_log_if (x y : Bool) (r r' : Log.Record) :
    Simulates C.building p (if x then log r else pure ()) (if y then log r' else pure ())
      fun _ _ _ => True := by
  have gA := p.left.adds_addRecord r
  have gB := p.right.adds_addRecord r'
  have hl := (ensures_log h.left r).1
  have hr := (ensures_log h.right r').1
  cases x <;> cases y
  · exact .pure h trivial
  · exact ⟨p.matching, ⟨.refl _, .refl _, gB.toGrows⟩, h.adds (.refl _) gB h.left hr, .ok trivial⟩
  · exact ⟨p.matching, ⟨.refl _, gA.toGrows, .refl _⟩, h.adds gA (.refl _) hl h.right, .ok trivial⟩
  · exact simulates_log h r r'

theorem simulates_isCallbackParameter (name : Value) {as ds : List AccessRef}
    (had : List.Forall₂ (fun a d => p.matching (.access a) (.access d)) as ds) :
    Simulates C.building p (isCallbackParameter name as) (isCallbackParameter name ds)
      fun _ => Eq := by
  refine .get_bind (.pure h ?_)
  induction had with
  | nil => rfl
  | cons had _ ih => rw [List.any_cons, List.any_cons, h.accessParameter_eq had, ih]

variable {b c : BuilderRef} (hbc : p.matching (.builder b) (.builder c))
include hbc

omit hbc in
/-- A declaration does the same on builders that stand for each other. -/
theorem declareIn_same {declaration : Value.Entries} (same : C.Same p.matching b c)
    (hd : C.outerBuilder b c → (p.left.builder b).parent = none ∧ C.admits declaration) :
    Outcome (fun x y => (p.matching (.builder b) (.builder c) → x.1 = y.1) ∧
        (C.outerBuilder b c → C.parameters b x.1 y.1))
      (declareIn declaration (Value.field "name" declaration)
        (p.left.builder b).metadata.parameters)
      (declareIn declaration (Value.field "name" declaration)
        (p.right.builder c).metadata.parameters) := by
  have outer := fun ho : C.outerBuilder b c =>
    C.declare declaration ((h.outerBuilder ho).parameters (hd ho).1) (hd ho).2
  by_cases hinner : p.matching (.builder b) (.builder c)
  · have e := congrArg Metadata.parameters (h.pair hinner).1.metadata
    rw [← e] at outer ⊢
    refine .refl fun x hx => ⟨fun _ => rfl, fun ho => ?_⟩
    have := outer ho
    rw [hx] at this
    cases this with
    | ok hk => exact hk
  · have ho := same.resolve_left hinner
    exact (outer ho).mono fun x y hk => ⟨fun hi => absurd hi hinner, fun _ => hk⟩

/-- On the root a declaration must be admitted. -/
theorem simulates_addParameter {declaration : Value.Entries} (onRoot : Bool)
    (hd : onRoot → C.admits declaration) :
    Simulates C.building p (addParameter b declaration onRoot) (addParameter c declaration onRoot)
      fun _ _ _ => True := by
  unfold addParameter
  refine (simulates_parentParameters h hbc).bind fun q as ds l hq had => ?_
  refine (simulates_isCallbackParameter hq _ had).bind fun r x y l' hr e => ?_
  subst e
  refine .ite Iff.rfl (fun _ => .pure hr trivial) fun _ => .get_bind ?_
  have hbc' := l'.1.le _ _ (l.1.le _ _ hbc)
  obtain ⟨oA, oB⟩ := isOpen hr hbc'
  have freeA := oA.free onRoot
  have freeB := oB.free onRoot
  obtain ⟨same, top⟩ := hr.targets hbc' onRoot
  generalize (if onRoot then r.left.root b else b) = t at *
  generalize (if onRoot then r.right.root c else c) = t' at *
  have admitted := fun ho => (⟨(top ho).2, hd (top ho).1⟩ : _ ∧ _)
  refine (simulates_ofExcept hr (declareIn_same hr same admitted)).bind
    fun s u v _ hs ⟨e, inner, outer⟩ => ?_
  subst e
  refine (simulates_change (Q := fun _ => True) ?_ ?_ ?_ trivial).bind
    fun t _ _ _ ht _ => simulates_log_if ht u.2 v.2 _ _
  · exact s.left.grows_modifyBuilder _ fun _ => ⟨rfl, rfl, rfl⟩
  · exact s.right.grows_modifyBuilder _ fun _ => ⟨rfl, rfl, rfl⟩
  refine hs.modifyBuilder (ensures_setParameters hs.left u.1 freeA).1
    (ensures_setParameters hs.right v.1 freeB).1 same
    (fun _ => ⟨rfl, rfl, rfl⟩) (fun _ => ⟨rfl, rfl, rfl⟩) ⟨fun _ => rfl, fun _ => rfl⟩
    (fun hi hm => { hm with metadata := ?_ }) fun ho _ => outer ho
  rw [hm.metadata, inner hi]

end

end Build

/-! ## Discovery -/

/-- The same parameters and nodes have been found. -/
structure Discovery.Related (R : Matching) (x y : Discovery) : Prop where
  parameters : List.Forall₂ (fun p q => R (.parameter p) (.parameter q)) x.parameters y.parameters
  visited : List.Forall₂ (fun n m => R (.node n) (.node m)) x.visited y.visited

theorem Discovery.related_foldl {R : Matching} {us vs : List Mention}
    (huv : List.Forall₂ (Mention.Related R) us vs) {f g : Discovery → Mention → Discovery}
    (hfg : ∀ u ∈ us, ∀ v ∈ vs, u.Related R v → ∀ x y : Discovery, x.Related R y →
      (f x u).Related R (g y v)) {x y : Discovery} (hxy : x.Related R y) :
    (us.foldl f x).Related R (vs.foldl g y) := by
  induction huv generalizing x y with
  | nil => exact hxy
  | @cons u v us vs huv _ ih =>
    refine ih (fun a ha b hb => hfg a (List.mem_cons_of_mem _ ha) b (List.mem_cons_of_mem _ hb)) ?_
    exact hfg u List.mem_cons_self v List.mem_cons_self huv x y hxy

namespace Comparison.Matches

variable {C : Comparison} {R : Matching} {A B : Workspace} (h : C.Matches R A B)
include h

theorem mem_visited {n m : NodeRef} (hnm : R (.node n) (.node m)) {ns ms : List NodeRef}
    (hv : List.Forall₂ (fun n m => R (.node n) (.node m)) ns ms) : n ∈ ns ↔ m ∈ ms := by
  induction hv with
  | nil => simp
  | cons hxy _ ih => rw [List.mem_cons, List.mem_cons, ih, h.uniqueNode hnm hxy]

/-- How far a search goes does not matter, as long as it is far enough: a node mentions only older
nodes. -/
theorem visit {n m : Nat} {x y : Mention} (hx : x.Below n) (hy : y.Below m)
    (hxy : x.Related R y) (inA : ∀ r, x = .node r → r.index < A.nodes.size)
    (inB : ∀ s, y = .node s → s.index < B.nodes.size) {found found' : Discovery}
    (hf : found.Related R found') :
    (Discovery.visit A n found x).Related R (Discovery.visit B m found' y) := by
  induction n generalizing m x y found found' with
  | zero =>
    cases x with
    | node r => exact absurd hx (Nat.not_lt_zero _)
    | parameter r =>
      cases y with
      | node s => exact hxy.elim
      | parameter s =>
        cases m <;> exact ⟨List.rel_append hf.parameters (.cons hxy .nil), hf.visited⟩
  | succ n ih =>
    cases x with
    | parameter r =>
      cases y with
      | node s => exact hxy.elim
      | parameter s =>
        cases m <;> exact ⟨List.rel_append hf.parameters (.cons hxy .nil), hf.visited⟩
    | node r =>
      cases y with
      | parameter s => exact hxy.elim
      | node s =>
        cases m with
        | zero => exact absurd hy (Nat.not_lt_zero _)
        | succ m =>
          have hr := inA r rfl
          have hs := inB s rfl
          have hmem := h.mem_visited hxy hf.visited
          unfold Discovery.visit
          by_cases hv : r ∈ found.visited
          · rw [if_pos hv, if_pos (hmem.1 hv)]
            exact hf
          · rw [if_neg hv, if_neg (mt hmem.2 hv)]
            have hx' : r.index < n + 1 := hx
            have hy' : s.index < m + 1 := hy
            have belowA := h.wellFormed_left.mentions_below hr
            have belowB := h.wellFormed_right.mentions_below hs
            refine Discovery.related_foldl (mentions_entries (h.pair hxy).arguments) ?_
              ⟨hf.parameters, .cons hxy hf.visited⟩
            intro u hu v hv huv x y hxy
            have bA := belowA u hu
            have bB := belowB v hv
            refine ih (bA.le (Nat.le_of_lt_succ hx')) (bB.le (Nat.le_of_lt_succ hy')) huv ?_ ?_ hxy
            · rintro q rfl
              exact Nat.lt_trans bA hr
            · rintro q rfl
              exact Nat.lt_trans bB hs

/-- The same parameters are discovered in related arguments. -/
theorem discover {d e : Value.Entries} (hde : Dictionary.Match (Value.Related R) d e)
    (hd : ∀ r ∈ Value.refsInEntries d, r.Below ⟨A.nodes.size⟩)
    (he : ∀ r ∈ Value.refsInEntries e, r.Below ⟨B.nodes.size⟩) :
    List.Forall₂ (fun p q => R (.parameter p) (.parameter q)) (A.discover d) (B.discover e) := by
  unfold Workspace.discover
  refine (Discovery.related_foldl (mentions_entries hde) ?_ ⟨.nil, .nil⟩).parameters
  intro u hu v hv huv x y hxy
  have inA : ∀ r, u = .node r → r.index < A.nodes.size := by
    rintro r rfl
    exact hd _ ((Value.mem_mentionsInEntries_iff d).1 hu)
  have inB : ∀ s, v = .node s → s.index < B.nodes.size := by
    rintro s rfl
    exact he _ ((Value.mem_mentionsInEntries_iff e).1 hv)
  refine h.visit ?_ ?_ huv inA inB hxy
  · cases u with
    | node r => exact inA r rfl
    | parameter p => trivial
  · cases v with
    | node s => exact inB s rfl
    | parameter p => trivial

end Comparison.Matches

end ProcessGraph
