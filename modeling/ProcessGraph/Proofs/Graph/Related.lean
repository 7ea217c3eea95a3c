import Mathlib.Data.List.Forall2
import Mathlib.Order.Basic
import ProcessGraph.Proofs.Graph.Calls

/-!
# Related values

Two runs make the same objects under other references. A `Matching` says which reference of the one
run stands for which of the other; `v.Related R w` says that two values are the same up to it. What
is computed from related values is related, and whatever is no reference is equal.
-/

set_option autoImplicit false

namespace ProcessGraph

/-! ## Outcomes -/

/-- Both computations succeed with related results, or both fail in the same way. -/
inductive Outcome {α β : Type} (Q : α → β → Prop) :
    Except Failure α → Except Failure β → Prop where
  | ok {a : α} {b : β} (h : Q a b) : Outcome Q (.ok a) (.ok b)
  | error (e : Failure) : Outcome Q (.error e) (.error e)

theorem Outcome.mono {α β : Type} {Q Q' : α → β → Prop} {x : Except Failure α}
    {y : Except Failure β} (h : Outcome Q x y) (hq : ∀ a b, Q a b → Q' a b) : Outcome Q' x y := by
  cases h with
  | ok h => exact .ok (hq _ _ h)
  | error e => exact .error e

theorem Outcome.map {α β γ δ : Type} {Q : α → β → Prop} {Q' : γ → δ → Prop}
    {x : Except Failure α} {y : Except Failure β} {f : α → γ} {g : β → δ} (h : Outcome Q x y)
    (hfg : ∀ a b, Q a b → Q' (f a) (g b)) : Outcome Q' (x.map f) (y.map g) := by
  cases h with
  | ok h => exact .ok (hfg _ _ h)
  | error e => exact .error e

theorem Outcome.refl {α : Type} {Q : α → α → Prop} {x : Except Failure α}
    (h : ∀ a, x = .ok a → Q a a) : Outcome Q x x := by
  cases x with
  | ok a => exact .ok (h a rfl)
  | error e => exact .error e

theorem Outcome.eq {α : Type} {x y : Except Failure α} (h : Outcome Eq x y) : x = y := by
  cases h with
  | ok h => rw [h]
  | error e => rfl

/-! ## Related entries -/

/-- The same keys in the same order, with related values. -/
inductive Dictionary.Match {κ α β : Type} (Q : α → β → Prop) :
    Dictionary κ α → Dictionary κ β → Prop where
  | nil : Match Q [] []
  | cons (k : κ) {a : α} {b : β} {d : Dictionary κ α} {e : Dictionary κ β} (h : Q a b)
      (hs : Match Q d e) : Match Q ((k, a) :: d) ((k, b) :: e)

namespace Dictionary.Match

variable {κ α β : Type} {Q Q' : α → β → Prop} {d : Dictionary κ α} {e : Dictionary κ β}

theorem mono (h : Match Q d e) (hq : ∀ a b, Q a b → Q' a b) : Match Q' d e := by
  induction h with
  | nil => exact .nil
  | cons k h _ ih => exact .cons k (hq _ _ h) ih

theorem refl {Q : α → α → Prop} {d : Dictionary κ α} (h : ∀ p ∈ d, Q p.2 p.2) : Match Q d d := by
  induction d with
  | nil => exact .nil
  | cons p d ih =>
    exact .cons p.1 (h p List.mem_cons_self) (ih fun q hq => h q (List.mem_cons_of_mem _ hq))

theorem keys_eq (h : Match Q d e) : d.keys = e.keys := by
  induction h with
  | nil => rfl
  | cons k _ _ ih => exact congrArg (k :: ·) ih

theorem length_eq (h : Match Q d e) : d.length = e.length := by
  induction h with
  | nil => rfl
  | cons k _ _ ih => exact congrArg Nat.succ ih

/-- Entries are kept or dropped on both sides. -/
theorem filter {p : κ × α → Bool} {q : κ × β → Bool} (h : Match Q d e)
    (hpq : ∀ k a b, Q a b → p (k, a) = q (k, b)) : Match Q (d.filter p) (e.filter q) := by
  induction h with
  | nil => exact .nil
  | cons k h _ ih =>
    rw [List.filter_cons, List.filter_cons, hpq k _ _ h]
    split
    · exact .cons k h ih
    · exact ih

variable [DecidableEq κ]

theorem get? (h : Match Q d e) (k : κ) :
    (Dictionary.get? k d = none ∧ Dictionary.get? k e = none) ∨
    ∃ a b, Dictionary.get? k d = some a ∧ Dictionary.get? k e = some b ∧ Q a b := by
  induction h with
  | nil => exact .inl ⟨rfl, rfl⟩
  | @cons k' a b _ _ h _ ih =>
    unfold Dictionary.get?
    by_cases hk : k' = k
    · rw [if_pos hk, if_pos hk]
      exact .inr ⟨a, b, rfl, rfl, h⟩
    · rw [if_neg hk, if_neg hk]
      exact ih

theorem insert (h : Match Q d e) (k : κ) {a : α} {b : β} (hab : Q a b) :
    Match Q (Dictionary.insert k a d) (Dictionary.insert k b e) := by
  induction h with
  | nil => exact .cons k hab .nil
  | cons k' h hs ih =>
    unfold Dictionary.insert
    by_cases hk : k' = k
    · rw [if_pos hk, if_pos hk]
      exact .cons k hab hs
    · rw [if_neg hk, if_neg hk]
      exact .cons k' h ih

theorem insertAll {d' : Dictionary κ α} {e' : Dictionary κ β} (h : Match Q d e)
    (h' : Match Q d' e') : Match Q (Dictionary.insertAll d d') (Dictionary.insertAll e e') := by
  induction h' generalizing d e with
  | nil => exact h
  | cons k hab _ ih => exact ih (h.insert k hab)

theorem ofEntries (h : Match Q d e) :
    Match Q (Dictionary.ofEntries d) (Dictionary.ofEntries e) := insertAll .nil h

/-- The spelling of keys does not depend on the values. -/
theorem spellAlike {d : Dictionary Scalar α} {e : Dictionary Scalar β} (h : Match Q d e) :
    Match Q (Scalar.spellAlike d) (Scalar.spellAlike e) := by
  have respell (f : Scalar → Scalar) :
      Match Q (d.map fun p => (f p.1, p.2)) (e.map fun p => (f p.1, p.2)) := by
    induction h with
    | nil => exact .nil
    | cons k h _ ih => exact .cons (f k) h ih
  have keys : d.map (·.1) = e.map (·.1) := h.keys_eq
  unfold Scalar.spellAlike
  rw [keys]
  exact respell _

end Dictionary.Match

/-! ## Related values -/

/-- Which reference of one run stands for which of another. -/
abbrev Matching := Ref → Ref → Prop

/-- The values are the same up to references, and those stand for each other. -/
inductive Value.Related (R : Matching) : Value → Value → Prop where
  | null : Related R .null .null
  | bool (b : Bool) : Related R (.bool b) (.bool b)
  | int (n : Int) : Related R (.int n) (.int n)
  | float (x : Binary64) : Related R (.float x) (.float x)
  | str (s : String) : Related R (.str s) (.str s)
  | catalog (r : CatalogRef) : Related R (.catalog r) (.catalog r)
  | list {vs ws : List Value} (h : List.Forall₂ (Related R) vs ws) : Related R (.list vs) (.list ws)
  | tuple {vs ws : List Value} (h : List.Forall₂ (Related R) vs ws) :
      Related R (.tuple vs) (.tuple ws)
  | dict {d e : List (Scalar × Value)} (h : Dictionary.Match (Related R) d e) :
      Related R (.dict d) (.dict e)
  | node {r s : NodeRef} (h : R (.node r) (.node s)) : Related R (.node r) (.node s)
  | parameter {r s : ParameterRef} (h : R (.parameter r) (.parameter s)) :
      Related R (.parameter r) (.parameter s)
  | access {r s : AccessRef} (h : R (.access r) (.access s)) : Related R (.access r) (.access s)
  | builder {r s : BuilderRef} (h : R (.builder r) (.builder s)) :
      Related R (.builder r) (.builder s)
  | formula {r s : FormulaRef} (h : R (.formula r) (.formula s)) :
      Related R (.formula r) (.formula s)
  | callback {f g : Callback} (h : R (.callback f.handle) (.callback g.handle))
      (positional : f.positional = g.positional) (variadic : f.variadic = g.variadic) :
      Related R (.callback f) (.callback g)

namespace Value

variable {R R' : Matching}

mutual

theorem Related.mono (hle : R ≤ R') {v w : Value} : Related R v w → Related R' v w
  | .null => .null
  | .bool b => .bool b
  | .int n => .int n
  | .float x => .float x
  | .str s => .str s
  | .catalog r => .catalog r
  | .list h => .list (related_list_mono hle h)
  | .tuple h => .tuple (related_list_mono hle h)
  | .dict h => .dict (related_entries_mono hle h)
  | .node h => .node (hle _ _ h)
  | .parameter h => .parameter (hle _ _ h)
  | .access h => .access (hle _ _ h)
  | .builder h => .builder (hle _ _ h)
  | .formula h => .formula (hle _ _ h)
  | .callback h hp hv => .callback (hle _ _ h) hp hv

theorem related_list_mono (hle : R ≤ R') {vs ws : List Value} :
    List.Forall₂ (Related R) vs ws → List.Forall₂ (Related R') vs ws
  | .nil => .nil
  | .cons h hs => .cons (Related.mono hle h) (related_list_mono hle hs)

theorem related_entries_mono (hle : R ≤ R') {d e : List (Scalar × Value)} :
    Dictionary.Match (Related R) d e → Dictionary.Match (Related R') d e
  | .nil => .nil
  | .cons k h hs => .cons k (Related.mono hle h) (related_entries_mono hle hs)

end

mutual

/-- A value is related to itself if its references stand for themselves. -/
theorem Related.refl : (v : Value) → (∀ r ∈ v.refs, R r r) → Related R v v
  | .null, _ => .null
  | .bool b, _ => .bool b
  | .int n, _ => .int n
  | .float x, _ => .float x
  | .str s, _ => .str s
  | .catalog r, _ => .catalog r
  | .list vs, h => .list (related_list_refl vs h)
  | .tuple vs, h => .tuple (related_list_refl vs h)
  | .dict d, h => .dict (related_entries_refl d h)
  | .node _, h => .node (h _ List.mem_cons_self)
  | .parameter _, h => .parameter (h _ List.mem_cons_self)
  | .access _, h => .access (h _ List.mem_cons_self)
  | .builder _, h => .builder (h _ List.mem_cons_self)
  | .formula _, h => .formula (h _ List.mem_cons_self)
  | .callback _, h => .callback (h _ List.mem_cons_self) rfl rfl

theorem related_list_refl : (vs : List Value) → (∀ r ∈ refsInList vs, R r r) →
    List.Forall₂ (Related R) vs vs
  | [], _ => .nil
  | v :: vs, h =>
    .cons (Related.refl v fun r hr => h r (List.mem_append_left _ hr))
      (related_list_refl vs fun r hr => h r (List.mem_append_right _ hr))

theorem related_entries_refl : (d : List (Scalar × Value)) → (∀ r ∈ refsInEntries d, R r r) →
    Dictionary.Match (Related R) d d
  | [], _ => .nil
  | (k, v) :: d, h =>
    .cons k (Related.refl v fun r hr => h r (List.mem_append_left _ hr))
      (related_entries_refl d fun r hr => h r (List.mem_append_right _ hr))

end

mutual

/-- What holds of all related references holds of those in related values. -/
theorem Related.forall_refs {P Q : Ref → Prop} (hpq : ∀ r s, R r s → P r ∧ Q s) {v w : Value} :
    Related R v w → (∀ r ∈ v.refs, P r) ∧ ∀ s ∈ w.refs, Q s
  | .list h => related_list_forall_refs hpq h
  | .tuple h => related_list_forall_refs hpq h
  | .dict h => related_entries_forall_refs hpq h
  | .node h | .parameter h | .access h | .builder h | .formula h | .callback h _ _ =>
    ⟨fun _ hr => List.mem_singleton.1 hr ▸ (hpq _ _ h).1,
      fun _ hs => List.mem_singleton.1 hs ▸ (hpq _ _ h).2⟩
  | .null | .bool _ | .int _ | .float _ | .str _ | .catalog _ =>
    ⟨fun _ hr => (nomatch hr), fun _ hs => (nomatch hs)⟩

theorem related_list_forall_refs {P Q : Ref → Prop} (hpq : ∀ r s, R r s → P r ∧ Q s)
    {vs ws : List Value} : List.Forall₂ (Related R) vs ws →
    (∀ r ∈ refsInList vs, P r) ∧ ∀ s ∈ refsInList ws, Q s
  | .nil => ⟨fun _ hr => (nomatch hr), fun _ hs => (nomatch hs)⟩
  | .cons h hs => by
    obtain ⟨hp, hq⟩ := Related.forall_refs hpq h
    obtain ⟨hps, hqs⟩ := related_list_forall_refs hpq hs
    exact ⟨fun r hr => (List.mem_append.1 hr).elim (hp r) (hps r),
      fun s hs => (List.mem_append.1 hs).elim (hq s) (hqs s)⟩

theorem related_entries_forall_refs {P Q : Ref → Prop} (hpq : ∀ r s, R r s → P r ∧ Q s)
    {d e : List (Scalar × Value)} : Dictionary.Match (Related R) d e →
    (∀ r ∈ refsInEntries d, P r) ∧ ∀ s ∈ refsInEntries e, Q s
  | .nil => ⟨fun _ hr => (nomatch hr), fun _ hs => (nomatch hs)⟩
  | .cons _ h hs => by
    obtain ⟨hp, hq⟩ := Related.forall_refs hpq h
    obtain ⟨hps, hqs⟩ := related_entries_forall_refs hpq hs
    exact ⟨fun r hr => (List.mem_append.1 hr).elim (hp r) (hps r),
      fun s hs => (List.mem_append.1 hs).elim (hq s) (hqs s)⟩

end

theorem Related.of_refs_eq_nil {v : Value} (h : v.refs = []) : Related R v v :=
  .refl v fun r hr => by simp [h] at hr

theorem related_scalar (s : Scalar) : Related R s.toValue s.toValue :=
  .of_refs_eq_nil s.refs_toValue

end Value

/-! ## Arguments -/

theorem Outcome.bind {α β γ δ : Type} {Q : α → β → Prop} {Q' : γ → δ → Prop}
    {x : Except Failure α} {y : Except Failure β} {f : α → Except Failure γ}
    {g : β → Except Failure δ} (h : Outcome Q x y)
    (hfg : ∀ a b, Q a b → Outcome Q' (f a) (g b)) : Outcome Q' (x >>= f) (y >>= g) := by
  cases h with
  | ok h => exact hfg _ _ h
  | error e => exact .error e

theorem Outcome.mapM {α β γ δ : Type} {P : α → β → Prop} {Q : γ → δ → Prop}
    {f : α → Except Failure γ} {g : β → Except Failure δ} {xs : List α} {ys : List β}
    (h : List.Forall₂ P xs ys) (hfg : ∀ a b, P a b → Outcome Q (f a) (g b)) :
    Outcome (List.Forall₂ Q) (xs.mapM f) (ys.mapM g) := by
  induction h with
  | nil => exact .ok .nil
  | cons hab _ ih =>
    rw [List.mapM_cons, List.mapM_cons]
    exact (hfg _ _ hab).bind fun c d hcd => ih.bind fun cs ds hcs => .ok (.cons hcd hcs)

theorem Dictionary.Match.of_forall₂ {κ α β : Type} {Q : α → β → Prop} {d : Dictionary κ α}
    {e : Dictionary κ β} (h : List.Forall₂ (fun p q => p.1 = q.1 ∧ Q p.2 q.2) d e) :
    Match Q d e := by
  induction h with
  | nil => exact .nil
  | @cons p q _ _ hpq _ ih =>
    obtain ⟨k, a⟩ := p
    obtain ⟨k', b⟩ := q
    obtain ⟨rfl, hab⟩ := hpq
    exact .cons k hab ih

theorem forall₂_zip {α β γ : Type} {Q : β → γ → Prop} (names : List α) {xs : List β}
    {ys : List γ} (h : List.Forall₂ Q xs ys) :
    List.Forall₂ (fun p q => p.1 = q.1 ∧ Q p.2 q.2) (names.zip xs) (names.zip ys) := by
  induction h generalizing names with
  | nil => simp
  | cons hxy _ ih =>
    cases names with
    | nil => exact .nil
    | cons name names => exact .cons ⟨rfl, hxy⟩ (ih names)

theorem forall₂_getElem? {α β : Type} {Q : α → β → Prop} {xs : List α} {ys : List β}
    (h : List.Forall₂ Q xs ys) (i : Nat) : Option.Rel Q xs[i]? ys[i]? := by
  induction h generalizing i with
  | nil => exact .none
  | cons h _ ih =>
    cases i with
    | zero => exact .some h
    | succ i => exact ih i

section
variable {R : Matching}

theorem Specification.bind_related (spec : Specification) {vs ws : List Value}
    (h : List.Forall₂ (Value.Related R) vs ws) :
    Outcome (Dictionary.Match (Value.Related R)) (spec.bind vs) (spec.bind ws) := by
  unfold Specification.bind
  refine Outcome.bind (Q := Eq) (.refl fun _ _ => rfl) fun ps _ e => ?_
  subst e
  refine Outcome.bind (Q := Eq) (.refl fun _ _ => rfl) fun names _ e => ?_
  subst e
  rw [h.length_eq]
  split
  · exact .error _
  · refine Outcome.bind (Outcome.mapM (Q := fun p q => p.1 = q.1 ∧ Value.Related R p.2 q.2)
      (forall₂_zip names h) fun p q hpq => ?_) fun d e hde => ?_
    · obtain ⟨name, v⟩ := p
      obtain ⟨name', w⟩ := q
      obtain ⟨rfl, hvw⟩ := hpq
      dsimp only
      cases name.key? with
      | some key => exact .ok ⟨rfl, hvw⟩
      | none => exact .error _
    · exact .ok (Dictionary.Match.of_forall₂ hde).spellAlike.ofEntries

theorem Specification.bindArguments_related (spec : Specification) {v w : Value}
    (h : Value.Related R v w) :
    Outcome (Dictionary.Match (Value.Related R)) (spec.bindArguments v)
      (spec.bindArguments w) := by
  cases h with
  | null => exact .ok .nil
  | list h => exact spec.bind_related h
  | tuple h => exact spec.bind_related h
  | dict h => exact .ok h
  | _ => exact .error _

/-! ## What is discovered -/

/-- The mentioned objects stand for each other. -/
def Mention.Related (R : Matching) : Mention → Mention → Prop
  | .parameter r, .parameter s => R (.parameter r) (.parameter s)
  | .node r, .node s => R (.node r) (.node s)
  | _, _ => False

mutual

theorem Value.Related.mentions {v w : Value} :
    Value.Related R v w → List.Forall₂ (Mention.Related R) v.mentions w.mentions
  | .list h => mentions_list h
  | .tuple h => mentions_list h
  | .dict h => mentions_entries h
  | .node h => .cons h .nil
  | .parameter h => .cons h .nil
  | .null => .nil
  | .bool _ => .nil
  | .int _ => .nil
  | .float _ => .nil
  | .str _ => .nil
  | .catalog _ => .nil
  | .access _ => .nil
  | .builder _ => .nil
  | .formula _ => .nil
  | .callback _ _ _ => .nil

theorem mentions_list {vs ws : List Value} : List.Forall₂ (Value.Related R) vs ws →
    List.Forall₂ (Mention.Related R) (Value.mentionsInList vs) (Value.mentionsInList ws)
  | .nil => .nil
  | .cons h hs => List.rel_append (Value.Related.mentions h) (mentions_list hs)

theorem mentions_entries {d e : List (Scalar × Value)} :
    Dictionary.Match (Value.Related R) d e →
    List.Forall₂ (Mention.Related R) (Value.mentionsInEntries d) (Value.mentionsInEntries e)
  | .nil => .nil
  | .cons _ h hs => List.rel_append (Value.Related.mentions h) (mentions_entries hs)

end

/-! ## Names of callback parameters -/

/-- Whether an argument is exactly true does not depend on references. -/
theorem CallbackNames.names_eq (names : CallbackNames) {d e : Value.Entries}
    (h : Dictionary.Match (Value.Related R) d e) : names.names d = names.names e := by
  cases names with
  | fixed names => rfl
  | ifTrue argument names otherwise =>
    rcases h.get? (.str argument) with ⟨hd, he⟩ | ⟨v, w, hd, he, hvw⟩
    · simp only [CallbackNames.names, Value.field?, hd, he]
    · simp only [CallbackNames.names, Value.field?, hd, he]
      cases hvw <;> rfl

end

end ProcessGraph
