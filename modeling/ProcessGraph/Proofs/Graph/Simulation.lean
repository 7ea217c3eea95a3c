import ProcessGraph.Proofs.Graph.Comparison

/-!
# Simulation of steps

`Simulates L p step step' Q`: run in the two states of the stage `p`, the steps lead to a later stage
at which the invariant of the logic `L` holds, and both return results that `Q` relates or fail in
the same way. The rules follow the notation of steps, as those of contracts do.

`C.building` is the logic of building steps under a comparison.
-/

set_option autoImplicit false

namespace ProcessGraph

/-- A matching, and the states of two runs. -/
structure Stage (S T : Type) where
  matching : Matching
  left : S
  right : T

/-- What holds at each stage, and how stages follow each other. -/
structure SimulationLogic (S T : Type) where
  holds : Stage S T → Prop
  later : Stage S T → Stage S T → Prop
  refl : ∀ p, later p p
  trans : ∀ {p q r}, later p q → later q r → later p r

section
variable {S T α β γ δ : Type}

def Simulates (L : SimulationLogic S T) (p : Stage S T) (step : ExceptT Failure (StateM S) α)
    (step' : ExceptT Failure (StateM T) β) (Q : Stage S T → α → β → Prop) : Prop :=
  ∃ R, let q : Stage S T := ⟨R, (step.run p.left).2, (step'.run p.right).2⟩
    L.later p q ∧ L.holds q ∧ Outcome (Q q) (step.run p.left).1 (step'.run p.right).1

namespace Simulates

variable {L : SimulationLogic S T} {p : Stage S T} {step : ExceptT Failure (StateM S) α}
  {step' : ExceptT Failure (StateM T) β} {Q : Stage S T → α → β → Prop}

theorem pure {a : α} {b : β} (h : L.holds p) (hq : Q p a b) :
    Simulates L p (pure a) (pure b) Q := ⟨p.matching, L.refl p, h, .ok hq⟩

theorem throw {e : Failure} (h : L.holds p) :
    Simulates L p (throw e : ExceptT Failure (StateM S) α)
      (throw e : ExceptT Failure (StateM T) β) Q := ⟨p.matching, L.refl p, h, .error e⟩

theorem get_bind {f : S → ExceptT Failure (StateM S) α} {g : T → ExceptT Failure (StateM T) β}
    (h : Simulates L p (f p.left) (g p.right) Q) : Simulates L p (get >>= f) (get >>= g) Q := h

theorem of_run_eq {step₀ : ExceptT Failure (StateM S) α} {step₀' : ExceptT Failure (StateM T) β}
    (h : Simulates L p step₀ step₀' Q) (e : step.run p.left = step₀.run p.left)
    (e' : step'.run p.right = step₀'.run p.right) : Simulates L p step step' Q := by
  unfold Simulates
  rw [e, e']
  exact h

theorem mono {Q' : Stage S T → α → β → Prop} (h : Simulates L p step step' Q)
    (hq : ∀ q a b, L.later p q → L.holds q → Q q a b → Q' q a b) :
    Simulates L p step step' Q' := by
  obtain ⟨R, hl, hh, ho⟩ := h
  exact ⟨R, hl, hh, ho.mono fun a b => hq _ a b hl hh⟩

theorem bind {f : α → ExceptT Failure (StateM S) γ} {g : β → ExceptT Failure (StateM T) δ}
    {Q' : Stage S T → γ → δ → Prop} (h : Simulates L p step step' Q)
    (hfg : ∀ q a b, L.later p q → L.holds q → Q q a b → Simulates L q (f a) (g b) Q') :
    Simulates L p (step >>= f) (step' >>= g) Q' := by
  obtain ⟨R, hl, hh, ho⟩ := h
  unfold Simulates
  rw [run_bind_state, run_bind_state]
  rcases hs : step.run p.left with ⟨e | a, s⟩ <;> rcases ht : step'.run p.right with ⟨e' | b, t⟩ <;>
    rw [hs, ht] at hl hh ho <;> cases ho
  · exact ⟨R, hl, hh, .error e⟩
  · rename_i hq
    obtain ⟨R', hl', hh', ho'⟩ := hfg _ a b hl hh hq
    exact ⟨R', L.trans hl hl', hh', ho'⟩

/-- One side does a step first. -/
theorem bind_left {f : γ → ExceptT Failure (StateM S) α} {first : ExceptT Failure (StateM S) γ}
    {c : γ} {s : S} (run : first.run p.left = (.ok c, s)) (l : L.later p { p with left := s })
    (h : Simulates L { p with left := s } (f c) step' Q) :
    Simulates L p (first >>= f) step' Q := by
  obtain ⟨R, hl, hh, ho⟩ := h
  unfold Simulates
  rw [run_bind_state, run]
  exact ⟨R, L.trans l hl, hh, ho⟩

theorem ite {c c' : Prop} [Decidable c] [Decidable c'] (hc : c ↔ c')
    {step₁ : ExceptT Failure (StateM S) α} {step₁' : ExceptT Failure (StateM T) β}
    (h : c → Simulates L p step step' Q) (h' : ¬ c → Simulates L p step₁ step₁' Q) :
    Simulates L p (if c then step else step₁) (if c' then step' else step₁') Q := by
  by_cases hd : c
  · rw [if_pos hd, if_pos (hc.1 hd)]
    exact h hd
  · rw [if_neg hd, if_neg (mt hc.2 hd)]
    exact h' hd

/-- What the two runs return is known. -/
theorem ran (h : Simulates L p step step' Q) :
    Simulates L p step step' fun q a b =>
      Q q a b ∧ step.run p.left = (.ok a, q.left) ∧ step'.run p.right = (.ok b, q.right) := by
  obtain ⟨R, hl, hh, ho⟩ := h
  refine ⟨R, hl, hh, ?_⟩
  rcases hA : step.run p.left with ⟨e | a, s⟩ <;> rcases hB : step'.run p.right with ⟨e' | b, t⟩ <;>
    rw [hA, hB] at ho <;> cases ho
  · exact .error e
  · exact .ok ⟨‹_›, rfl, rfl⟩

/-- What is known of each run by itself may be used, too. -/
theorem strengthen {P : α → S → Prop} {P' : β → T → Prop} (h : Simulates L p step step' Q)
    (hl : ∀ a, (step.run p.left).1 = .ok a → P a (step.run p.left).2)
    (hr : ∀ b, (step'.run p.right).1 = .ok b → P' b (step'.run p.right).2) :
    Simulates L p step step' fun q a b => Q q a b ∧ P a q.left ∧ P' b q.right := by
  obtain ⟨R, hl', hh, ho⟩ := h
  refine ⟨R, hl', hh, ?_⟩
  revert hl hr ho
  rcases (step.run p.left).1 with e | a <;> rcases (step'.run p.right).1 with e' | b <;>
    intro hl hr ho <;> cases ho
  · exact .error e
  · rename_i hq
    exact .ok ⟨hq, hl a rfl, hr b rfl⟩

end Simulates

end

/-! ## Building steps -/

/-- The larger matching relates no other functions. -/
structure Matching.Grows (R R' : Matching) : Prop where
  le : R ≤ R'
  callback : ∀ f g, R' (.callback f) (.callback g) → R (.callback f) (.callback g)

theorem Matching.Grows.refl (R : Matching) : R.Grows R := ⟨le_refl R, fun _ _ => id⟩

theorem Matching.Grows.trans {R R' R'' : Matching} (h : R.Grows R') (h' : R'.Grows R'') :
    R.Grows R'' :=
  ⟨le_trans h.le h'.le, fun f g hfg => h.callback f g (h'.callback f g hfg)⟩

theorem Matching.grows_add (R : Matching) {r s : Ref} (hr : ∀ f, r ≠ .callback f) :
    R.Grows (R.add r s) :=
  ⟨R.le_add r s, fun f _ h => h.resolve_right fun e => hr f e.1.symm⟩

/-- The logic of building steps. -/
def Comparison.building (C : Comparison) : SimulationLogic Workspace Workspace where
  holds p := C.Matches p.matching p.left p.right
  later p q := p.matching.Grows q.matching ∧ p.left.Grows q.left ∧ p.right.Grows q.right
  refl _ := ⟨.refl _, .refl _, .refl _⟩
  trans h h' := ⟨h.1.trans h'.1, h.2.1.trans h'.2.1, h.2.2.trans h'.2.2⟩

namespace Build

variable {C : Comparison} {p : Stage Workspace Workspace} {α β : Type}

theorem simulates_ofExcept {x : Except Failure α} {y : Except Failure β} {Q : α → β → Prop}
    (h : C.building.holds p) (hxy : Outcome Q x y) :
    Simulates C.building p (ofExcept x) (ofExcept y) fun q a b => q = p ∧ Q a b :=
  ⟨p.matching, C.building.refl p, h, hxy.mono fun _ _ hq => ⟨rfl, hq⟩⟩

/-- Both sides are changed so that the matching still fits. -/
theorem simulates_change {f g : Workspace → Workspace} {Q : Stage Workspace Workspace → Prop}
    (gA : p.left.Grows (f p.left)) (gB : p.right.Grows (g p.right))
    (h : C.Matches p.matching (f p.left) (g p.right))
    (hq : Q ⟨p.matching, f p.left, g p.right⟩) :
    Simulates C.building p (change f) (change g) fun q _ _ => Q q :=
  ⟨p.matching, ⟨.refl _, gA, gB⟩, h, .ok hq⟩

/-- The contracts of the two runs may be used, too. -/
theorem simulates_and_ensures {step : Build α} {step' : Build β}
    {Q : Stage Workspace Workspace → α → β → Prop} {I J : Workspace → Prop}
    {P : α → Workspace → Prop} {P' : β → Workspace → Prop}
    (h : Simulates C.building p step step' Q) (eA : Ensures I p.left step P)
    (eB : Ensures J p.right step' P') :
    Simulates C.building p step step' fun q a b => Q q a b ∧ P a q.left ∧ P' b q.right :=
  h.strengthen eA.2.2 eB.2.2

end Build

end ProcessGraph
