import ProcessGraph.Proofs.Graph.RollBack

/-!
# Contracts of building steps

`Build.Ensures I ws step Q`: run in `ws`, the step leaves a workspace with the invariant `I` that
has grown from `ws`, whether it fails or not, and if it returns a value then `Q` holds of the value
and the workspace. The rules follow the notation of steps: a contract of a sequence is made of the
contracts of its parts.

`Workspace.Extends S P ws` is the invariant of all steps that work on the builders in `S` only and
declare parameters on the builders in `P` only.
-/

set_option autoImplicit false

namespace ProcessGraph

/-- A well-formed workspace that has come from `ws` by changing builders in `S` and parameters of
builders in `P`. -/
structure Workspace.Extends (S P : BuilderRef → Prop) (ws now : Workspace) : Prop where
  start : ws.WellFormed
  wellFormed : now.WellFormed
  kept : ws.Preserves S P now

theorem Workspace.WellFormed.extends {ws : Workspace} (h : ws.WellFormed)
    (S P : BuilderRef → Prop) : ws.Extends S P ws := ⟨h, h, .refl S P ws⟩

namespace Build

variable {α β : Type}

def Ensures (I : Workspace → Prop) (ws : Workspace) (step : Build α)
    (Q : α → Workspace → Prop) : Prop :=
  I (step.run ws).2 ∧ ws.Grows (step.run ws).2 ∧
    ∀ a, (step.run ws).1 = .ok a → Q a (step.run ws).2

/-! ## Running -/

@[simp] theorem run_pure (a : α) (ws : Workspace) : (pure a : Build α).run ws = (.ok a, ws) := rfl

@[simp] theorem run_throw (e : Failure) (ws : Workspace) :
    (throw e : Build α).run ws = (.error e, ws) := rfl

@[simp] theorem run_get_bind (f : Workspace → Build α) (ws : Workspace) :
    (get >>= f : Build α).run ws = (f ws).run ws := rfl

@[simp] theorem run_change (f : Workspace → Workspace) (ws : Workspace) :
    (change f).run ws = (.ok (), f ws) := rfl

@[simp] theorem run_ofExcept (e : Except Failure α) (ws : Workspace) :
    (ofExcept e).run ws = (e, ws) := rfl

/-- A step that does not fail has a result. -/
theorem exists_of_isOk {step : Build α} {ws : Workspace} (h : (step.run ws).1.isOk = true) :
    ∃ a, step.run ws = (.ok a, (step.run ws).2) := by
  rcases run : step.run ws with ⟨e | a, now⟩
  · rw [run] at h
    cases h
  · exact ⟨a, rfl⟩

/-! ## Rules -/

section
variable {I : Workspace → Prop} {ws : Workspace} {Q : α → Workspace → Prop}

theorem Ensures.pure {a : α} (h : I ws) (hq : Q a ws) : Ensures I ws (pure a) Q :=
  ⟨h, .refl ws, fun _ e => by cases e; exact hq⟩

theorem Ensures.throw {e : Failure} (h : I ws) : Ensures I ws (throw e) Q :=
  ⟨h, .refl ws, fun _ e => nomatch e⟩

theorem Ensures.change {f : Workspace → Workspace} {Q : Unit → Workspace → Prop} (h : I (f ws))
    (g : ws.Grows (f ws)) (hq : Q () (f ws)) : Ensures I ws (change f) Q :=
  ⟨h, g, fun _ _ => hq⟩

theorem Ensures.ofExcept {e : Except Failure α} (h : I ws) (hq : ∀ a, e = .ok a → Q a ws) :
    Ensures I ws (ofExcept e) Q :=
  ⟨h, .refl ws, fun a ha => hq a ha⟩

theorem Ensures.get_bind {f : Workspace → Build α} (h : Ensures I ws (f ws) Q) :
    Ensures I ws (get >>= f) Q := h

theorem Ensures.bind {step : Build β} {f : β → Build α} {R : β → Workspace → Prop}
    (h : Ensures I ws step R)
    (hf : ∀ b now, I now → ws.Grows now → R b now → Ensures I now (f b) Q) :
    Ensures I ws (step >>= f) Q :=
  bind_ensures Workspace.Grows.trans h hf

theorem Ensures.mono {step : Build α} {Q' : α → Workspace → Prop} (h : Ensures I ws step Q)
    (hq : ∀ a now, I now → ws.Grows now → Q a now → Q' a now) : Ensures I ws step Q' :=
  ⟨h.1, h.2.1, fun a e => hq a _ h.1 h.2.1 (h.2.2 a e)⟩

theorem Ensures.of_run_eq {step step' : Build α} (h : Ensures I ws step' Q)
    (e : step.run ws = step'.run ws) : Ensures I ws step Q := by
  unfold Ensures
  rw [e]
  exact h

theorem Ensures.of_run {step : Build α} {a : α} {now : Workspace} (h : Ensures I ws step Q)
    (run : step.run ws = (.ok a, now)) : I now ∧ ws.Grows now ∧ Q a now := by
  obtain ⟨hi, g, hq⟩ := h
  rw [run] at hi g hq
  exact ⟨hi, g, hq a rfl⟩

theorem Ensures.ite {c : Prop} [Decidable c] {step step' : Build α}
    (h : c → Ensures I ws step Q) (h' : ¬ c → Ensures I ws step' Q) :
    Ensures I ws (if c then step else step') Q := by
  split
  · exact h ‹_›
  · exact h' ‹_›

end

end Build

end ProcessGraph
