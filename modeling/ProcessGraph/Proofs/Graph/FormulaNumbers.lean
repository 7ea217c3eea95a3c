import ProcessGraph.Proofs.Graph.PassedArguments

/-!
# The numbers in the nodes of a formula

The arguments of the nodes that a formula is lowered to have no parts, so that the numbers in them
are whole arguments (`Value.Atomic`). The integers are exact. A double is what a numeral of the
formula is rounded to, perhaps with the other sign: never a NaN, but infinite if the numeral is too
large (`lower_numbers`).
-/

set_option autoImplicit false

namespace ProcessGraph

/-- A node, a parameter or a scalar; doubles have the property. -/
def Value.Atomic (Q : Binary64 → Prop) : Value → Prop
  | .null | .bool _ | .int _ | .str _ | .node _ | .parameter _ => True
  | .float x => Q x
  | _ => False

theorem passable_atomic (b : BuilderRef) {Q : Binary64 → Prop} (hQ : ∀ x, Q x → Q x.neg) :
    Passable b fun _ v => v.Atomic Q where
  grow h _ := h
  node _ _ := trivial
  parameter _ _ := trivial
  scalar _ {s} hs := by
    cases s with
    | float x => exact absurd rfl (hs x)
    | null | bool | int | str => trivial
  negated {_ x} h := hQ x h

/-- The double is what a numeral of the text is rounded to, with either sign. It is infinite if the
numeral is not below the bound, and never a NaN. -/
structure Formula.Rounded (text : String) (x : Binary64) : Prop where
  isNaN : x.isNaN = false
  numeral : ∃ k ∈ (tokens text).1, k.terminal = .number ∧
    (Numeral.value k.text = .float x ∨ Numeral.value k.text = .float x.neg) ∧
    (x.isFinite ↔ Numeral.exact k.text < Binary64.overflow)

theorem Formula.Rounded.neg {text : String} {x : Binary64} (h : Rounded text x) :
    Rounded text x.neg := by
  obtain ⟨nan, k, hk, terminal, value, finite⟩ := h
  refine ⟨by simpa using nan, k, hk, terminal, ?_, by simpa using finite⟩
  rw [Binary64.neg_neg]
  exact value.symm

/-- The doubles of a formula are rounded numerals. -/
theorem Formula.rounded_of_parse {text : String} {t : Tree} (h : parse text = .ok t)
    {x : Binary64} (hx : x ∈ t.doubles) : Rounded text x := by
  obtain ⟨k, hk, terminal, value⟩ := doubles_of_parse h x hx
  have double := Numeral.value_eq_float value
  exact ⟨double ▸ Numeral.isNaN_double k.text, k, hk, terminal, .inl value,
    double ▸ Numeral.isFinite_double k.text⟩

/-- **The numbers of a formula.** A formula gives nodes to its builder only. Their arguments have no
parts, and each double among them is what a numeral of the formula is rounded to, perhaps with the
other sign: infinite exactly from half a unit above the greatest finite double on. -/
theorem lower_numbers {ws now : Workspace} (h : ws.Reachable) {b : BuilderRef}
    (hb : b.index < ws.builders.size) {text : String} {t : Formula.Tree}
    (parsed : Formula.parse text = .ok t) {v : Value}
    (run : (Build.lower b t).run ws = (.ok v, now)) :
    (∀ c : BuilderRef, c.index < ws.builders.size → c ≠ b →
      (now.builder c).nodes = (ws.builder c).nodes) ∧
    ∃ added, (now.builder b).nodes = (ws.builder b).nodes ++ added ∧
      ∀ p ∈ added, ∀ q ∈ (now.node p.2).arguments, q.2.Atomic (Formula.Rounded text) := by
  have wf := h.wellFormed
  obtain ⟨ext, -⟩ := (Build.ensures_lower (wf.extends (· = b) fun _ => True)
    ⟨hb, .inl rfl, .inl trivial⟩ t).of_run run
  obtain ⟨⟨-, added, nodes, arguments⟩, -⟩ := passes_lower
    (passable_atomic b (Q := Formula.Rounded text) fun _ hx => hx.neg) wf hb t
    (fun x hx _ => Formula.rounded_of_parse parsed hx) run
  refine ⟨fun c hc other => ?_, added, nodes, fun p hp => (arguments p hp).2⟩
  exact ((ext.kept.content c hc).untouched.resolve_left other).1

/-- `-1e400 + 2.5`, where the first numeral is too large. -/
def overflowingSum : Formula.Tree :=
  .group (.binary "+" (.unary "-" (.number (.float .infinity)))
    (.number (.float ⟨0x4004000000000000⟩)))

/-- The node adds 2.5 to the negative infinity. -/
theorem lower_numbers_infinite :
    Formula.parse "-1e400 + 2.5" = .ok overflowingSum ∧
    ∃ v now, (Build.lower ⟨0⟩ overflowingSum).run .arithmetic = (.ok v, now) ∧
      (now.node ⟨0⟩).arguments = [(.str "x", .float Binary64.infinity.neg),
        (.str "y", .float ⟨0x4004000000000000⟩)] ∧
      Binary64.infinity.neg.isFinite = false ∧
      Formula.Rounded "-1e400 + 2.5" Binary64.infinity.neg ∧
      Formula.Rounded "-1e400 + 2.5" ⟨0x4004000000000000⟩ := by
  have parsed : Formula.parse "-1e400 + 2.5" = .ok overflowingSum := by rfl
  obtain ⟨v, run⟩ : ∃ v, (Build.lower ⟨0⟩ overflowingSum).run .arithmetic =
      (.ok v, ((Build.lower ⟨0⟩ overflowingSum).run .arithmetic).2) :=
    Build.exists_of_isOk (by decide +kernel)
  obtain ⟨-, added, nodes, atomic⟩ :=
    lower_numbers Workspace.reachable_arithmetic (by decide +kernel) parsed run
  generalize hnow : ((Build.lower ⟨0⟩ overflowingSum).run .arithmetic).2 = now at run nodes atomic
  have registered : (now.builder ⟨0⟩).nodes = [("add1", ⟨0⟩)] := by
    rw [← hnow]
    rfl
  have arguments : (now.node ⟨0⟩).arguments = [(.str "x", .float Binary64.infinity.neg),
      (.str "y", .float ⟨0x4004000000000000⟩)] := by
    rw [← hnow]
    rfl
  have new : ("add1", ⟨0⟩) ∈ added := by
    rw [registered] at nodes
    have none : (Workspace.arithmetic.builder ⟨0⟩).nodes = [] := by rfl
    rw [none, List.nil_append] at nodes
    rw [← nodes]
    exact List.mem_cons_self
  have doubles := atomic _ new
  rw [arguments] at doubles
  obtain ⟨first, second⟩ := List.forall_mem_cons.1 doubles
  exact ⟨parsed, v, now, run, arguments, by decide +kernel, first,
    second _ (List.mem_singleton.2 rfl)⟩

end ProcessGraph
