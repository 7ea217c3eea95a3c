import ProcessGraph.Proofs.Graph.LoweringMeaning

/-!
# Operators are calls

`t.asCalls`: the tree with each operator replaced by a call of its process with both operands, and
each minus in front of something that is no number by a product with -1. An operator takes its
operands under the names of the first two parameters, with names of its own if these have none, and
a call binds its arguments to the names of all parameters. If the specification gives names to the
first two parameters, both come to the same (`operatorArguments_eq_bind`).

Main statement: lowering the tree with calls is lowering the tree (`lower_asCalls`). The result, the
failure and the whole workspace are the same, and so are the nodes with their ids and arguments and
the parameters that are declared.
-/

set_option autoImplicit false

namespace ProcessGraph

/-! ## Arguments -/

/-- The specification lists objects as parameters, at least two, and the first two have names that
can be told apart. -/
structure Specification.DeclaresOperands (spec : Specification) : Prop where
  objects : ∃ first second rest,
    Value.field "parameters" spec = .list ((first :: second :: rest).map Value.dict)
  distinct : spec.Distinct 2

/-- The processes of operators that the catalog knows declare operands. -/
def Catalog.DeclaresOperators (catalog : Catalog) : Prop :=
  ∀ op process spec, Dictionary.get? op operatorProcesses = some process →
    catalog.get? process none = some spec → spec.DeclaresOperands

theorem mapM_entry (name : String) (ps : List Value.Entries) :
    (ps.map Value.dict).mapM (Value.entry name) = .ok (ps.map (Value.field name)) := by
  induction ps with
  | nil => rfl
  | cons p ps ih =>
    rw [List.map_cons, List.mapM_cons, ih]
    rfl

/-- The operands of an operator are bound like the arguments of a call. -/
theorem operatorArguments_eq_bind {spec : Specification} (h : spec.DeclaresOperands) (op : String)
    (left right : Value) : operatorArguments op spec left right = spec.bind [left, right] := by
  obtain ⟨⟨first, second, rest, listed⟩, distinct⟩ := h
  have named := distinct.named
  simp only [Specification.names, listed, List.map_cons, List.take_succ_cons, List.take_zero,
    List.forall_mem_cons, Specification.nameOf] at named
  obtain ⟨hx, hy, -⟩ := named
  have parameters : spec.parameters = .ok ((first :: second :: rest).map Value.dict) := by
    simp only [Specification.parameters, listed]
    rfl
  have names : ((first :: second :: rest).map Value.dict).mapM (Value.entry "name") =
      .ok (Value.field "name" first :: Value.field "name" second ::
        rest.map (Value.field "name")) := mapM_entry "name" _
  simp only [operatorArguments, listed, List.map_cons, operandName, Value.entry, bind, Except.bind,
    pure, Except.pure, hx, hy, if_true]
  simp only [Specification.bind, parameters, names, bind, Except.bind, List.length_cons,
    List.zip_cons_cons, List.zip_nil_right, List.mapM_cons, List.mapM_nil, pure, Except.pure]
  rw [if_neg (by simp)]
  cases (Value.field "name" first).key? <;> cases (Value.field "name" second).key? <;> rfl

/-! ## Trees with calls -/

namespace Formula.Tree

mutual

/-- The tree with calls instead of operators. A minus stays in front of a number, which it negates,
and an operator without a process stays, too. -/
def asCalls : Tree → Tree
  | .number value => .number value
  | .identifier name => .identifier name
  | .binary op left right =>
    match Dictionary.get? op operatorProcesses with
    | some process => .call process [left.asCalls, right.asCalls]
    | none => .binary op left.asCalls right.asCalls
  | .unary op operand =>
    if op = "-" ∧ operand.number? = none then
      .call "multiply" [.number (.int (-1)), operand.asCalls]
    else .unary op operand.asCalls
  | .call name arguments => .call name (allAsCalls arguments)
  | .group inner => .group inner.asCalls

def allAsCalls : List Tree → List Tree
  | [] => []
  | t :: ts => t.asCalls :: allAsCalls ts

end

end Formula.Tree

/-! ## Steps -/

namespace Build

section
variable {α β : Type} {ws : Workspace} {b : BuilderRef}

/-- What follows a step counts only for what the step can answer. -/
theorem run_bind_congr {step step' : Build α} {f f' : α → Build β}
    (hs : step'.run ws = step.run ws)
    (hf : ∀ a now, step.run ws = (.ok a, now) → (f' a).run now = (f a).run now) :
    (step' >>= f').run ws = (step >>= f).run ws := by
  rw [run_bind_state, run_bind_state, hs]
  rcases run : step.run ws with ⟨e | a, now⟩
  · rfl
  · exact hf a now run

/-- An operator of the catalog is a call with the operands in their order. -/
theorem run_addOperator (declared : (ws.catalogOf b).DeclaresOperators) {op process : String}
    (hop : Dictionary.get? op operatorProcesses = some process) (left right : Value) :
    (addOperator b op left right).run ws = (invoke b process (.list [left, right])).run ws := by
  have key := splitProcessId_operator hop
  simp only [addOperator, hop, run_get_bind]
  have here : (get : Build Workspace).run ws = (.ok ws, ws) := rfl
  cases found : (ws.catalogOf b).get? process none with
  | none => simp only [invoke, key, makeNode, run_bind_state, here, found, run_throw]
  | some spec =>
    have bound := operatorArguments_eq_bind (declared op process spec hop found) op left right
    cases arguments : spec.bind [left, right] <;>
      simp only [invoke, key, makeNode, run_bind_state, here, found, Specification.bindArguments,
        bound, arguments, run_ofExcept]

theorem lower_call_pair (name : String) (left right : Formula.Tree) :
    lower b (.call name [left, right]) = (do
      let v ← lower b left
      let w ← lower b right
      return .node (← invoke b name (.list [v, w]))) := by
  simp only [lower, lowerAll, bind_assoc, pure_bind]

/-- A minus that has no number to negate is a product. -/
theorem applySign_of_number?_eq_none {v : Value} (h : v.number? = none) :
    applySign b "-" v = (do return .node (← addOperator b "*" (.int (-1)) v)) := by
  cases v with
  | int | float => cases h
  | _ => rfl

end

end Build

section
variable {b : BuilderRef}

mutual

theorem run_lower_asCalls {ws : Workspace} (h : ws.WellFormed) (hb : b.index < ws.builders.size)
    (declared : (ws.catalogOf b).DeclaresOperators) : (t : Formula.Tree) →
    (Build.lower b t.asCalls).run ws = (Build.lower b t).run ws
  | .number value => rfl
  | .identifier name => rfl
  | .binary op left right => by
    have hl := run_lower_asCalls h hb declared left
    have operands {f f' : Value → Value → Build Value}
        (hf : ∀ v w now, (now.catalogOf b).DeclaresOperators →
          (f' v w).run now = (f v w).run now) :
        (do let v ← Build.lower b left.asCalls; let w ← Build.lower b right.asCalls; f' v w).run ws
          = (do let v ← Build.lower b left; let w ← Build.lower b right; f v w).run ws := by
      refine Build.run_bind_congr hl fun v w₁ hv => ?_
      obtain ⟨h₁, -, -⟩ := lower_eq_ok h hb hv
      have hb₁ := h₁.within hb
      have declared₁ := (h₁.catalogOf hb).symm ▸ declared
      refine Build.run_bind_congr (run_lower_asCalls h₁.wellFormed hb₁ declared₁ right)
        fun w w₂ hw => ?_
      obtain ⟨h₂, -, -⟩ := lower_eq_ok h₁.wellFormed hb₁ hw
      exact hf v w w₂ ((h₂.catalogOf hb₁).symm ▸ declared₁)
    unfold Formula.Tree.asCalls
    cases hop : Dictionary.get? op operatorProcesses with
    | none =>
      simp only [Build.lower]
      exact operands fun _ _ _ _ => rfl
    | some process =>
      rw [Build.lower_call_pair, Build.lower]
      exact operands fun v w now declared =>
        Build.run_bind_congr (Build.run_addOperator declared hop v w).symm fun _ _ _ => rfl
  | .unary op operand => by
    have ih := run_lower_asCalls h hb declared operand
    unfold Formula.Tree.asCalls
    split
    · rename_i product
      obtain ⟨rfl, hn⟩ := product
      rw [Build.lower_call_pair, Build.lower, Build.lower, pure_bind]
      refine Build.run_bind_congr ih fun v now hv => ?_
      have none : v.number? = none := (number?_lower h hb operand hv).symm.trans hn
      obtain ⟨h₁, -, -⟩ := lower_eq_ok h hb hv
      have declared₁ := (h₁.catalogOf hb).symm ▸ declared
      rw [Build.applySign_of_number?_eq_none none]
      exact Build.run_bind_congr (Build.run_addOperator declared₁ rfl _ v).symm fun _ _ _ => rfl
    · simp only [Build.lower]
      exact Build.run_bind_congr ih fun _ _ _ => rfl
  | .call name arguments => by
    simp only [Formula.Tree.asCalls, Build.lower]
    exact Build.run_bind_congr (run_lowerAll_asCalls h hb declared arguments) fun _ _ _ => rfl
  | .group inner => by
    simp only [Formula.Tree.asCalls, Build.lower]
    exact run_lower_asCalls h hb declared inner

theorem run_lowerAll_asCalls {ws : Workspace} (h : ws.WellFormed) (hb : b.index < ws.builders.size)
    (declared : (ws.catalogOf b).DeclaresOperators) : (ts : List Formula.Tree) →
    (Build.lowerAll b (Formula.Tree.allAsCalls ts)).run ws = (Build.lowerAll b ts).run ws
  | [] => rfl
  | t :: ts => by
    simp only [Formula.Tree.allAsCalls, Build.lowerAll]
    refine Build.run_bind_congr (run_lower_asCalls h hb declared t) fun v now hv => ?_
    obtain ⟨h₁, -, -⟩ := lower_eq_ok h hb hv
    have declared₁ := (h₁.catalogOf hb).symm ▸ declared
    exact Build.run_bind_congr
      (run_lowerAll_asCalls h₁.wellFormed (h₁.within hb) declared₁ ts) fun _ _ _ => rfl

end

end

end ProcessGraph
