import ProcessGraph.Proofs.Graph.CallDeclarations

/-!
# Operands that are kept

A call with positional arguments writes them under the names of the parameters, which may be missing
or repeated. Parameters without a name share the key null, and those called 1 and true share a key,
too. An operator calls the first two parameters by stand-ins if they have no names, and one may be
called by the stand-in of the other.

Main statement: a call holds its positional arguments, each under a key of its own, exactly if the
names of the first parameters differ, and an operator holds both operands exactly if the names or
stand-ins differ (`arguments_hold_iff`). Of arguments with the same key the last one is left.
-/

set_option autoImplicit false

namespace ProcessGraph

open Dictionary

/-! ## Binding -/

/-- The values are there in this order, each under a key of its own, and maybe others behind. -/
def Value.Entries.Hold (arguments : Value.Entries) (vs : List Value) : Prop :=
  arguments.keys.Nodup ∧ vs <+: arguments.values

theorem Value.Entries.hold_ofEntries_iff (e : Value.Entries) :
    Value.Entries.Hold (ofEntries e) e.values ↔ e.keys.Nodup :=
  (and_iff_right (nodup_keys_ofEntries e)).trans values_prefix_ofEntries_iff

namespace Specification

/-- The key of an operand: the name of its parameter, or a stand-in if that has no name. -/
def operandKey (spec : Specification) (i : Nat) (standIn : String) : Option Scalar :=
  (spec.names[i]?).bind fun name => (if name.isTruthy then name else .str standIn).key?

section
variable {spec : Specification} {vs : List Value} {entries : Value.Entries}
  (bound : spec.bind vs = .ok entries)
include bound

theorem hold_bind_iff : entries.Hold vs ↔ spec.KeysDiffer vs.length := by
  obtain ⟨-, rfl, values, keys⟩ := bind_eq_named bound
  have hold := Value.Entries.hold_ofEntries_iff (spec.named vs)
  rwa [values, keys] at hold

/-- Arguments under other names come behind. -/
theorem hold_insertAll {more : Value.Entries} (differ : spec.KeysDiffer vs.length)
    (apart : ∀ key ∈ more.keys, key ∉ keys (spec.named vs)) :
    Value.Entries.Hold (insertAll entries more) vs := by
  obtain ⟨-, rfl, values, keys⟩ := bind_eq_named bound
  have nodup := keys.2 differ
  rw [ofEntries_of_nodup nodup]
  refine ⟨nodup_keys_insertAll nodup more, ?_⟩
  have behind : insertAll (spec.named vs) more = spec.named vs ++ insertAll [] more := by
    simpa using insertAll_append_of_disjoint apart []
  have all : Dictionary.values (spec.named vs ++ insertAll [] more) =
      vs ++ Dictionary.values (insertAll [] more) :=
    List.map_append.trans (congrArg (· ++ _) values)
  rw [behind, all]
  exact List.prefix_append _ _

end

/-- The operands of an operator under their keys. -/
theorem operatorArguments_eq_operandKey {op : String} {spec : Specification} {left right : Value}
    {entries : Value.Entries} (h : operatorArguments op spec left right = .ok entries) :
    ∃ x y, spec.operandKey 0 "x" = some x ∧ spec.operandKey 1 "y" = some y ∧
      entries = ofEntries (Scalar.spellAlike [(x, left), (y, right)]) := by
  obtain ⟨first, second, rest, name, name', x, y, hp, hx, hy, hkx, hky, rfl⟩ :=
    operatorArguments_eq_ok h
  have names : spec.names = nameOf first :: nameOf second :: rest.map nameOf := by
    simp only [Specification.names, hp, List.map_cons]
  refine ⟨x, y, ?_, ?_, rfl⟩
  · rw [← hkx, operandName_eq_ok hx, operandKey, names]
    rfl
  · rw [← hky, operandName_eq_ok hy, operandKey, names]
    rfl

end Specification

/-! ## Calls -/

section
variable {ws now : Workspace} {b : BuilderRef} {n : NodeRef} {spec : Specification}

/-- The node of a call has the arguments that were bound. -/
theorem bindArguments_invoke {process : String} {arguments description : Value}
    {space : Option String}
    (found : (ws.catalogOf b).get? (callKey process space).1 (callKey process space).2 = some spec)
    (run : (Build.invoke b process arguments description space).run ws = (.ok n, now)) :
    spec.bindArguments arguments = .ok (now.node n).arguments := by
  obtain ⟨made, r, hmade, rfl⟩ := Build.invoke_eq_makeNode run
  obtain ⟨spec', entries, id, numbered, declared, found', bound, -, -, pushed⟩ :=
    Build.makeNode_eq_ok hmade
  obtain rfl := Option.some.inj (found.symm.trans found')
  cases pushed
  rw [bound]
  show _ = Except.ok ((declared.nodes.push _).get declared.nodes.size).arguments
  rw [Arena.get_push_size]

theorem bind_invoke {process : String} {arguments description : Value} {space : Option String}
    {vs : List Value} (positional : arguments = .list vs ∨ arguments = .tuple vs)
    (found : (ws.catalogOf b).get? (callKey process space).1 (callKey process space).2 = some spec)
    (run : (Build.invoke b process arguments description space).run ws = (.ok n, now)) :
    spec.bind vs = .ok (now.node n).arguments := by
  have bound := bindArguments_invoke found run
  rcases positional with rfl | rfl <;> exact bound

/-- Arguments by name are written into those that were bound by position. -/
theorem bind_callShortcut {process : String} {vs : List Value} {named : Value.Entries}
    (found : named = [] →
      (ws.catalogOf b).get? (callKey process none).1 (callKey process none).2 = some spec)
    (run : (Build.callShortcut b process spec vs named).run ws = (.ok n, now)) :
    ∃ entries, spec.bind vs = .ok entries ∧ (now.node n).arguments = insertAll entries named := by
  unfold Build.callShortcut at run
  split at run
  · rename_i none
    subst none
    exact ⟨_, bind_invoke (.inl rfl) (found rfl) run, rfl⟩
  · obtain ⟨entries, _, bound, run⟩ := run_bind_eq_ok run
    rw [Build.run_ofExcept, Prod.mk.injEq] at bound
    obtain ⟨bound, rfl⟩ := bound
    obtain ⟨made, r, hmade, -⟩ := Build.invoke_eq_makeNode run
    obtain ⟨spec', _, _, _, _, found', -⟩ := Build.makeNode_eq_ok hmade
    exact ⟨entries, bound, (Except.ok.inj (bindArguments_invoke found' run)).symm⟩

theorem bind_addOperator {op process : String} {left right : Value}
    (operator : get? op operatorProcesses = some process)
    (found : (ws.catalogOf b).get? process none = some spec)
    (run : (Build.addOperator b op left right).run ws = (.ok n, now)) :
    operatorArguments op spec left right = .ok (now.node n).arguments := by
  obtain ⟨process', spec', entries, operator', found', bound, run⟩ := addOperator_eq_invoke run
  obtain rfl := Option.some.inj (operator.symm.trans operator')
  obtain rfl := Option.some.inj (found.symm.trans found')
  have key : callKey process none = (process, none) := splitProcessId_operator operator
  have named := bindArguments_invoke (by rw [key]; exact found) run
  rw [bound]
  exact named

/-- **When operands are held.** A call holds its arguments by position if the names of the first
parameters differ, and only then. Of several with the same name the last one is left. Arguments by
name come behind them, if they are for other parameters. An operator holds both operands if the
names of its parameters differ, and only then, where those without a name are `x` and `y`. -/
theorem arguments_hold_iff :
    (∀ {process : String} {arguments description : Value} {space : Option String} {vs : List Value},
      arguments = .list vs ∨ arguments = .tuple vs →
      (ws.catalogOf b).get? (callKey process space).1 (callKey process space).2 = some spec →
      (Build.invoke b process arguments description space).run ws = (.ok n, now) →
      vs.length ≤ spec.names.length ∧
      ((now.node n).arguments.Hold vs ↔ spec.KeysDiffer vs.length) ∧
      ∀ key, get? key (now.node n).arguments = get? key (spec.named vs).reverse) ∧
    (∀ {process : String} {vs : List Value} {named : Value.Entries},
      (named = [] →
        (ws.catalogOf b).get? (callKey process none).1 (callKey process none).2 = some spec) →
      (Build.callShortcut b process spec vs named).run ws = (.ok n, now) →
      (now.node n).arguments = insertAll (ofEntries (spec.named vs)) named ∧
      (spec.KeysDiffer vs.length → (∀ key ∈ named.keys, key ∉ keys (spec.named vs)) →
        (now.node n).arguments.Hold vs)) ∧
    ∀ {op process : String} {left right : Value},
      get? op operatorProcesses = some process → (ws.catalogOf b).get? process none = some spec →
      (Build.addOperator b op left right).run ws = (.ok n, now) →
      ∃ x y, spec.operandKey 0 "x" = some x ∧ spec.operandKey 1 "y" = some y ∧
        (now.node n).arguments = ofEntries (Scalar.spellAlike [(x, left), (y, right)]) ∧
        ((now.node n).arguments.Hold [left, right] ↔ x.compared ≠ y.compared) := by
  refine ⟨fun positional found run => ?_, fun found run => ?_,
    @fun op process left right operator found run => ?_⟩
  · have bound := bind_invoke positional found run
    obtain ⟨length, entries, -⟩ := Specification.bind_eq_named bound
    refine ⟨length, Specification.hold_bind_iff bound, fun key => ?_⟩
    rw [entries, get?_ofEntries]
  · obtain ⟨entries, bound, written⟩ := bind_callShortcut found run
    refine ⟨?_, fun differ apart => ?_⟩
    · rw [written, (Specification.bind_eq_named bound).2.1]
    · rw [written]
      exact Specification.hold_insertAll bound differ apart
  · obtain ⟨x, y, hx, hy, entries⟩ :=
      Specification.operatorArguments_eq_operandKey (bind_addOperator operator found run)
    refine ⟨x, y, hx, hy, entries, ?_⟩
    rw [entries]
    have held := Value.Entries.hold_ofEntries_iff (Scalar.spellAlike [(x, left), (y, right)])
    have apart := Scalar.nodup_spellAlike_iff [(x, left), (y, right)]
    exact held.trans (apart.trans (by simp))

end

/-! ## Addition without names -/

/-- An addition whose parameters have no names. -/
def namelessAddition : Specification :=
  [(.str "id", .str "add"), (.str "parameters", .list [.dict [], .dict []])]

def Workspace.nameless : Workspace :=
  ((Build.createBuilder (.list [.dict namelessAddition]) .null none none []).run {}).2

/-- The call with 7 and 2 loses the 7. The operator keeps it, and so does the shortcut if the 2 is
given by name. -/
theorem arguments_hold_iff_addition :
    (∃ n now, (Build.invoke ⟨0⟩ "add" (.list [.int 7, .int 2])).run .nameless = (.ok n, now) ∧
      ¬ (now.node n).arguments.Hold [.int 7, .int 2]) ∧
    (∃ n now, (Build.callShortcut ⟨0⟩ "add" namelessAddition [.int 7]
        [(.str "y", .int 2)]).run .nameless = (.ok n, now) ∧
      (now.node n).arguments.Hold [.int 7]) ∧
    ∃ n now, (Build.addOperator ⟨0⟩ "+" (.int 7) (.int 2)).run .nameless = (.ok n, now) ∧
      (now.node n).arguments.Hold [.int 7, .int 2] := by
  have found : (Workspace.nameless.catalogOf ⟨0⟩).get? "add" none = some namelessAddition := by rfl
  have called : (Workspace.nameless.catalogOf ⟨0⟩).get? (callKey "add" none).1
      (callKey "add" none).2 = some namelessAddition := by rfl
  refine ⟨?_, ?_, ?_⟩
  · have result : ((Build.invoke ⟨0⟩ "add" (.list [.int 7, .int 2])).run .nameless).1.toOption =
        some ⟨0⟩ := by decide +kernel
    rcases run : (Build.invoke ⟨0⟩ "add" (.list [.int 7, .int 2])).run .nameless with ⟨e | n, now⟩
    · rw [run] at result
      cases result
    · have held := arguments_hold_iff.1 (.inl rfl) called run
      exact ⟨n, now, rfl, fun h => absurd (held.2.1.1 h) (by decide +kernel)⟩
  · have result : ((Build.callShortcut ⟨0⟩ "add" namelessAddition [.int 7]
        [(.str "y", .int 2)]).run .nameless).1.toOption = some ⟨0⟩ := by decide +kernel
    rcases run : (Build.callShortcut ⟨0⟩ "add" namelessAddition [.int 7]
        [(.str "y", .int 2)]).run .nameless with ⟨e | n, now⟩
    · rw [run] at result
      cases result
    · have held := arguments_hold_iff.2.1 (fun _ => called) run
      exact ⟨n, now, rfl, held.2 (by decide +kernel) (by decide +kernel)⟩
  · have result : ((Build.addOperator ⟨0⟩ "+" (.int 7) (.int 2)).run .nameless).1.toOption =
        some ⟨0⟩ := by decide +kernel
    rcases run : (Build.addOperator ⟨0⟩ "+" (.int 7) (.int 2)).run .nameless with ⟨e | n, now⟩
    · rw [run] at result
      cases result
    · obtain ⟨x, y, hx, hy, -, held⟩ := arguments_hold_iff.2.2 (by rfl) found run
      cases hx
      cases hy
      exact ⟨n, now, rfl, held.2 (by decide)⟩

end ProcessGraph
