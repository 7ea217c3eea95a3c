import ProcessGraph.Proofs.Graph.Meaning
import Mathlib.Algebra.Ring.Int.Defs

/-!
# Lowering preserves meaning

`t.meaning I b ws`: what a formula says by itself when it is read in a builder, from left to right.
An operator or call applies its process to the operands, by the names that the specification lists;
a minus negates a number and is otherwise a product with -1; `#id` means what the node of that id
means when the reading gets there.

Main statement: what a formula is lowered to means what the formula means (`meaning_lower`).
-/

set_option autoImplicit false

universe u v

namespace ProcessGraph

/-! ## Positional arguments -/

namespace Specification

/-- The name of a parameter in a specification, null if it has none. -/
def nameOf : Value → Value
  | .dict d => Value.field "name" d
  | _ => .null

/-- The names of the parameters. -/
def names (spec : Specification) : List Value :=
  match Value.field "parameters" spec with
  | .list ps => ps.map nameOf
  | .tuple ps => ps.map nameOf
  | _ => []

/-- Values under the names of the first parameters. -/
def named {α : Type u} (spec : Specification) (xs : List α) : List (Scalar × α) :=
  Scalar.spellAlike <|
    (spec.names.zip xs).filterMap fun p => p.1.key?.map fun key => (key, p.2)

/-- What the keys of the first `n` parameters are compared by. -/
def comparedKeys (spec : Specification) (n : Nat) : List (Option Scalar) :=
  (spec.names.take n).map fun name => name.key?.map Scalar.compared

/-- The first `n` parameters have different keys. Those without a name have the key null. -/
def KeysDiffer (spec : Specification) (n : Nat) : Prop := (spec.comparedKeys n).Nodup

instance (spec : Specification) (n : Nat) : Decidable (spec.KeysDiffer n) :=
  inferInstanceAs (Decidable (List.Nodup _))

/-- The first `n` parameters have names, no two of them the same. -/
structure Distinct (spec : Specification) (n : Nat) : Prop where
  named : ∀ name ∈ spec.names.take n, name.isTruthy
  differ : spec.KeysDiffer n

instance (spec : Specification) (n : Nat) : Decidable (spec.Distinct n) :=
  decidable_of_iff ((∀ name ∈ spec.names.take n, name.isTruthy) ∧ spec.KeysDiffer n)
    ⟨fun h => ⟨h.1, h.2⟩, fun h => ⟨h.1, h.2⟩⟩

theorem map_nameOf_of_mapM {ps names : List Value}
    (h : ps.mapM (Value.entry "name") = .ok names) : ps.map nameOf = names := by
  have rel := forall₂_of_mapM h
  clear h
  induction rel with
  | nil => rfl
  | @cons p name ps names hp _ ih =>
    have e : nameOf p = name := by
      cases p with
      | dict d =>
        cases hp
        rfl
      | _ => cases hp
    rw [List.map_cons, e, ih]

/-- Only objects have names. -/
theorem eq_nil_of_mapM {ps names : List Value} (h : ps.mapM (Value.entry "name") = .ok names)
    (hp : ∀ p ∈ ps, ∀ d, p ≠ .dict d) : names = [] := by
  cases forall₂_of_mapM h with
  | nil => rfl
  | @cons p _ _ _ hname =>
    cases p with
    | dict d => exact absurd rfl (hp _ List.mem_cons_self d)
    | _ => cases hname

theorem names_of_parameterNames {spec : Specification} {names : List Value}
    (h : spec.parameterNames = .ok names) : spec.names = names := by
  unfold parameterNames parameters at h
  unfold Specification.names
  generalize Value.field "parameters" spec = v at h ⊢
  dsimp only at h
  split at h
  · cases v with
    | list ps => exact map_nameOf_of_mapM h
    | tuple ps => exact map_nameOf_of_mapM h
    | str s =>
      refine (eq_nil_of_mapM h fun p hp d => ?_).symm
      obtain ⟨c, -, rfl⟩ := List.mem_map.1 hp
      exact nofun
    | dict entries =>
      refine (eq_nil_of_mapM h fun p hp d => ?_).symm
      obtain ⟨e, -, rfl⟩ := List.mem_map.1 hp
      cases e.1 <;> exact nofun
    | _ => cases h
  · rename_i hv
    obtain rfl := Except.ok.inj h
    cases v with
    | list ps => simpa [Value.isTruthy] using hv
    | tuple ps => simpa [Value.isTruthy] using hv
    | _ => rfl

theorem named_map {α : Type u} {β : Type v} (spec : Specification) (f : α → β) (xs : List α) :
    spec.named (xs.map f) = (spec.named xs).map fun p => (p.1, f p.2) := by
  simp only [named, ← Scalar.spellAlike_map, List.zip_map_right, List.filterMap_map,
    List.map_filterMap]
  congr 2
  funext p
  simp only [Function.comp_apply, Prod.map_fst, Prod.map_snd, Option.map_map]
  rfl

theorem filterMap_of_forall₂ {xs : List (Value × Value)} {pairs : List (Scalar × Value)}
    (h : List.Forall₂ (fun p q => p.1.key? = some q.1 ∧ p.2 = q.2) xs pairs) :
    xs.filterMap (fun p => p.1.key?.map fun key => (key, p.2)) = pairs := by
  induction h with
  | nil => rfl
  | @cons p q ps qs hpq _ ih =>
    rw [List.filterMap_cons, hpq.1, hpq.2, ih]
    rfl

theorem map_key?_of_forall₂ {xs : List (Value × Value)} {pairs : List (Scalar × Value)}
    (h : List.Forall₂ (fun p q => p.1.key? = some q.1 ∧ p.2 = q.2) xs pairs) :
    (xs.map (·.1)).map Value.key? = (Dictionary.keys pairs).map some := by
  induction h with
  | nil => rfl
  | @cons p q ps qs hpq _ ih =>
    simp only [Dictionary.keys, List.map_cons, hpq.1] at ih ⊢
    rw [ih]

theorem map_snd_of_forall₂ {xs : List (Value × Value)} {pairs : List (Scalar × Value)}
    (h : List.Forall₂ (fun p q => p.1.key? = some q.1 ∧ p.2 = q.2) xs pairs) :
    xs.map (·.2) = Dictionary.values pairs := by
  induction h with
  | nil => rfl
  | cons hpq _ ih => exact congrArg₂ List.cons hpq.2 ih

/-- Arguments are written one after the other under the first names, which can be keys. -/
theorem bind_eq_named {spec : Specification} {vs : List Value} {entries : Value.Entries}
    (h : spec.bind vs = .ok entries) :
    vs.length ≤ spec.names.length ∧ entries = Dictionary.ofEntries (spec.named vs) ∧
      Dictionary.values (spec.named vs) = vs ∧
      ((Dictionary.keys (spec.named vs)).Nodup ↔ spec.KeysDiffer vs.length) := by
  obtain ⟨names, pairs, hnames, hlen, rel, rfl⟩ := bind_eq_ok h
  obtain rfl := names_of_parameterNames hnames
  have first : (spec.names.zip vs).map (·.1) = spec.names.take vs.length := by
    rw [List.zip_eq_zip_take_min, List.map_fst_zip (by simp), Nat.min_eq_right hlen]
  have second : Dictionary.values pairs = vs :=
    (map_snd_of_forall₂ rel).symm.trans (List.map_snd_zip hlen)
  have keys : (pairs.map (·.1)).map some = (spec.names.take vs.length).map Value.key? := by
    rw [← first, map_key?_of_forall₂ rel]
    rfl
  rw [named, filterMap_of_forall₂ rel]
  refine ⟨hlen, rfl, (Scalar.map_snd_spellAlike pairs).trans second,
    (Scalar.nodup_spellAlike_iff pairs).trans ?_⟩
  have compared : spec.comparedKeys vs.length =
      ((pairs.map (·.1)).map Scalar.compared).map some := by
    have same := congrArg (List.map (Option.map Scalar.compared)) keys
    simpa [comparedKeys, Function.comp_def] using same.symm
  rw [KeysDiffer, compared]
  exact (List.nodup_map_iff fun _ _ => Option.some.inj).symm

/-- Arguments that are bound to different names are all there. -/
theorem entries_eq_named {spec : Specification} {vs : List Value} {entries : Value.Entries}
    (h : spec.bind vs = .ok entries) (distinct : spec.Distinct vs.length) :
    entries = spec.named vs := by
  obtain ⟨-, rfl, -, keys⟩ := bind_eq_named h
  exact Dictionary.ofEntries_of_nodup (keys.2 distinct.differ)

/-- An operand parameter without a name is called by the stand-in. -/
theorem operandName_eq_ok {standIn : String} {p name : Value}
    (h : operandName standIn p = .ok name) :
    name = if (nameOf p).isTruthy then nameOf p else .str standIn := by
  unfold operandName at h
  cases p with
  | dict d =>
    simp only [Value.entry, Bind.bind, Except.bind, pure, Except.pure, Except.ok.injEq] at h
    exact h.symm
  | _ => cases h

/-- The operands of an operator are bound to the names of the first two parameters. -/
theorem operands_eq_named {op : String} {spec : Specification} {left right : Value}
    {entries : Value.Entries} (h : operatorArguments op spec left right = .ok entries)
    (distinct : spec.Distinct 2) : entries = spec.named [left, right] := by
  obtain ⟨first, second, rest, name, name', x, y, hp, hx, hy, hkx, hky, rfl⟩ :=
    operatorArguments_eq_ok h
  have names : spec.names = nameOf first :: nameOf second :: rest.map nameOf := by
    simp only [Specification.names, hp, List.map_cons]
  obtain ⟨truthy, differ⟩ := distinct
  rw [names] at truthy
  obtain rfl := (operandName_eq_ok hx).trans (if_pos (truthy _ (by simp)))
  obtain rfl := (operandName_eq_ok hy).trans (if_pos (truthy _ (by simp)))
  have operands : spec.named [left, right] = Scalar.spellAlike [(x, left), (y, right)] := by
    rw [named, names]
    simp [hkx, hky]
  have nodup : (Dictionary.keys (Scalar.spellAlike [(x, left), (y, right)])).Nodup := by
    refine (Scalar.nodup_spellAlike_iff _).2 ?_
    simpa [KeysDiffer, comparedKeys, names, hkx, hky] using differ
  rw [Dictionary.ofEntries_of_nodup nodup, operands]

end Specification

/-! ## The meaning of trees -/

variable {D : Type u} (I : Interpretation D)

/-- A process of a catalog, applied to positional arguments. -/
def Interpretation.apply (catalog : Catalog) (key : String × Option String) (args : List D) : D :=
  match catalog.get? key.1 key.2 with
  | some spec => I.process key.1 key.2 (spec.named args)
  | none => I.scalar .null

/-- The process of an operator, applied to two operands. -/
def Interpretation.operate (catalog : Catalog) (op : String) (left right : D) : D :=
  match Dictionary.get? op operatorProcesses with
  | some process => I.apply catalog (process, none) [left, right]
  | none => I.scalar .null

namespace Workspace

variable (ws : Workspace) (b : BuilderRef)

/-- The element of a callback parameter that a text names. -/
def elementMeaning (parameter : Value) (key : String) : D :=
  let process := splitProcessId (ws.builder b).settings.arrayElementProcess
  match ElementKey.ofText key with
  | .ok k => I.process process.1 process.2
      [(.str "data", I.parameter parameter), (.str k.argument, ws.meaning I k.toValue)]
  | .error _ => I.scalar .null

/-- What an identifier means: a literal, a node, an element of a callback parameter, counted by the
dollars in front, or a parameter. -/
def identifierMeaning (name : String) : D :=
  if name = "true" then I.scalar (.bool true)
  else if name = "false" then I.scalar (.bool false)
  else if name = "null" then I.scalar .null
  else if name.toList.head? = some '#' then
    match Dictionary.get? (String.ofList name.toList.tail) (ws.builder b).nodes with
    | some n => ws.meaning I (.node n)
    | none => I.scalar .null
  else if name.toList.head? = some '$' then
    let depth := (name.toList.takeWhile (· = '$')).length
    match ((ws.parentNames b).toOption.getD [])[depth - 1]? with
    | some parameter =>
      ws.elementMeaning I b parameter (String.ofList (name.toList.dropWhile (· = '$')))
    | none => I.parameter (.str name)
  else I.parameter (.str name)

/-- The workspace in which the reading goes on after a tree. -/
def after (t : Formula.Tree) : Workspace := ((Build.lower b t).run ws).2

end Workspace

def Scalar.negated : Scalar → Scalar
  | .int n => .int (-n)
  | .float x => .float x.neg
  | s => s

namespace Formula.Tree

/-- The number that a tree writes: a numeral, maybe in parentheses and with signs. -/
def number? : Tree → Option Scalar
  | .number (.int n) => some (.int n)
  | .number (.float x) => some (.float x)
  | .unary op operand =>
    if op = "-" then (number? operand).map Scalar.negated else number? operand
  | .group inner => number? inner
  | _ => none

variable (b : BuilderRef)

mutual

/-- What a tree means when it is read in a workspace. -/
def meaning : Workspace → Tree → D
  | _, .number value => I.scalar value
  | ws, .identifier name => ws.identifierMeaning I b name
  | ws, .binary op left right =>
    I.operate (ws.catalogOf b) op (meaning ws left) (meaning (ws.after b left) right)
  | ws, .unary op operand =>
    if op = "-" then
      match operand.number? with
      | some value => I.scalar value.negated
      | none => I.operate (ws.catalogOf b) "*" (I.scalar (.int (-1))) (meaning ws operand)
    else meaning ws operand
  | ws, .call name arguments =>
    I.apply (ws.catalogOf b) (splitProcessId name) (meanings ws arguments)
  | ws, .group inner => meaning ws inner

def meanings : Workspace → List Tree → List D
  | _, [] => []
  | ws, t :: ts => meaning ws t :: meanings (ws.after b t) ts

end

/-- The names that an operator binds can be told apart. -/
def OperatorFits (catalog : Catalog) (op : String) : Prop :=
  ∀ process spec, Dictionary.get? op operatorProcesses = some process →
    catalog.get? process none = some spec → spec.Distinct 2

mutual

/-- The names that the tree binds can be told apart, for each process that it uses. -/
def Fits (catalog : Catalog) : Tree → Prop
  | .number _ => True
  | .identifier _ => True
  | .binary op left right => OperatorFits catalog op ∧ Fits catalog left ∧ Fits catalog right
  | .unary op operand =>
    (op = "-" → operand.number? = none → OperatorFits catalog "*") ∧ Fits catalog operand
  | .call name arguments =>
    (∀ spec, catalog.get? (splitProcessId name).1 (splitProcessId name).2 = some spec →
      spec.Distinct arguments.length) ∧ FitAll catalog arguments
  | .group inner => Fits catalog inner

def FitAll (catalog : Catalog) : List Tree → Prop
  | [] => True
  | t :: ts => Fits catalog t ∧ FitAll catalog ts

end

end Formula.Tree

/-! ## What is known after a step -/

namespace Workspace

/-- A well-formed workspace that has come from `ws` by building steps. -/
abbrev Continues (ws now : Workspace) : Prop := ws.Extends (fun _ => True) (fun _ => True) now

variable {ws now : Workspace} {b : BuilderRef}

theorem Continues.grows (h : ws.Continues now) : ws.Grows now := h.kept.toGrows

theorem Continues.within (h : ws.Continues now) (hb : b.index < ws.builders.size) :
    b.index < now.builders.size := Nat.lt_of_lt_of_le hb h.grows.builders

theorem Continues.catalogOf (h : ws.Continues now) (hb : b.index < ws.builders.size) :
    now.catalogOf b = ws.catalogOf b := by
  simp only [Workspace.catalogOf, Workspace.catalog, h.kept.catalogs, (h.grows.builder b hb).2.2]

theorem open_of_within (hb : b.index < ws.builders.size) :
    Open (fun _ => True) (fun _ => True) ws ws b := ⟨hb, .inl trivial, .inl trivial⟩

/-- A callback parameter remembers the node for an element. -/
def remember (ws : Workspace) (a : AccessRef) (key : ElementKey) (n : NodeRef) : Workspace :=
  ws.modifyAccess a fun access =>
    { access with elements := Dictionary.insert key n access.elements }

end Workspace

/-- A formula that is lowered to a node has that node as its value. -/
theorem lowerToNode_eq_ok {ws now : Workspace} {b : BuilderRef} {text : String}
    {t : Formula.Tree} {n : NodeRef}
    (run : (Build.lowerToNode b text t).run ws = (.ok n, now)) :
    (Build.lower b t).run ws = (.ok (.node n), now) := by
  unfold Build.lowerToNode at run
  rw [Build.run_atomically] at run
  split at run
  · rename_i block
    cases run
    obtain ⟨v, lowered, hv, ended⟩ := run_bind_eq_ok block
    split at ended
    · cases ended
      exact hv
    · cases ended
  · cases run

/-- A formula is lowered to a node, which may then be flagged. -/
theorem generate_eq_ok {ws now : Workspace} {b : BuilderRef} {f : FormulaRef} {asResult : Bool}
    {n : NodeRef} (hf : (ws.formula f).builder = some b)
    (run : (Build.generate f asResult).run ws = (.ok n, now)) :
    ∃ lowered r, (Build.lower b (ws.formula f).tree).run ws = (.ok (.node n), lowered) ∧
      now = (if asResult then ((Build.setResult n (.bool true)).run lowered).2
        else lowered).addRecord r := by
  unfold Build.generate at run
  rw [Build.run_get_bind] at run
  dsimp only at run
  rw [hf] at run
  obtain ⟨m, lowered, block, run⟩ := run_bind_eq_ok run
  cases asResult <;> cases run
  · exact ⟨lowered, _, lowerToNode_eq_ok block, rfl⟩
  · exact ⟨lowered, _, lowerToNode_eq_ok block, rfl⟩

section
variable {ws now : Workspace} {b : BuilderRef} (h : ws.WellFormed)
  (hb : b.index < ws.builders.size)
include h hb

theorem lower_eq_ok {t : Formula.Tree} {v : Value}
    (run : (Build.lower b t).run ws = (.ok v, now)) :
    ws.Continues now ∧ v.OwnedBy now b ∧ ws.after b t = now := by
  obtain ⟨hnow, -, hv⟩ :=
    (Build.ensures_lower (h.extends _ _) (Workspace.open_of_within hb) t).of_run run
  exact ⟨hnow, hv, by rw [Workspace.after, run]⟩

theorem lowerAll_eq_ok {ts : List Formula.Tree} {vs : List Value}
    (run : (Build.lowerAll b ts).run ws = (.ok vs, now)) :
    ws.Continues now ∧ ∀ v ∈ vs, v.Within now := by
  obtain ⟨hnow, -, hvs⟩ :=
    (Build.ensures_lowerAll (h.extends _ _) (Workspace.open_of_within hb) ts).of_run run
  exact ⟨hnow, hvs⟩

theorem resolve_eq_ok {name : String} {v : Value}
    (run : (Build.resolve b name).run ws = (.ok v, now)) :
    ws.Continues now ∧ ∃ names,
      (if Build.startsWithDollar name then ws.parentNames b else .ok []) = .ok names ∧
      ws.IsResolved now b names v (Reference.ofName name names.length) := by
  obtain ⟨hnow, -, -, is⟩ :=
    (Build.ensures_resolve (h.extends _ _) (Workspace.open_of_within hb) name).of_run run
  exact ⟨hnow, is⟩

theorem addOperator_eq_ok {op : String} {left right : Value} {n : NodeRef}
    (hl : left.Within ws) (hr : right.Within ws)
    (run : (Build.addOperator b op left right).run ws = (.ok n, now)) :
    ws.Continues now ∧ ∃ process spec entries,
      ws.IsOperation now b op left right n process spec entries := by
  obtain ⟨hnow, -, is⟩ :=
    (Build.ensures_addOperator (h.extends _ _) (Workspace.open_of_within hb) op hl hr).of_run run
  exact ⟨hnow, is⟩

theorem invoke_eq_ok {process : String} {arguments : Value} {n : NodeRef}
    (hv : arguments.Within ws)
    (run : (Build.invoke b process arguments).run ws = (.ok n, now)) :
    ws.Continues now ∧ ws.IsCall now b (splitProcessId process) arguments n := by
  obtain ⟨hnow, -, is, -⟩ :=
    (Build.ensures_invoke (h.extends _ _) (Workspace.open_of_within hb) process hv .null
      none).of_run run
  exact ⟨hnow, is⟩

omit h hb in
theorem elementAt_eq_element {a : AccessRef} {key : Value} {n : NodeRef}
    (run : (Build.elementAt a key).run ws = (.ok n, now)) :
    ∃ k, ElementKey.ofValue ws.objectName key = .ok k ∧
      (Build.element a k).run ws = (.ok n, now) := by
  unfold Build.elementAt at run
  rw [Build.run_get_bind] at run
  obtain ⟨k, w₁, hk, rest⟩ := run_bind_eq_ok run
  rw [Build.run_ofExcept, Prod.mk.injEq] at hk
  obtain ⟨hk, rfl⟩ := hk
  exact ⟨k, hk, rest⟩

omit h hb in
/-- An operator is a call of its process with the operands under their names. -/
theorem addOperator_eq_invoke {op : String} {left right : Value} {n : NodeRef}
    (run : (Build.addOperator b op left right).run ws = (.ok n, now)) :
    ∃ process spec entries, Dictionary.get? op operatorProcesses = some process ∧
      (ws.catalogOf b).get? process none = some spec ∧
      operatorArguments op spec left right = .ok entries ∧
      (Build.invoke b process (.dict entries)).run ws = (.ok n, now) := by
  unfold Build.addOperator at run
  split at run
  · cases run
  · rename_i process operator
    rw [Build.run_get_bind] at run
    split at run
    · cases run
    · rename_i spec found
      obtain ⟨entries, w₁, bound, run⟩ := run_bind_eq_ok run
      rw [Build.run_ofExcept, Prod.mk.injEq] at bound
      obtain ⟨bound, rfl⟩ := bound
      exact ⟨process, spec, entries, operator, found, bound, run⟩

omit h hb in
/-- An element that is not remembered is made by a call, and then remembered and reported. -/
theorem element_eq_invoke {a : AccessRef} {key : ElementKey} {n : NodeRef}
    (unknown : Dictionary.get? key (ws.access a).elements = none)
    (run : (Build.element a key).run ws = (.ok n, now)) :
    ∃ made r, (Build.invoke (ws.access a).builder
        (ws.builder (ws.access a).builder).settings.arrayElementProcess
        (.object [("data", .parameter (ws.access a).parameter),
          (key.argument, key.toValue)])).run ws = (.ok n, made) ∧
      now = (made.remember a key n).addRecord r := by
  unfold Build.element at run
  rw [Build.run_get_bind] at run
  dsimp only at run
  rw [unknown] at run
  obtain ⟨m, made, invoked, rest⟩ := run_bind_eq_ok run
  obtain ⟨⟨⟩, remembered, changed, report⟩ := run_bind_eq_ok rest
  cases report
  cases changed
  exact ⟨made, _, invoked, rfl⟩

omit h hb in
/-- An element is remembered, or made by a call and then remembered and reported, which touches
neither nodes nor builders. -/
theorem element_eq_ok {a : AccessRef} {key : ElementKey} {n : NodeRef}
    (run : (Build.element a key).run ws = (.ok n, now)) :
    (Dictionary.get? key (ws.access a).elements = some n ∧ now = ws) ∨
    ∃ made, (Build.invoke (ws.access a).builder
        (ws.builder (ws.access a).builder).settings.arrayElementProcess
        (.object [("data", .parameter (ws.access a).parameter),
          (key.argument, key.toValue)])).run ws = (.ok n, made) ∧
      made.Grows now ∧ now.nodes = made.nodes ∧ now.builders = made.builders ∧
      now.callbackNames = made.callbackNames := by
  cases hk : Dictionary.get? key (ws.access a).elements with
  | some m =>
    unfold Build.element at run
    rw [Build.run_get_bind] at run
    dsimp only at run
    rw [hk] at run
    cases run
    exact .inl ⟨rfl, rfl⟩
  | none =>
    obtain ⟨made, r, invoked, rfl⟩ := element_eq_invoke hk run
    have remembered : made.Grows (made.remember a key n) :=
      made.grows_modifyAccess a fun _ => ⟨rfl, rfl⟩
    exact .inr ⟨made, invoked, remembered.trans (Workspace.grows_addRecord _ r), rfl, rfl, rfl⟩

end

/-! ## Numbers -/

def Value.number? : Value → Option Scalar
  | .int n => some (.int n)
  | .float x => some (.float x)
  | _ => none

section
variable {ws now : Workspace} {b : BuilderRef}

/-- No identifier stands for a number. -/
theorem Workspace.IsResolved.number?_eq_none {names : List Value} {v : Value} {name : String}
    {available : Nat} (is : ws.IsResolved now b names v (Reference.ofName name available)) :
    v.number? = none := by
  generalize href : Reference.ofName name available = reference at is
  cases reference with
  | literal w =>
    obtain rfl := is
    have hm := Dictionary.mem_of_get? (Reference.ofName_eq_literal href)
    simp only [literals, List.mem_cons, Prod.mk.injEq, List.not_mem_nil, or_false] at hm
    rcases hm with ⟨-, rfl⟩ | ⟨-, rfl⟩ | ⟨-, rfl⟩ <;> rfl
  | node id =>
    obtain ⟨n, rfl, -⟩ := is
    rfl
  | element depth key =>
    obtain ⟨_, _, _, n, rfl, -⟩ := is
    rfl
  | parameter name =>
    obtain ⟨r, rfl, -⟩ := is
    rfl

/-- The result of a sign is known from the operand, unless that is no number. -/
theorem applySign_eq_ok {op : String} {v w : Value}
    (run : (Build.applySign b op v).run ws = (.ok w, now)) :
    (op ≠ "-" ∧ w = v ∧ now = ws) ∨
    (op = "-" ∧ (∃ s, v.number? = some s ∧ w = s.negated.toValue ∧ now = ws)) ∨
    (op = "-" ∧ v.number? = none ∧ ∃ n, w = .node n ∧
      (Build.addOperator b "*" (.int (-1)) v).run ws = (.ok n, now)) := by
  unfold Build.applySign at run
  split at run
  · rename_i hop
    cases run
    exact .inl ⟨hop, rfl, rfl⟩
  · rename_i hop
    have hop : op = "-" := by simpa using hop
    split at run
    · cases run
      exact .inr (.inl ⟨hop, _, rfl, rfl, rfl⟩)
    · cases run
      exact .inr (.inl ⟨hop, _, rfl, rfl, rfl⟩)
    · rename_i hint hfloat
      obtain ⟨n, after, hadd, hret⟩ := run_bind_eq_ok run
      cases hret
      refine .inr (.inr ⟨hop, ?_, n, rfl, hadd⟩)
      cases v with
      | int n => exact absurd rfl (hint n)
      | float x => exact absurd rfl (hfloat x)
      | _ => rfl

/-- A tree becomes a number exactly if it writes one. -/
theorem number?_lower (h : ws.WellFormed) (hb : b.index < ws.builders.size) :
    (t : Formula.Tree) → {v : Value} → {now : Workspace} →
    (Build.lower b t).run ws = (.ok v, now) → t.number? = v.number?
  | .number value, v, now, run => by
    unfold Build.lower at run
    cases run
    cases value <;> rfl
  | .identifier name, v, now, run => by
    unfold Build.lower at run
    obtain ⟨-, names, -, is⟩ := resolve_eq_ok h hb run
    exact is.number?_eq_none.symm
  | .binary op left right, v, now, run => by
    unfold Build.lower at run
    obtain ⟨l, w₁, -, run⟩ := run_bind_eq_ok run
    obtain ⟨r, w₂, -, run⟩ := run_bind_eq_ok run
    obtain ⟨n, w₃, -, run⟩ := run_bind_eq_ok run
    cases run
    rfl
  | .unary op operand, v, now, run => by
    unfold Build.lower at run
    obtain ⟨u, after, hu, run⟩ := run_bind_eq_ok run
    have ih := number?_lower h hb operand hu
    unfold Formula.Tree.number?
    rw [ih]
    rcases applySign_eq_ok run with ⟨hop, rfl, -⟩ | ⟨rfl, s, hs, rfl, -⟩ | ⟨rfl, hu, n, rfl, -⟩
    · rw [if_neg hop]
    · rw [if_pos rfl, hs]
      cases u <;> cases hs <;> rfl
    · rw [if_pos rfl, hu]
      rfl
  | .call name arguments, v, now, run => by
    unfold Build.lower at run
    obtain ⟨vs, w₁, -, run⟩ := run_bind_eq_ok run
    obtain ⟨n, w₂, -, run⟩ := run_bind_eq_ok run
    cases run
    rfl
  | .group inner, v, now, run => by
    unfold Build.lower at run
    exact number?_lower h hb inner run

end

/-! ## Each kind of node -/

section
variable {ws now : Workspace} {b : BuilderRef}

/-- A call means its process, applied to what its arguments mean. -/
theorem Workspace.IsCall.meaning {key : String × Option String} {arguments : Value} {n : NodeRef}
    (is : ws.IsCall now b key arguments n) (h : now.WellFormed) :
    now.meaning I (.node n) = I.process key.1 key.2
      ((now.node n).arguments.map fun p => (p.1, now.meaning I p.2)) := by
  rw [h.meaning_node I is.within, ← is.process]

/-- A call with positional arguments. -/
theorem Workspace.IsCall.meaning_named {key : String × Option String} {arguments : Value}
    {n : NodeRef} {vs : List Value} (is : ws.IsCall now b key arguments n) (h : now.WellFormed)
    (hargs : (now.node n).arguments = (now.node n).specification.named vs) :
    now.meaning I (.node n) = I.apply (ws.catalogOf b) key (vs.map (now.meaning I)) := by
  rw [is.meaning I h, Interpretation.apply, is.specification, hargs]
  dsimp only
  rw [Specification.named_map]

theorem splitProcessId_operator {op process : String}
    (h : Dictionary.get? op operatorProcesses = some process) :
    splitProcessId process = (process, none) := by
  have hm := Dictionary.mem_of_get? h
  simp only [operatorProcesses, List.mem_cons, Prod.mk.injEq, List.not_mem_nil, or_false] at hm
  rcases hm with ⟨-, rfl⟩ | ⟨-, rfl⟩ | ⟨-, rfl⟩ | ⟨-, rfl⟩ | ⟨-, rfl⟩ <;> decide

/-- An operator applies its process to what the operands mean. -/
theorem Workspace.IsOperation.meaning {op process : String} {left right : Value} {n : NodeRef}
    {spec : Specification} {entries : Value.Entries}
    (is : ws.IsOperation now b op left right n process spec entries) (h : now.WellFormed)
    (fits : Formula.Tree.OperatorFits (ws.catalogOf b) op) :
    now.meaning I (.node n) =
      I.operate (ws.catalogOf b) op (now.meaning I left) (now.meaning I right) := by
  have key := splitProcessId_operator is.operator
  have hspec : (now.node n).specification = spec := by
    have e := is.call.specification
    rw [key, is.specification] at e
    exact (Option.some.inj e).symm
  have hargs : (now.node n).arguments = entries := (Except.ok.inj is.call.arguments).symm
  have e := Specification.operands_eq_named is.operands (fits _ _ is.operator is.specification)
  have named : (now.node n).arguments = (now.node n).specification.named [left, right] := by
    rw [hargs, hspec]
    exact e
  rw [is.call.meaning_named I h named, key, Interpretation.operate, is.operator]
  rfl

/-- A registered element of a callback parameter means access to it. -/
theorem Workspace.IsElement.meaning {access : ArrayAccess} {k : ElementKey} {n : NodeRef}
    {name : Value} {key : String} (is : now.IsElement access k n) (h : now.WellFormed)
    (hp : now.parameter access.parameter = .ofCallback name) (hk : ElementKey.ofText key = .ok k)
    (hb : access.builder = b)
    (hs : (now.builder b).settings = (ws.builder b).settings) :
    now.meaning I (.node n) = ws.elementMeaning I b name key := by
  have e : ws.meaning I k.toValue = now.meaning I k.toValue := by cases k <;> rfl
  have hprocess := is.process
  rw [hb, hs] at hprocess
  have hdata : now.meaning I (.parameter access.parameter) = I.parameter name :=
    congrArg (fun p : Parameter => I.parameter p.name) hp
  rw [h.meaning_node I is.within, is.arguments, Workspace.elementMeaning, hk, ← hprocess]
  simp only [List.map_cons, List.map_nil, hdata, e]

/-! ## Identifiers -/

theorem literals_get? {name : String} {v : Value} (h : Dictionary.get? name literals = some v) :
    (name = "true" ∧ v = .bool true) ∨ (name = "false" ∧ v = .bool false) ∨
    (name = "null" ∧ v = .null) := by
  have hm := Dictionary.mem_of_get? h
  simpa only [literals, List.mem_cons, Prod.mk.injEq, List.not_mem_nil, or_false] using hm

theorem ne_of_literals_get?_eq_none {name : String}
    (h : Dictionary.get? name literals = none) :
    name ≠ "true" ∧ name ≠ "false" ∧ name ≠ "null" := by
  refine ⟨?_, ?_, ?_⟩ <;>
  · rintro rfl
    revert h
    decide

theorem meaning_resolve (h : ws.WellFormed) (hb : b.index < ws.builders.size) {name : String}
    {v : Value} (run : (Build.resolve b name).run ws = (.ok v, now)) :
    now.meaning I v = ws.identifierMeaning I b name := by
  obtain ⟨hnow, names, hnames, is⟩ := resolve_eq_ok h hb run
  unfold Workspace.identifierMeaning
  generalize href : Reference.ofName name names.length = reference at is
  unfold Reference.ofName at href
  split at href
  · rename_i w hw
    subst href
    obtain rfl := is
    rcases literals_get? hw with ⟨rfl, rfl⟩ | ⟨rfl, rfl⟩ | ⟨rfl, rfl⟩ <;> rfl
  · rename_i hw
    obtain ⟨h₁, h₂, h₃⟩ := ne_of_literals_get?_eq_none hw
    rw [if_neg h₁, if_neg h₂, if_neg h₃]
    split at href
    · rename_i id hid
      subst href
      obtain ⟨n, rfl, hn⟩ := is
      have hreg := ((h.builder b hb).nodes _ n (Dictionary.mem_of_get? hn)).1
      rw [if_pos (by rw [hid]; rfl), hid, List.tail_cons, hn]
      exact h.meaning_grow I hnow.grows (Value.within_node.2 hreg)
    · rename_i cs hcs
      have hdollar : Build.startsWithDollar name = true := by simp [Build.startsWithDollar, hcs]
      rw [hdollar, if_pos rfl] at hnames
      rw [if_neg (by rw [hcs]; simp), if_pos (by rw [hcs]; rfl), hnames]
      dsimp only at href ⊢
      have hdepth : (name.toList.takeWhile (· = '$')).length =
          1 + (cs.takeWhile (· = '$')).length := by
        rw [hcs]
        simp [Nat.add_comm]
      have hrest : name.toList.dropWhile (· = '$') = cs.dropWhile (· = '$') := by
        rw [hcs]
        simp
      have hlist : (Except.ok names : Except Failure (List Value)).toOption.getD [] = names := rfl
      rw [hdepth, hrest, hlist]
      split at href
      · subst href
        obtain ⟨parameter, access, k, n, rfl, hname, hk, -, hp, hab, hn⟩ := is
        rw [hname]
        exact hn.meaning I hnow.wellFormed hp hk hab (hnow.grows.builder b hb).2.1
      · rename_i hlt
        subst href
        obtain ⟨r, rfl, -, hr⟩ := is
        rw [List.getElem?_eq_none (by omega)]
        exact congrArg (fun p : Parameter => I.parameter p.name) hr
    · rename_i hnode helement
      subst href
      obtain ⟨r, rfl, -, hr⟩ := is
      have hne : ∀ c, (∀ cs, name.toList ≠ c :: cs) → name.toList.head? ≠ some c := by
        intro c hc e
        cases hl : name.toList with
        | nil => rw [hl] at e; cases e
        | cons d ds =>
          rw [hl] at e
          obtain rfl := Option.some.inj e
          exact hc ds hl
      rw [if_neg (hne _ hnode), if_neg (hne _ helement)]
      exact congrArg (fun p : Parameter => I.parameter p.name) hr

/-! ## Trees -/

mutual

theorem meaning_lower_wellFormed {ws : Workspace} (h : ws.WellFormed)
    (hb : b.index < ws.builders.size) :
    (t : Formula.Tree) → t.Fits (ws.catalogOf b) → {v : Value} → {now : Workspace} →
    (Build.lower b t).run ws = (.ok v, now) → now.meaning I v = t.meaning I b ws
  | .number value, _, v, now, run => by
    unfold Build.lower at run
    cases run
    exact Value.meaningWith_toValue I _ _ value
  | .identifier name, _, v, now, run => by
    unfold Build.lower at run
    exact meaning_resolve I h hb run
  | .binary op left right, fits, v, now, run => by
    obtain ⟨hop, hfl, hfr⟩ := fits
    unfold Build.lower at run
    obtain ⟨l, w₁, hl, run⟩ := run_bind_eq_ok run
    obtain ⟨r, w₂, hr, run⟩ := run_bind_eq_ok run
    obtain ⟨n, w₃, hadd, run⟩ := run_bind_eq_ok run
    cases run
    obtain ⟨h₁, ol, after⟩ := lower_eq_ok h hb hl
    have hb₁ := h₁.within hb
    obtain ⟨h₂, or, -⟩ := lower_eq_ok h₁.wellFormed hb₁ hr
    have hb₂ := h₂.within hb₁
    obtain ⟨h₃, process, spec, entries, is⟩ :=
      addOperator_eq_ok h₂.wellFormed hb₂ (ol.grow h₂.grows).1 or.1 hadd
    have catalog₁ := h₁.catalogOf hb
    have catalog₂ := (h₂.catalogOf hb₁).trans catalog₁
    have ihl := meaning_lower_wellFormed h hb left hfl hl
    have ihr := meaning_lower_wellFormed h₁.wellFormed hb₁ right (catalog₁ ▸ hfr) hr
    rw [is.meaning I h₃.wellFormed (catalog₂ ▸ hop), catalog₂,
      h₂.wellFormed.meaning_grow I h₃.grows (ol.grow h₂.grows).1,
      h₁.wellFormed.meaning_grow I h₂.grows ol.1, ihl,
      h₂.wellFormed.meaning_grow I h₃.grows or.1, ihr, Formula.Tree.meaning, after]
  | .unary op operand, fits, v, now, run => by
    obtain ⟨hop, hf⟩ := fits
    unfold Build.lower at run
    obtain ⟨u, w₁, hu, run⟩ := run_bind_eq_ok run
    have ih := meaning_lower_wellFormed h hb operand hf hu
    have number := number?_lower h hb operand hu
    unfold Formula.Tree.meaning
    rcases applySign_eq_ok run with
      ⟨hne, rfl, rfl⟩ | ⟨rfl, s, hs, rfl, rfl⟩ | ⟨rfl, hnone, n, rfl, hadd⟩
    · rw [if_neg hne]
      exact ih
    · rw [if_pos rfl, number, hs]
      exact Value.meaningWith_toValue I _ _ s.negated
    · rw [if_pos rfl, number, hnone]
      obtain ⟨h₁, ou, -⟩ := lower_eq_ok h hb hu
      have hb₁ := h₁.within hb
      have hone : (Value.int (-1)).Within w₁ := Value.within_of_refs_eq_nil rfl
      obtain ⟨h₂, process, spec, entries, is⟩ :=
        addOperator_eq_ok h₁.wellFormed hb₁ hone ou.1 hadd
      have catalog := h₁.catalogOf hb
      rw [is.meaning I h₂.wellFormed (catalog ▸ hop rfl (number.trans hnone)), catalog,
        h₁.wellFormed.meaning_grow I h₂.grows ou.1, ih]
      rfl
  | .call name arguments, fits, v, now, run => by
    obtain ⟨hspec, hfs⟩ := fits
    unfold Build.lower at run
    obtain ⟨vs, w₁, hvs, run⟩ := run_bind_eq_ok run
    obtain ⟨n, w₂, hinvoke, run⟩ := run_bind_eq_ok run
    cases run
    obtain ⟨h₁, hw⟩ := lowerAll_eq_ok h hb hvs
    obtain ⟨hlen, ih⟩ := meanings_lower h hb arguments hfs hvs
    have hb₁ := h₁.within hb
    obtain ⟨h₂, is⟩ := invoke_eq_ok h₁.wellFormed hb₁ (Value.within_list.2 hw) hinvoke
    have catalog := h₁.catalogOf hb
    have distinct := hspec _ (catalog ▸ is.specification)
    rw [is.meaning_named I h₂.wellFormed
      (Specification.entries_eq_named is.arguments (hlen ▸ distinct)), catalog,
      Formula.Tree.meaning, ← ih]
    exact congrArg _ (List.map_congr_left fun w hw' =>
      h₁.wellFormed.meaning_grow I h₂.grows (hw w hw'))
  | .group inner, fits, v, now, run => by
    unfold Build.lower at run
    exact meaning_lower_wellFormed h hb inner fits run

theorem meanings_lower {ws : Workspace} (h : ws.WellFormed) (hb : b.index < ws.builders.size) :
    (ts : List Formula.Tree) → Formula.Tree.FitAll (ws.catalogOf b) ts → {vs : List Value} →
    {now : Workspace} → (Build.lowerAll b ts).run ws = (.ok vs, now) →
    ts.length = vs.length ∧ vs.map (now.meaning I) = Formula.Tree.meanings I b ws ts
  | [], _, vs, now, run => by
    unfold Build.lowerAll at run
    cases run
    exact ⟨rfl, rfl⟩
  | t :: ts, fits, vs, now, run => by
    obtain ⟨hf, hfs⟩ := fits
    unfold Build.lowerAll at run
    obtain ⟨v, w₁, hv, run⟩ := run_bind_eq_ok run
    obtain ⟨vs', w₂, hvs, run⟩ := run_bind_eq_ok run
    cases run
    obtain ⟨h₁, ov, after⟩ := lower_eq_ok h hb hv
    have hb₁ := h₁.within hb
    have ih := meaning_lower_wellFormed h hb t hf hv
    have fits₁ := (h₁.catalogOf hb).symm ▸ hfs
    obtain ⟨h₂, -⟩ := lowerAll_eq_ok h₁.wellFormed hb₁ hvs
    obtain ⟨hlen, ihs⟩ := meanings_lower h₁.wellFormed hb₁ ts fits₁ hvs
    refine ⟨congrArg Nat.succ hlen, ?_⟩
    rw [List.map_cons, h₁.wellFormed.meaning_grow I h₂.grows ov.1, ih, ihs,
      Formula.Tree.meanings, after]

end

/-- What a formula is lowered to means what the formula means. -/
theorem meaning_lower {ws now : Workspace} (h : ws.Reachable) {b : BuilderRef}
    (hb : b.index < ws.builders.size) {t : Formula.Tree} (fits : t.Fits (ws.catalogOf b))
    {v : Value} (run : (Build.lower b t).run ws = (.ok v, now)) :
    now.meaning I v = t.meaning I b ws :=
  meaning_lower_wellFormed I h.wellFormed hb t fits run

end

/-! ## A formula over the integers -/

/-- A process with the parameters `x` and `y`. -/
def binaryProcess (id : String) : Value :=
  .object [("id", .str id), ("parameters",
    .list [.object [("name", .str "x")], .object [("name", .str "y")]])]

/-- A builder that knows addition and multiplication. -/
def Workspace.arithmetic : Workspace :=
  ((Build.createBuilder (.list [binaryProcess "add", binaryProcess "multiply"]) .null none none
    []).run {}).2

theorem Workspace.reachable_arithmetic : Workspace.arithmetic.Reachable :=
  .operation (.refl _) (.createBuilder _ _ none none [] nofun)

/-- Addition and multiplication of integers, where every parameter is 5. -/
def Interpretation.integers : Interpretation Int where
  process id _ args :=
    match id with
    | "add" => (args.map (·.2)).sum
    | "multiply" => (args.map (·.2)).prod
    | _ => 0
  parameter _ := 5
  scalar
    | .int n => n
    | _ => 0
  list := List.sum
  tuple := List.sum
  dict _ := 0
  object _ := 0

/-- `-(x + 2) * #add1`, where the sum is the node `add1` when that is reached. -/
def negatedSum : Formula.Tree :=
  .binary "*" (.unary "-" (.group (.binary "+" (.identifier "x") (.number (.int 2)))))
    (.identifier "#add1")

/-- The node that a value is. -/
def Value.node? : Value → Option NodeRef
  | .node n => some n
  | _ => none

theorem Value.eq_node_of_node? {v : Value} {n : NodeRef} (h : v.node? = some n) : v = .node n := by
  cases v <;> cases h
  rfl

theorem meaning_lower_negatedSum :
    ∃ n now, (Build.lower ⟨0⟩ negatedSum).run .arithmetic = (.ok (.node n), now) ∧
      now.meaning .integers (.node n) = -49 := by
  have all : ∀ p ∈ Workspace.arithmetic.catalogOf ⟨0⟩, p.2.Distinct 2 := by decide +kernel
  have fit : ∀ op, Formula.Tree.OperatorFits (Workspace.arithmetic.catalogOf ⟨0⟩) op :=
    fun _ _ _ _ h => all _ (Dictionary.mem_of_get? h)
  have fits : negatedSum.Fits (Workspace.arithmetic.catalogOf ⟨0⟩) :=
    ⟨fit _, ⟨fun _ _ => fit _, fit _, trivial, trivial⟩, trivial⟩
  have result : ((Build.lower ⟨0⟩ negatedSum).run .arithmetic).1.toOption.bind Value.node? =
      some ⟨2⟩ := by decide +kernel
  have direct : negatedSum.meaning .integers ⟨0⟩ .arithmetic = -49 := by decide +kernel
  rcases run : (Build.lower ⟨0⟩ negatedSum).run .arithmetic with ⟨e | v, now⟩
  · rw [run] at result
    cases result
  · rw [run] at result
    obtain rfl := Value.eq_node_of_node? result
    have means :=
      meaning_lower .integers Workspace.reachable_arithmetic (by decide +kernel) fits run
    exact ⟨_, now, rfl, means.trans direct⟩

end ProcessGraph
