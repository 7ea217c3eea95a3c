import ProcessGraph.Proofs.Catalog.ProcessIds
import ProcessGraph.Proofs.Graph.BoundArguments
import ProcessGraph.Proofs.Graph.FailedCalls
import ProcessGraph.Proofs.Graph.OutdatedDeclarations

/-!
# Shortcuts

A shortcut finds its process under the name of the attribute, which is the whole id. Then it calls
the process by that id, where an `@` separates a namespace. So a shortcut calls the process that it
is named after if there is no `@` in the id (`Workspace.IsShortcut.same`), and never does otherwise
(`Workspace.IsShortcut.other`).

Main statement: a shortcut without an `@` is a call with arguments by name, and succeeds with all
arguments that can be bound and declared (`shortcuts_call`).
-/

set_option autoImplicit false

namespace ProcessGraph

open Dictionary

/-! ## Arguments that can be bound -/

namespace Specification

/-- Arguments for the first `n` parameters can be bound: the parameters can be read, and the names
of these can be keys. -/
structure Binds (spec : Specification) (n : Nat) : Prop where
  readable : ∃ names, spec.parameterNames = .ok names
  enough : n ≤ spec.names.length
  keys : ∀ name ∈ spec.names.take n, name.key?.isSome

theorem mapM_eq_filterMap {α β : Type} {f : α → Except Failure β} {g : α → Option β} {xs : List α}
    (h : ∀ x ∈ xs, ∃ y, f x = .ok y ∧ g x = some y) : xs.mapM f = .ok (xs.filterMap g) := by
  induction xs with
  | nil => rfl
  | cons x xs ih =>
    obtain ⟨y, hf, hg⟩ := h x List.mem_cons_self
    rw [List.mapM_cons, hf, ih fun x hx => h x (List.mem_cons_of_mem _ hx), List.filterMap_cons, hg]
    rfl

/-- Arguments are written one after the other under the first names. -/
theorem Binds.bind {spec : Specification} {vs : List Value} (h : spec.Binds vs.length) :
    spec.bind vs = .ok (ofEntries (spec.named vs)) := by
  obtain ⟨names, read⟩ := h.readable
  obtain rfl := names_of_parameterNames read
  have keys : ∀ p ∈ spec.names.zip vs, p.1.key?.isSome := by
    intro p hp
    rw [List.zip_eq_zip_take_min, Nat.min_eq_right h.enough] at hp
    exact h.keys _ (List.of_mem_zip hp).1
  unfold parameterNames at read
  cases parameters : spec.parameters with
  | error e =>
    rw [parameters] at read
    cases read
  | ok ps =>
    rw [parameters] at read
    have read : ps.mapM (Value.entry "name") = .ok spec.names := read
    unfold Specification.bind
    rw [parameters]
    show (ps.mapM (Value.entry "name") >>= _) = _
    rw [read]
    show (if spec.names.length < vs.length then _ else _) = _
    rw [if_neg (Nat.not_lt.2 h.enough)]
    rw [mapM_eq_filterMap (g := fun p => p.1.key?.map fun key => (key, p.2))]
    · rfl
    · rintro ⟨name, v⟩ hp
      obtain ⟨key, hk⟩ := Option.isSome_iff_exists.1 (keys _ hp)
      exact ⟨(key, v), by simp only [hk], by simp only [hk, Option.map_some]⟩

end Specification

/-! ## Calls -/

/-- One node has been added, and registered behind the nodes of a builder: the call of a process
without namespace. -/
structure Workspace.AddsCall (ws now : Workspace) (b : BuilderRef) (process : String)
    (spec : Specification) (arguments : Value.Entries) (n : NodeRef) : Prop where
  new : n.index = ws.nodes.size
  one : now.nodes.size = ws.nodes.size + 1
  registered : (now.builder b).nodes = (ws.builder b).nodes ++ [((now.node n).id, n)]
  others : ∀ c : BuilderRef, c ≠ b → c.index < ws.builders.size →
    (now.builder c).nodes = (ws.builder c).nodes
  process : (now.node n).process = process
  space : (now.node n).space = none
  specification : (now.node n).specification = spec
  arguments : (now.node n).arguments = arguments

namespace Build

section
variable {ws now : Workspace} {b : BuilderRef} {process : String} {arguments description : Value}
  {space : Option String} {spec : Specification} {entries : Value.Entries}
  (found : (ws.catalogOf b).get? (callKey process space).1 (callKey process space).2 = some spec)
include found

/-- A call succeeds if there is such a process, its arguments can be bound, and declarations are
taken. -/
theorem invoke_succeeds (h : ws.WellFormed) (hb : b.index < ws.builders.size)
    (takes : ws.TakesDeclarations b) (bound : spec.bindArguments arguments = .ok entries)
    (description : Value) :
    ∃ n now, (invoke b process arguments description space).run ws = (.ok n, now) := by
  obtain ⟨h₁, hb₁, takes₁⟩ := takes.numbered h hb (callKey process space).1
  obtain ⟨_, declared⟩ := declareAll_succeeds h₁ hb₁ takes₁
    ((ws.numbered b (callKey process space).1).discover entries)
  exact invoke_of_declareAll found bound declared

/-- How arguments are given does not matter if they are bound to the same. -/
theorem run_invoke_congr {given : Value}
    (same : spec.bindArguments given = spec.bindArguments arguments) :
    (invoke b process given description space).run ws =
      (invoke b process arguments description space).run ws := by
  rw [invoke_eq, invoke_eq, run_bind_state, run_bind_state]
  unfold makeNode
  rw [run_get_bind, run_get_bind]
  dsimp only
  rw [found]
  dsimp only
  rw [same]

end

section
variable {ws now : Workspace} {b : BuilderRef} {process : String} {spec : Specification}
  {arguments : List Value} {entries named : Value.Entries} {n : NodeRef}

theorem addsCall_invoke (h : ws.WellFormed) (hb : b.index < ws.builders.size)
    (plain : '@' ∉ process.toList) (found : (ws.catalogOf b).get? process none = some spec)
    (within : Value.EntriesWithin ws entries)
    (run : (invoke b process (.dict entries)).run ws = (.ok n, now)) :
    ws.AddsCall now b process spec entries n := by
  obtain ⟨ext, g, is, -, -, registered, -⟩ := (ensures_invoke (S := fun c => c = b)
    (P := fun _ => True) (h.extends _ _) ⟨hb, .inl rfl, .inl trivial⟩ process
    (Value.within_dict.2 within) .null none).of_run run
  have one := size_nodes_invoke h run hb
  have key : callKey process none = (process, none) := splitProcessId_of_not_mem plain
  rw [key] at is
  obtain ⟨same, space⟩ := Prod.mk.inj is.process
  have specification := Option.some.inj (is.specification.symm.trans found)
  refine ⟨?_, one, registered, fun c hc hlt => ?_, same, space, specification, ?_⟩
  · exact Nat.le_antisymm (Nat.le_of_lt_succ (Nat.lt_of_lt_of_eq is.within one)) is.new
  · exact ((ext.kept.content c hlt).untouched.resolve_left hc).1
  · exact (Except.ok.inj is.arguments).symm

/-- A shortcut is a call with all arguments by name. -/
theorem run_callShortcut (found : (ws.catalogOf b).get? (callKey process none).1
      (callKey process none).2 = some spec) (bound : spec.bind arguments = .ok entries) :
    (callShortcut b process spec arguments named).run ws =
      (invoke b process (.dict (insertAll entries named))).run ws := by
  unfold callShortcut
  split
  · rename_i none
    subst none
    exact run_invoke_congr found bound
  · rw [run_bind_of_ok (by rw [run_ofExcept, bound])]

/-- What is called by a shortcut is what the whole id is split into. -/
theorem key_callShortcut
    (run : (callShortcut b process spec arguments named).run ws = (.ok n, now)) :
    ((now.node n).process, (now.node n).space) = splitProcessId process := by
  obtain ⟨given, called⟩ : ∃ given, (invoke b process given).run ws = (.ok n, now) := by
    unfold callShortcut at run
    split at run
    · exact ⟨_, run⟩
    · obtain ⟨_, _, bound, called⟩ := run_bind_eq_ok run
      rw [run_ofExcept, Prod.mk.injEq] at bound
      obtain ⟨-, rfl⟩ := bound
      exact ⟨_, called⟩
  obtain ⟨made, r, hmade, rfl⟩ := invoke_eq_makeNode called
  obtain ⟨_, _, _, _, declared, -, -, -, -, pushed⟩ := makeNode_eq_ok hmade
  cases pushed
  show (((declared.nodes.push _).get declared.nodes.size).process,
    ((declared.nodes.push _).get declared.nodes.size).space) = _
  rw [Arena.get_push_size]
  rfl

theorem callShortcut_of_missing {name space : String}
    (split : splitProcessId process = (name, some space))
    (missing : (ws.catalogOf b).get? name (some space) = none)
    (bound : spec.bind arguments = .ok entries) :
    (callShortcut b process spec arguments named).run ws =
      (.error (.processNotFound name (some space)), ws) := by
  have key : callKey process none = (name, some space) := split
  have calls (given : Value) : (invoke b process given).run ws =
      (.error (.processNotFound name (some space)), ws) := by
    rw [invoke_of_missing (by rw [key]; exact missing), key]
  unfold callShortcut
  split
  · exact calls _
  · rw [run_bind_of_ok (by rw [run_ofExcept, bound])]
    exact calls _

end

end Build

/-! ## Shortcuts -/

namespace Workspace

/-- What calling a shortcut does. The shortcut is for a process without namespace. -/
structure IsShortcut (ws : Workspace) (b : BuilderRef) (process : String) (spec : Specification) :
    Prop where
  registered : (ws.catalogOf b).get? process none = some spec
  /-- It is a call with the arguments by position under the names of the parameters, and those by
  name behind them or in their place. -/
  same (plain : '@' ∉ process.toList) {arguments : List Value} (named : Value.Entries)
    (binds : spec.Binds arguments.length) :
    (Build.callShortcut b process spec arguments named).run ws = (Build.invoke b process
      (.dict (insertAll (ofEntries (spec.named arguments)) named))).run ws
  succeeds (plain : '@' ∉ process.toList) (takes : ws.TakesDeclarations b)
    {arguments : List Value} {named : Value.Entries} (binds : spec.Binds arguments.length)
    (within : ∀ v ∈ arguments, v.Within ws) (withinNamed : Value.EntriesWithin ws named) :
    ∃ n now, (Build.callShortcut b process spec arguments named).run ws = (.ok n, now) ∧
      ws.AddsCall now b process spec (insertAll (ofEntries (spec.named arguments)) named) n
  /-- What stands behind an `@` is taken for a namespace. -/
  other {name space : String} (split : splitProcessId process = (name, some space))
    {arguments : List Value} {named : Value.Entries} {n : NodeRef} {now : Workspace}
    (run : (Build.callShortcut b process spec arguments named).run ws = (.ok n, now)) :
    (now.node n).process = name ∧ (now.node n).space = some space ∧ name ≠ process
  missing {name space : String} (split : splitProcessId process = (name, some space))
    (missing : (ws.catalogOf b).get? name (some space) = none) {arguments : List Value}
    (named : Value.Entries) (binds : spec.Binds arguments.length) :
    (Build.callShortcut b process spec arguments named).run ws =
      (.error (.processNotFound name (some space)), ws)

/-- The shortcut for a process is found by the whole id. -/
theorem findAttribute_eq_shortcut {ws : Workspace} {b : BuilderRef} {name process : String}
    {spec : Specification} (found : ws.findAttribute b name = .ok (.shortcut process spec)) :
    process = name ∧ (ws.catalogOf b).get? process none = some spec := by
  unfold findAttribute at found
  split at found
  · cases found
  · split at found
    · cases found
    · split at found
      · rename_i registered
        cases found
        exact ⟨rfl, registered⟩
      · cases found

end Workspace

/-- **Shortcuts call what they name**, unless there is an `@` in the name. -/
theorem shortcuts_call {ws : Workspace} (h : ws.Reachable) {b : BuilderRef}
    (hb : b.index < ws.builders.size) {name process : String} {spec : Specification}
    (found : ws.findAttribute b name = .ok (.shortcut process spec)) :
    process = name ∧ ws.IsShortcut b process spec := by
  obtain ⟨same, registered⟩ := Workspace.findAttribute_eq_shortcut found
  have called (plain : '@' ∉ process.toList) : (ws.catalogOf b).get? (callKey process none).1
      (callKey process none).2 = some spec := by
    rw [show callKey process none = (process, none) from splitProcessId_of_not_mem plain]
    exact registered
  refine ⟨same, registered, fun plain _ named binds =>
    Build.run_callShortcut (called plain) binds.bind, ?_, ?_, ?_⟩
  · intro plain takes arguments named binds within withinNamed
    have entries : Value.EntriesWithin ws (insertAll (ofEntries (spec.named arguments)) named) := by
      intro p hp
      rcases mem_insertAll hp with hp | hp
      · exact withinNamed p hp
      · exact within _ (Specification.mem_of_bind binds.bind p hp)
    have bound : spec.bindArguments (.dict (insertAll (ofEntries (spec.named arguments)) named)) =
        .ok (insertAll (ofEntries (spec.named arguments)) named) := rfl
    obtain ⟨n, now, run⟩ := Build.invoke_succeeds (called plain) h.wellFormed hb takes bound .null
    exact ⟨n, now, (Build.run_callShortcut (called plain) binds.bind).trans run,
      Build.addsCall_invoke h.wellFormed hb plain registered entries run⟩
  · intro name space split arguments named n now run
    obtain ⟨calls, spaces⟩ := Prod.mk.inj ((Build.key_callShortcut run).trans split)
    obtain ⟨plain, joined⟩ := splitProcessId_eq_iff.1 split
    refine ⟨calls, spaces, fun e => ?_⟩
    subst e
    rw [splitProcessId_of_not_mem plain] at split
    cases split
  · intro name space split missing arguments named binds
    exact Build.callShortcut_of_missing split missing binds.bind

/-! ## An id with an `@` -/

/-- The specification of a process with the parameters `x` and `y`. -/
def binarySpecification (id : String) : Specification :=
  [(.str "id", .str id), (.str "parameters",
    .list [.object [("name", .str "x")], .object [("name", .str "y")]])]

/-- A builder that knows addition, and a process whose id contains an `@`. -/
def Workspace.indices : Workspace :=
  ((Build.createBuilder (.list [binaryProcess "add", binaryProcess "ndvi@vito"]) .null none none
    []).run {}).2

theorem binds_binarySpecification (id : String) {n : Nat} (h : n ≤ 2) :
    (binarySpecification id).Binds n where
  readable := ⟨[.str "x", .str "y"], rfl⟩
  enough := h
  keys name hname := by
    have names : (binarySpecification id).names = [.str "x", .str "y"] := rfl
    rw [names] at hname
    have hname := List.mem_of_mem_take hname
    simp only [List.mem_cons, List.not_mem_nil, or_false] at hname
    rcases hname with rfl | rfl <;> rfl

/-- The shortcut for addition adds the call of addition. The other one is there as well, but looks
for another process. -/
theorem shortcuts_call_indices :
    (∃ n now, (Build.callShortcut ⟨0⟩ "add" (binarySpecification "add") [.int 1]
        [(.str "y", .int 2)]).run .indices = (.ok n, now) ∧
      Workspace.indices.AddsCall now ⟨0⟩ "add" (binarySpecification "add")
        [(.str "x", .int 1), (.str "y", .int 2)] n) ∧
    Workspace.indices.findAttribute ⟨0⟩ "ndvi@vito" =
      .ok (.shortcut "ndvi@vito" (binarySpecification "ndvi@vito")) ∧
    (Build.callShortcut ⟨0⟩ "ndvi@vito" (binarySpecification "ndvi@vito") [.int 1, .int 2] []).run
      .indices = (.error (.processNotFound "ndvi" (some "vito")), .indices) := by
  have reachable : Workspace.indices.Reachable :=
    .operation (.refl _) (.createBuilder _ _ none none [] nofun)
  have hb : (⟨0⟩ : BuilderRef).index < Workspace.indices.builders.size := by decide +kernel
  have takes : Workspace.indices.TakesDeclarations ⟨0⟩ := ⟨⟨[], by rfl, nofun⟩, trivial⟩
  have add : Workspace.indices.findAttribute ⟨0⟩ "add" =
      .ok (.shortcut "add" (binarySpecification "add")) := by rfl
  have ndvi : Workspace.indices.findAttribute ⟨0⟩ "ndvi@vito" =
      .ok (.shortcut "ndvi@vito" (binarySpecification "ndvi@vito")) := by rfl
  obtain ⟨-, isAdd⟩ := shortcuts_call reachable hb add
  obtain ⟨-, isNdvi⟩ := shortcuts_call reachable hb ndvi
  refine ⟨?_, ndvi, ?_⟩
  · have numbers (n : Int) : (Value.int n).Within Workspace.indices :=
      Value.within_of_refs_eq_nil rfl
    exact isAdd.succeeds (by decide) takes (binds_binarySpecification "add" (n := 1) (by decide))
      (List.forall_mem_singleton.2 (numbers 1)) (List.forall_mem_singleton.2 (numbers 2))
  · have split : splitProcessId "ndvi@vito" = ("ndvi", some "vito") :=
      splitProcessId_eq_iff.2 ⟨by decide, rfl⟩
    exact isNdvi.missing split (by rfl) []
      (binds_binarySpecification "ndvi@vito" (n := 2) (by decide))

end ProcessGraph
