import Mathlib.Data.Set.List
import ProcessGraph.Proofs.Graph.DeclaredNames
import ProcessGraph.Proofs.Graph.FailedCalls
import ProcessGraph.Proofs.Graph.ResolvedReferences

/-!
# Parameters as merged declarations

`start.Declarations log now`: parameters are declared one after the other from builders of a
workspace that grows, and nobody sets them otherwise. The log has the declarations that count, each
with the builder on whose parameters it is made: the outermost one or the calling one itself. Calls
with the name of a callback parameter do not count, and neither do calls that fail.

The parameters of a builder can be read off the log (`Value.Merges`): one entry for each name, in
the order in which the names were first declared, and in each field the value of the last
declaration of the name that has the field (`declarations_merge`).
-/

set_option autoImplicit false

namespace ProcessGraph

open Value

/-- A call that declares a parameter with a text for a name. -/
structure ParameterCall where
  builder : BuilderRef
  name : String
  declaration : Value.Entries
  onRoot : Bool
  called : IsCalled name declaration
  keys : declaration.keys.Nodup

namespace ParameterCall

/-- The builder on which the parameter is declared. -/
def target (c : ParameterCall) (ws : Workspace) : BuilderRef :=
  if c.onRoot then ws.root c.builder else c.builder

/-- Is the name that of a callback parameter of the calling builder? -/
def shadowed (c : ParameterCall) (ws : Workspace) : Bool := ws.passes c.builder (.str c.name)

def step (c : ParameterCall) : Build Unit := Build.addParameter c.builder c.declaration c.onRoot

end ParameterCall

/-- Calls that declare parameters, one after the other, and what else happens in between. -/
inductive Workspace.Declarations (start : Workspace) :
    List (BuilderRef × ParameterCall) → Workspace → Prop where
  | nil : Declarations start [] start
  | declared {log : List (BuilderRef × ParameterCall)} {now after : Workspace}
      (h : Declarations start log now) {c : ParameterCall}
      (hc : c.builder.index < now.builders.size) (run : c.step.run now = (.ok (), after))
      (own : c.shadowed now = false) : Declarations start (log ++ [(c.target now, c)]) after
  | shadowed {log : List (BuilderRef × ParameterCall)} {now after : Workspace}
      (h : Declarations start log now) {c : ParameterCall}
      (hc : c.builder.index < now.builders.size) (run : c.step.run now = (.ok (), after))
      (passed : c.shadowed now = true) : Declarations start log after
  /-- The names of callback parameters cannot be read. -/
  | failed {log : List (BuilderRef × ParameterCall)} {now after : Workspace}
      (h : Declarations start log now) {c : ParameterCall}
      (hc : c.builder.index < now.builders.size) {e : Failure}
      (run : c.step.run now = (.error e, after)) : Declarations start log after
  /-- The workspace may grow in any way that leaves parameters alone. -/
  | other {log : List (BuilderRef × ParameterCall)} {now after : Workspace}
      (h : Declarations start log now) (a : now.Appends after)
      (same : ∀ b, (after.builder b).metadata.parameters = (now.builder b).metadata.parameters) :
      Declarations start log after

/-- The declarations in a log that are made on a builder. -/
def ParameterCall.on (b : BuilderRef) (log : List (BuilderRef × ParameterCall)) :
    List ParameterCall := (log.filter fun p => p.1 = b).map Prod.snd

/-- The value of a field in the last declaration of a name that has it. -/
def ParameterCall.lastField (calls : List ParameterCall) (s : String) (k : Scalar) :
    Option Value :=
  calls.reverse.findSome? fun c =>
    if c.name = s then Dictionary.get? k c.declaration else none

/-- The parameters are merged from declarations. -/
structure Value.Merges (parameters : Value) (calls : List ParameterCall)
    (entries : List Entries) : Prop where
  parameters : parameters = if calls = [] then .null else .list (entries.map .dict)
  /-- The names are the declared ones, in the order of their first declaration, -/
  names : entries.map (field "name") = ((calls.map ParameterCall.name).eraseDups).map .str
  /-- each of which has one entry, -/
  nodup : (entries.map (field "name")).Nodup
  /-- with the fields that were declared, and their last values. -/
  fields : ∀ e ∈ entries, ∀ s, IsCalled s e → ∀ k,
    Dictionary.get? k e = ParameterCall.lastField calls s k

/-! ## Entries -/

section
variable {s : String} {k : Scalar}

theorem ParameterCall.isCalled_iff (c : ParameterCall) : IsCalled s c.declaration ↔ c.name = s := by
  constructor
  · intro called
    exact Value.str.inj (c.called.symm.trans called)
  · rintro rfl
    exact c.called

/-- Of the fields of a name the last declaration counts that has them. -/
theorem get?_merged (calls : List ParameterCall) :
    (Value.merged s none (calls.map ParameterCall.declaration)).bind (Dictionary.get? k) =
      ParameterCall.lastField calls s k := by
  unfold ParameterCall.lastField
  induction calls using List.reverseRecOn with
  | nil => rfl
  | append_singleton calls c ih =>
    unfold Value.merged at ih ⊢
    rw [List.map_append, List.foldl_append, List.reverse_append, List.map_singleton,
      List.foldl_cons, List.foldl_nil, List.reverse_singleton, List.singleton_append,
      List.findSome?_cons]
    generalize List.foldl _ none (calls.map ParameterCall.declaration) = old at ih ⊢
    have entry : Dictionary.get? k (old.getD []) = old.bind (Dictionary.get? k) := by
      cases old <;> rfl
    by_cases hs : c.name = s
    · rw [if_pos (c.isCalled_iff.2 hs), if_pos hs, Option.bind_some,
        Dictionary.get?_insertAll c.keys, entry, ih]
      cases Dictionary.get? k c.declaration <;> rfl
    · rw [if_neg (mt c.isCalled_iff.1 hs), if_neg hs]
      exact ih

theorem namesIn_map_dict (entries : List Value.Entries) :
    namesIn (entries.map .dict) = entries.map (field "name") := by
  induction entries with
  | nil => rfl
  | cons e entries ih => rw [List.map_cons, namesIn, ih, List.map_cons]

/-- Among entries with different names, each is the declaration of its name. -/
theorem declarationIn_of_mem {entries : List Value.Entries}
    (nodup : (entries.map (field "name")).Nodup) {e : Value.Entries} (he : e ∈ entries)
    (called : IsCalled s e) : declarationIn s (entries.map .dict) = some e := by
  induction entries with
  | nil => cases he
  | cons d entries ih =>
    obtain ⟨new, nodup⟩ := List.nodup_cons.1 nodup
    rw [List.map_cons, declarationIn]
    rcases List.mem_cons.1 he with rfl | he
    · rw [if_pos called]
    · have other : ¬ IsCalled s d := by
        intro same
        refine new (List.mem_map.2 ⟨e, he, ?_⟩)
        exact called.trans same.symm
      rw [if_neg other]
      exact ih nodup he

theorem Value.TakesDeclarations.declareEach {ds : List Value.Entries} {u v : Value}
    (takes : u.TakesDeclarations) (h : ProcessGraph.declareEach ds u = .ok v) :
    v.TakesDeclarations := by
  induction ds generalizing u with
  | nil =>
    cases h
    exact takes
  | cons d ds ih =>
    obtain ⟨w, isNew, made, takes⟩ := takes.declareIn d (field "name" d)
    rw [declareEach_cons, declare, made] at h
    exact ih takes h

/-- Where there were no parameters, a declaration makes a list, which stays one. -/
theorem declareEach_null {d : Value.Entries} {ds : List Value.Entries} {v : Value}
    (h : declareEach (d :: ds) .null = .ok v) :
    ∃ entries : List Value.Entries, v = .list (entries.map .dict) := by
  have takes : v.TakesDeclarations := Value.TakesDeclarations.declareEach (u := .null) trivial h
  rw [declareEach_cons] at h
  have start : declareEach ds (.list [.dict d]) = .ok v := h
  rw [(Value.HasItems.list [.dict d]).declareEach_whole] at start
  obtain ⟨items, -, rfl⟩ := exists_of_map_eq_ok start
  have objects : items ∈ Set.range (List.map Value.dict) := by
    rw [Set.range_list_map]
    intro w hw
    obtain ⟨e, rfl⟩ := takes w hw
    exact ⟨e, rfl⟩
  obtain ⟨entries, rfl⟩ := objects
  exact ⟨entries, rfl⟩

/-- Where there were no parameters, they are merged from what has been declared. -/
theorem exists_merges {calls : List ParameterCall} {v : Value}
    (h : declareEach (calls.map ParameterCall.declaration) .null = .ok v) :
    ∃ entries, v.Merges calls entries := by
  cases calls with
  | nil =>
    cases h
    exact ⟨[], rfl, rfl, .nil, fun _ he => nomatch he⟩
  | cons c calls =>
    have keys : ∀ d ∈ (c :: calls).map ParameterCall.declaration, d.keys.Nodup :=
      List.forall_mem_map.2 fun c _ => c.keys
    have apart : ∀ d ∈ (c :: calls).map ParameterCall.declaration,
        ∀ u ∈ declaredNames .null ++ ((c :: calls).map ParameterCall.declaration).map (field "name"),
          u.same (field "name" d) → u = field "name" d := by
      refine List.forall_mem_map.2 fun c _ u _ same => ?_
      have name : field "name" c.declaration = .str c.name := c.called
      rw [name] at same ⊢
      exact eq_str_of_same_str same
    have called : ((c :: calls).map ParameterCall.declaration).map (field "name") =
        ((c :: calls).map ParameterCall.name).map .str := by
      rw [List.map_map, List.map_map]
      exact List.map_congr_left fun c _ => c.called
    have names := declaredNames_declareEach keys apart h
    have fields := declaration?_declareEach keys h
    obtain ⟨entries, rfl⟩ := declareEach_null h
    have all : entries.map (field "name") =
        newNames [] (((c :: calls).map ParameterCall.name).map .str) := by
      rw [← namesIn_map_dict, ← called]
      exact names
    have nodup : (entries.map (field "name")).Nodup := all ▸ nodup_newNames_texts _
    refine ⟨entries, (if_neg (List.cons_ne_nil _ _)).symm, ?_, nodup, fun e he s hs k => ?_⟩
    · rw [all, newNames_texts, List.filter_eq_self.2 fun s _ => decide_eq_true List.not_mem_nil]
    · have found : some e = Value.merged s none ((c :: calls).map ParameterCall.declaration) :=
        (declarationIn_of_mem nodup he hs).symm.trans (fields s)
      rw [← get?_merged, ← found, Option.bind_some]

end

/-! ## Single calls -/

/-- A builder whose parameters stay keeps all that is said about its process. -/
theorem Builder.Kept.metadata_eq {content declared : Prop} {newNode : NodeRef → Prop}
    {newAccess : AccessRef → Prop} {b c : Builder} (h : b.Kept content declared newNode newAccess c)
    (same : c.metadata.parameters = b.metadata.parameters) : c.metadata = b.metadata := by
  have others := h.metadata
  rcases hc : c.metadata with ⟨⟩
  rcases hb : b.metadata with ⟨⟩
  rw [hc, hb] at others same
  cases others
  cases same
  rfl

namespace ParameterCall

section
variable {ws now : Workspace} {c : ParameterCall} {b : BuilderRef}
  {result : Except Failure Unit} (h : ws.WellFormed) (hc : c.builder.index < ws.builders.size)
include h hc

theorem metadata_eq (run : c.step.run ws = (result, now))
    (same : b = c.target ws → (now.builder b).metadata.parameters =
      (ws.builder b).metadata.parameters) :
    (now.builder b).metadata = (ws.builder b).metadata := by
  by_cases hb : b.index < ws.builders.size
  · have ext := (Build.ensures_addParameter (h.extends (fun _ => False) (· = c.target ws)) hc
      c.declaration c.onRoot (.inl rfl)).1
    rw [show (Build.addParameter c.builder c.declaration c.onRoot).run ws = _ from run] at ext
    have kept := ext.kept.content b hb
    exact kept.metadata_eq (kept.parameters.elim same id)
  · have size : now.builders.size = ws.builders.size :=
      (Workspace.frame_builderCount.keeps_addParameter _ _ _).of_run run
    unfold Workspace.builder
    rw [Arena.get_of_size_le (Nat.not_lt.1 hb), Arena.get_of_size_le (size ▸ Nat.not_lt.1 hb)]

theorem target_lt : (c.target ws).index < ws.builders.size := by
  unfold target
  split
  · exact h.root_lt hc
  · exact hc

/-- A call that fails has not got to the parameters. -/
theorem metadata_of_failed {e : Failure} (run : c.step.run ws = (.error e, now)) :
    (now.builder b).metadata = (ws.builder b).metadata := by
  refine metadata_eq h hc run ?_
  rintro rfl
  have hb := target_lt h hc
  have looks := Build.ensures_parentParameters (h.extends (fun _ => False) fun _ => False) hc
  unfold step Build.addParameter at run
  rcases run_bind_eq_error run with failed | ⟨as, w₁, looked, rest⟩
  · have ext := looks.1
    rw [failed] at ext
    exact (ext.kept.content _ hb).parameters.resolve_left id
  · have same := ((looks.of_run looked).1.kept.content _ hb).parameters.resolve_left id
    rcases run_bind_eq_error rest with failed | ⟨known, w₂, asked, step⟩
    · cases failed
    · cases asked
      split at step
      · cases step
      · rw [Build.run_get_bind] at step
        rcases run_bind_eq_error step with refused | ⟨⟨parameters, isNew⟩, w₃, -, changed⟩
        · rw [Build.run_ofExcept, Prod.mk.injEq] at refused
          rw [← refused.2]
          exact same
        · -- Nothing fails once the parameters are written.
          cases isNew <;> cases changed

/-- A call with the name of a callback parameter changes nothing that is said about a process. -/
theorem metadata_of_shadowed (run : c.step.run ws = (result, now))
    (passed : c.shadowed ws = true) : (now.builder b).metadata = (ws.builder b).metadata := by
  cases result with
  | error e => exact metadata_of_failed h hc run
  | ok u =>
    refine metadata_eq h hc run ?_
    rintro rfl
    have declared := declares_addParameter h hc (show c.target ws = _ from rfl) run
    have name : field "name" c.declaration = .str c.name := c.called
    unfold shadowed at passed
    rw [name, if_pos passed] at declared
    exact (Except.ok.inj declared).symm

/-- Any other call merges its declaration into the parameters of its target. -/
theorem declare_of_declared (run : c.step.run ws = (.ok (), now)) (own : c.shadowed ws = false) :
    declare (ws.builder (c.target ws)).metadata.parameters c.declaration =
      .ok (now.builder (c.target ws)).metadata.parameters := by
  have declared := declares_addParameter h hc (show c.target ws = _ from rfl) run
  have name : field "name" c.declaration = .str c.name := c.called
  unfold shadowed at own
  rw [name, own, if_neg Bool.false_ne_true, ← List.nil_append [c.declaration],
    declareEach_concat] at declared
  exact declared

theorem appends_step (run : c.step.run ws = (result, now)) : ws.Appends now := by
  have ext := (Build.ensures_addParameter (h.extends (fun _ => False) fun _ => True) hc
    c.declaration c.onRoot (.inl trivial)).1
  rw [show (Build.addParameter c.builder c.declaration c.onRoot).run ws = _ from run] at ext
  exact ext.appends

end

theorem on_append_singleton (b : BuilderRef) (log : List (BuilderRef × ParameterCall))
    (p : BuilderRef × ParameterCall) :
    on b (log ++ [p]) = on b log ++ if p.1 = b then [p.2] else [] := by
  unfold on
  rw [List.filter_append, List.map_append]
  by_cases hp : p.1 = b
  · rw [if_pos hp, List.filter_cons_of_pos (by simpa using hp)]
    rfl
  · rw [if_neg hp, List.filter_cons_of_neg (by simpa using hp)]
    rfl

end ParameterCall

/-! ## Calls one after the other -/

namespace Workspace

variable {start now : Workspace} {log : List (BuilderRef × ParameterCall)}

theorem Declarations.appends (h : start.WellFormed) (calls : start.Declarations log now) :
    start.Appends now := by
  induction calls with
  | nil => exact h.appends
  | declared _ hc run _ ih => exact ih.trans (ParameterCall.appends_step ih.wellFormed hc run)
  | shadowed _ hc run _ ih => exact ih.trans (ParameterCall.appends_step ih.wellFormed hc run)
  | failed _ hc run ih => exact ih.trans (ParameterCall.appends_step ih.wellFormed hc run)
  | other _ a _ ih => exact ih.trans a

/-- The parameters of a builder after the calls are those from before, with the declarations that
are made on it, one after the other. -/
theorem Declarations.declareEach (h : start.WellFormed) (calls : start.Declarations log now)
    (b : BuilderRef) :
    ProcessGraph.declareEach ((ParameterCall.on b log).map ParameterCall.declaration)
      (start.builder b).metadata.parameters = .ok (now.builder b).metadata.parameters := by
  induction calls with
  | nil => rfl
  | @declared log now after calls c hc run own ih =>
    have wf := (calls.appends h).wellFormed
    rw [ParameterCall.on_append_singleton]
    by_cases is : c.target now = b
    · subst is
      rw [if_pos rfl, List.map_append, List.map_singleton, declareEach_concat, ih]
      exact ParameterCall.declare_of_declared wf hc run own
    · have same := ParameterCall.metadata_eq wf hc run fun e => absurd e.symm is
      rw [if_neg is, List.append_nil, ih, same]
  | @shadowed log now after calls c hc run passed ih =>
    rw [ih, ParameterCall.metadata_of_shadowed (calls.appends h).wellFormed hc run passed]
  | @failed log now after calls c hc e run ih =>
    rw [ih, ParameterCall.metadata_of_failed (calls.appends h).wellFormed hc run]
  | other _ _ same ih => rw [ih, same]

end Workspace

/-- **Declared parameters are merged.** However parameters are declared, those of a builder that had
none are merged from the declarations that were made on it. A call changes nothing that is said
about other processes than that of its target: the outermost one, or that of the calling builder. If
it has the name of a callback parameter of that builder, it changes nothing at all. -/
theorem declarations_merge {start now : Workspace} {log : List (BuilderRef × ParameterCall)}
    (h : start.Reachable) (calls : start.Declarations log now) :
    (∀ b, (start.builder b).metadata.parameters = .null → ∃ entries,
      (now.builder b).metadata.parameters.Merges (ParameterCall.on b log) entries) ∧
    ∀ c : ParameterCall, c.builder.index < now.builders.size → ∀ result after,
      c.step.run now = (result, after) →
        (∀ b, b ≠ (if c.onRoot then now.root c.builder else c.builder) →
          (after.builder b).metadata = (now.builder b).metadata) ∧
        (now.passes c.builder (.str c.name) →
          ∀ b, (after.builder b).metadata = (now.builder b).metadata) := by
  have wf := (calls.appends h.wellFormed).wellFormed
  constructor
  · intro b none
    have all := calls.declareEach h.wellFormed b
    rw [none] at all
    exact exists_merges all
  · intro c hc result after run
    constructor
    · intro b other
      exact ParameterCall.metadata_eq wf hc run fun is => absurd is other
    · intro passed b
      exact ParameterCall.metadata_of_shadowed wf hc run passed

/-! ## Declarations from a callback -/

/-- A declaration with a description. -/
def ParameterCall.described (builder : BuilderRef) (name description : String) (onRoot : Bool) :
    ParameterCall where
  builder := builder
  name := name
  declaration := [(.str "name", .str name), (.str "description", .str description)]
  onRoot := onRoot
  called := rfl
  keys := by simp [Dictionary.keys]

/-- A builder with a node and the builder of its callback, which is passed `x`. -/
def Workspace.nested : Workspace :=
  let ws := ((Build.createBuilder (.list [callbackProcess "apply"]) .null none none []).run {}).2
  let ws := ((Build.invoke ⟨0⟩ "apply" (.list [.int 1, .int 2])).run ws).2
  ((Build.createChild ⟨0⟩ ⟨0⟩ (.str "process")).run ws).2

theorem Build.run_of_isOk {step : Build Unit} {ws : Workspace}
    (h : (step.run ws).1.isOk = true) : step.run ws = (.ok (), (step.run ws).2) := by
  obtain ⟨⟨⟩, run⟩ := exists_of_isOk h
  exact run

/-- The offset is declared twice from the callback, the scale in between from outside; `k` stays
inside, and `x` is not declared at all. -/
theorem declarations_merge_nested :
    ∃ now entries, Workspace.nested.Declarations
        [(⟨0⟩, .described ⟨1⟩ "offset" "Draft" true), (⟨0⟩, .described ⟨0⟩ "scale" "Scale" true),
          (⟨1⟩, .described ⟨1⟩ "k" "Inside" false),
          (⟨0⟩, .described ⟨1⟩ "offset" "Offset" true)] now ∧
      (now.builder ⟨0⟩).metadata.parameters.Merges
        [.described ⟨1⟩ "offset" "Draft" true, .described ⟨0⟩ "scale" "Scale" true,
          .described ⟨1⟩ "offset" "Offset" true] entries ∧
      entries.map (field "name") = [.str "offset", .str "scale"] := by
  have numbers (ws : Workspace) : (Value.list [.int 1, .int 2]).Within ws := nofun
  have reachable : Workspace.nested.Reachable :=
    .operation (.operation (.operation (.refl _) (.createBuilder _ _ none none [] nofun))
      (.invoke (by decide +kernel) "apply" (numbers _) .null none))
      (.createChild (by decide +kernel) (by decide +kernel) _)
  have none : Workspace.nested.Declarations [] .nested := .nil
  have first := none.declared (c := .described ⟨1⟩ "offset" "Draft" true) (by decide +kernel)
    (Build.run_of_isOk (by decide +kernel)) (by decide +kernel)
  have second := first.declared (c := .described ⟨0⟩ "scale" "Scale" true) (by decide +kernel)
    (Build.run_of_isOk (by decide +kernel)) (by decide +kernel)
  have third := second.declared (c := .described ⟨1⟩ "k" "Inside" false) (by decide +kernel)
    (Build.run_of_isOk (by decide +kernel)) (by decide +kernel)
  have fourth := third.shadowed (c := .described ⟨1⟩ "x" "Passed" true) (by decide +kernel)
    (Build.run_of_isOk (by decide +kernel)) (by decide +kernel)
  have fifth := fourth.declared (c := .described ⟨1⟩ "offset" "Offset" true) (by decide +kernel)
    (Build.run_of_isOk (by decide +kernel)) (by decide +kernel)
  obtain ⟨entries, merges⟩ := (declarations_merge reachable fifth).1 ⟨0⟩ rfl
  exact ⟨_, entries, fifth, merges, merges.names.trans rfl⟩

end ProcessGraph
