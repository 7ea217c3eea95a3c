import ProcessGraph.Proofs.Graph.CallDeclarations
import ProcessGraph.Proofs.Graph.Frames

/-!
# Calls that fail

A call that finds no process or cannot bind its arguments leaves everything as it was. But the id of
the new node is numbered before the parameters that it reaches are declared, one by one, and a
declaration can be refused: the names of the callback parameters may be unreadable, or what is
declared already may not be a list of objects. Then the number is used up, and the declarations
before that one stay.

Main statement: what a failed call leaves behind (`failures_leave`). Where any declaration is taken
(`Workspace.TakesDeclarations`), it is nothing. A failed access to an element never leaves anything,
as callback parameters are not declared.
-/

set_option autoImplicit false

namespace ProcessGraph

/-! ## Declarations that are taken -/

/-- Parameters that take any declaration: none at all, or a list of objects. -/
def Value.TakesDeclarations : Value → Prop
  | .null => True
  | .list items => ∀ v ∈ items, ∃ d, v = .dict d
  | _ => False

theorem exists_mergeDeclaration (d : Value.Entries) (name : Value) {items : List Value}
    (h : ∀ v ∈ items, ∃ e, v = .dict e) :
    ∃ merged, mergeDeclaration d name items = .ok merged ∧
      ∀ items' ∈ merged, ∀ v ∈ items', ∃ e, v = .dict e := by
  induction items with
  | nil => exact ⟨none, rfl, nofun⟩
  | cons v items ih =>
    obtain ⟨e, rfl⟩ := h v List.mem_cons_self
    have rest := fun v hv => h v (List.mem_cons_of_mem _ hv)
    unfold mergeDeclaration
    split
    · exact ⟨_, rfl, fun _ h => by
        cases h
        exact List.forall_mem_cons.2 ⟨⟨_, rfl⟩, rest⟩⟩
    · obtain ⟨merged, result, objects⟩ := ih rest
      rw [result]
      refine ⟨merged.map (.dict e :: ·), rfl, fun items' h => ?_⟩
      obtain ⟨others, hm, rfl⟩ := Option.map_eq_some_iff.1 h
      exact List.forall_mem_cons.2 ⟨⟨e, rfl⟩, objects others hm⟩

theorem Value.TakesDeclarations.declareIn {parameters : Value} (h : parameters.TakesDeclarations)
    (d : Value.Entries) (name : Value) :
    ∃ declared isNew, ProcessGraph.declareIn d name parameters = .ok (declared, isNew) ∧
      declared.TakesDeclarations := by
  cases parameters with
  | null => exact ⟨_, _, rfl, List.forall_mem_singleton.2 ⟨d, rfl⟩⟩
  | list items =>
    obtain ⟨merged, result, objects⟩ := exists_mergeDeclaration d name h
    unfold ProcessGraph.declareIn
    dsimp only
    rw [result]
    cases merged with
    | some items' => exact ⟨_, _, rfl, objects items' rfl⟩
    | none => exact ⟨_, _, rfl, List.forall_mem_append.2 ⟨h, List.forall_mem_singleton.2 ⟨d, rfl⟩⟩⟩
  | _ => exact h.elim

/-- Calls in a builder can declare any parameter. -/
structure Workspace.TakesDeclarations (ws : Workspace) (b : BuilderRef) : Prop where
  names : ∃ names, ws.parentNames b = .ok names ∧ ∀ name ∈ names, name.key?.isSome
  parameters : (ws.builder (ws.root b)).metadata.parameters.TakesDeclarations

namespace Build

variable {ws : Workspace} {b : BuilderRef}

theorem callbackParameterList_succeeds {names : List Value}
    (h : ∀ name ∈ names, name.key?.isSome) (ws : Workspace) :
    ∃ as now, (callbackParameterList b names).run ws = (.ok as, now) := by
  induction names generalizing ws with
  | nil => exact ⟨[], ws, rfl⟩
  | cons name names ih =>
    obtain ⟨key, hk⟩ := Option.isSome_iff_exists.1 (h name List.mem_cons_self)
    have first : ∃ a now, (callbackParameter b name).run ws = (.ok a, now) := by
      rw [run_callbackParameter hk]
      split
      · exact ⟨_, _, rfl⟩
      · exact ⟨_, _, rfl⟩
    obtain ⟨a, now, first⟩ := first
    obtain ⟨as, after, others⟩ := ih (fun name hn => h name (List.mem_cons_of_mem _ hn)) now
    exact ⟨a :: as, after, by
      unfold callbackParameterList
      rw [run_bind_of_ok first, run_bind_of_ok others]
      rfl⟩

section
variable (h : ws.WellFormed) (hb : b.index < ws.builders.size) (takes : ws.TakesDeclarations b)
include h hb takes

/-- The callback parameters are looked at, which leaves the declared ones alone. -/
theorem parentParameters_succeeds :
    ∃ as now, (parentParameters b).run ws = (.ok as, now) ∧ ws.Grows now ∧
      (now.builder (ws.root b)).metadata.parameters =
        (ws.builder (ws.root b)).metadata.parameters := by
  obtain ⟨names, hnames, keys⟩ := takes.names
  obtain ⟨as, now, listed⟩ := callbackParameterList_succeeds (b := b) keys ws
  have looked : (parentParameters b).run ws = (.ok as, now) := by
    rw [run_parentParameters, hnames]
    exact listed
  obtain ⟨ext, g, -⟩ := (ensures_parentParameters (h.extends (fun _ => False) fun _ => False)
    hb).of_run looked
  exact ⟨as, now, looked, g, (ext.kept.content _ (h.root_lt hb)).parameters.resolve_left id⟩

theorem addParameter_succeeds (d : Value.Entries) :
    ∃ now, (addParameter b d).run ws = (.ok (), now) ∧
      (now.builder (ws.root b)).metadata.parameters.TakesDeclarations := by
  obtain ⟨as, now, looked, g, same⟩ := parentParameters_succeeds h hb takes
  have old := same.symm ▸ takes.parameters
  obtain ⟨declared, isNew, made, new⟩ := old.declareIn d (Value.field "name" d)
  have asked : (isCallbackParameter (Value.field "name" d) as).run now =
      (.ok (as.any fun a => (now.accessParameter a).name.same (Value.field "name" d)), now) := rfl
  unfold addParameter
  rw [run_bind_of_ok looked, run_bind_of_ok asked]
  split
  · exact ⟨now, rfl, old⟩
  · rw [run_get_bind, if_pos rfl, h.root_eq g hb, run_bind_of_ok (by rw [run_ofExcept, made])]
    have target := Nat.lt_of_lt_of_le (h.root_lt hb) g.builders
    have new := (Workspace.parameters_setParameters target declared).symm ▸ new
    cases isNew
    · exact ⟨_, rfl, new⟩
    · exact ⟨_, rfl, new⟩

/-- After a declaration others are taken, too. -/
theorem takesDeclarations_addParameter (d : Value.Entries) :
    ∃ now, (addParameter b d).run ws = (.ok (), now) ∧ now.WellFormed ∧
      b.index < now.builders.size ∧ now.TakesDeclarations b := by
  obtain ⟨now, run, parameters⟩ := addParameter_succeeds h hb takes d
  obtain ⟨ext, g, -⟩ := (ensures_addParameter (h.extends (fun _ => True) fun _ => True) hb d true
    (.inl trivial)).of_run run
  obtain ⟨names, hnames, keys⟩ := takes.names
  exact ⟨now, run, ext.wellFormed, Nat.lt_of_lt_of_le hb g.builders,
    ⟨names, (ext.kept.parentNames h hb).trans hnames, keys⟩, (h.root_eq g hb).symm ▸ parameters⟩

theorem declareAll_succeeds (rs : List ParameterRef) :
    ∃ now, (declareAll b rs).run ws = (.ok (), now) := by
  induction rs generalizing ws with
  | nil => exact ⟨ws, rfl⟩
  | cons r rs ih =>
    unfold declareAll
    rw [run_get_bind]
    dsimp only
    split
    · obtain ⟨now, declared, h₁, hb₁, takes₁⟩ := takesDeclarations_addParameter h hb takes
        (ws.parameter r).declaration
      rw [run_bind_of_ok declared]
      exact ih h₁ hb₁ takes₁
    · exact ih h hb takes

end

/-- Parameters that are not declarable are passed over. -/
theorem declareAll_of_not_declarable {rs : List ParameterRef}
    (h : ∀ r ∈ rs, (ws.parameter r).isDeclarable = false) :
    (declareAll b rs).run ws = (.ok (), ws) := by
  induction rs with
  | nil => rfl
  | cons r rs ih =>
    unfold declareAll
    rw [run_get_bind]
    dsimp only
    rw [if_neg (by simp [h r List.mem_cons_self])]
    exact ih fun r hr => h r (List.mem_cons_of_mem _ hr)

end Build

/-! ## Numbers that are used up -/

theorem le_firstFree (taken : List String) (stem : String) (fuel n : Nat) :
    n ≤ firstFree taken stem fuel n := by
  induction fuel generalizing n with
  | zero => exact Nat.le_refl n
  | succ fuel ih =>
    unfold firstFree
    split
    · exact Nat.le_trans (Nat.le_succ n) (ih (n + 1))
    · exact Nat.le_refl n

namespace Workspace

/-- The workspace after a node has been numbered. -/
def numbered (ws : Workspace) (b : BuilderRef) (process : String) : Workspace :=
  ((Build.generateId b process).run ws).2

theorem TakesDeclarations.numbered {ws : Workspace} {b : BuilderRef}
    (takes : ws.TakesDeclarations b) (h : ws.WellFormed) (hb : b.index < ws.builders.size) (process : String) :
    (ws.numbered b process).WellFormed ∧ b.index < (ws.numbered b process).builders.size ∧
      (ws.numbered b process).TakesDeclarations b := by
  obtain ⟨ext, g, -⟩ := (Build.ensures_generateId (h.extends (fun _ => True) fun _ => True)
    (open_of_within hb) process).of_run rfl
  obtain ⟨names, hnames, keys⟩ := takes.names
  refine ⟨ext.wellFormed, Nat.lt_of_lt_of_le hb g.builders,
    ⟨names, (ext.kept.parentNames h hb).trans hnames, keys⟩, ?_⟩
  have same : ((ws.numbered b process).builder (ws.root b)).metadata = _ :=
    field_modifyBuilder (·.metadata) ws b (ws.root b) fun _ => rfl
  rw [show (ws.numbered b process).root b = ws.root b from h.root_eq g hb, same]
  exact takes.parameters

/-- A call has failed at the declaration of a parameter. It has used up a number by then, and may
have declared others. -/
structure FailedDeclaring (ws : Workspace) (b : BuilderRef) (key : String × Option String)
    (arguments : Value) (e : Failure) (now : Workspace) : Prop where
  declared : ∃ spec entries, (ws.catalogOf b).get? key.1 key.2 = some spec ∧
    spec.bindArguments arguments = .ok entries ∧
    (Build.declareAll b ((ws.numbered b key.1).discover entries)).run (ws.numbered b key.1) =
      (.error e, now)
  registered : ws.SameRegistered now
  number :
    let stem := idStem (ws.builder b).settings.idStemLength key.1
    (ws.builder b).nextNumber stem < (now.builder b).nextNumber stem

/-- Declarations do not take numbers back. -/
theorem nextNumber_lt_of_declareAll {ws now : Workspace} {b : BuilderRef}
    (hb : b.index < ws.builders.size) {process : String} {rs : List ParameterRef}
    {result : Except Failure Unit}
    (run : (Build.declareAll b rs).run (ws.numbered b process) = (result, now)) :
    let stem := idStem (ws.builder b).settings.idStemLength process
    (ws.builder b).nextNumber stem < (now.builder b).nextNumber stem := by
  intro stem
  have kept := (frame_sameCounters.keeps_declareAll b rs).of_run run b
  have numbered : (ws.numbered b process).builder b = { ws.builder b with
      counters := Dictionary.insert stem ((ws.builder b).nextNumber stem)
        (ws.builder b).counters } := by
    have changed := ws.builder_modifyBuilder b b fun builder => { builder with
      counters := Dictionary.insert stem ((ws.builder b).nextNumber stem) builder.counters }
    rwa [if_pos ⟨rfl, hb⟩] at changed
  have used : Dictionary.get? stem (now.builder b).counters =
      some ((ws.builder b).nextNumber stem) := by
    rw [kept, numbered]
    exact Dictionary.get?_insert_self ..
  have least := le_firstFree (now.builder b).nodes.keys stem (now.builder b).nodes.length
    ((Dictionary.get? stem (now.builder b).counters).getD 0 + 1)
  rw [used] at least
  show _ < firstFree _ _ _ _
  rw [used]
  exact least

end Workspace

namespace Build

section
variable {ws now : Workspace} {b : BuilderRef} {process : String} {arguments description : Value}
  {space : Option String} {e : Failure}

/-- A node cannot be made if there is no such process, if its arguments cannot be bound, or if a
parameter cannot be declared. -/
theorem makeNode_eq_error
    (run : (makeNode b process arguments description space).run ws = (.error e, now)) :
    now = ws ∨ ∃ spec entries, (ws.catalogOf b).get? process space = some spec ∧
      spec.bindArguments arguments = .ok entries ∧
      (declareAll b ((ws.numbered b process).discover entries)).run (ws.numbered b process) =
        (.error e, now) := by
  unfold makeNode at run
  rw [run_get_bind] at run
  dsimp only at run
  split at run
  · cases run
    exact .inl rfl
  · rename_i spec found
    rcases run_bind_eq_error run with failed | ⟨entries, _, bound, run⟩
    · exact .inl (congrArg Prod.snd failed).symm
    rw [run_ofExcept, Prod.mk.injEq] at bound
    obtain ⟨bound, rfl⟩ := bound
    rcases run_bind_eq_error run with failed | ⟨id, _, numbered, run⟩
    · cases failed
    cases numbered
    rw [run_get_bind] at run
    rcases run_bind_eq_error run with failed | ⟨_, _, _, made⟩
    · exact .inr ⟨spec, entries, found, bound, failed⟩
    · cases made

theorem invoke_eq_error
    (run : (invoke b process arguments description space).run ws = (.error e, now)) :
    (makeNode b (callKey process space).1 arguments description (callKey process space).2).run ws =
      (.error e, now) := by
  rw [invoke_eq] at run
  rcases run_bind_eq_error run with failed | ⟨n, _, -, registered⟩
  · exact failed
  · cases registered

/-- Nothing comes of a call if there is no such process. -/
theorem invoke_of_missing
    (missing : (ws.catalogOf b).get? (callKey process space).1 (callKey process space).2 = none) :
    (invoke b process arguments description space).run ws =
      (.error (.processNotFound (callKey process space).1 (callKey process space).2), ws) := by
  rw [invoke_eq, run_bind_state]
  unfold makeNode
  rw [run_get_bind]
  dsimp only
  rw [missing]
  rfl

/-- A call succeeds if there is such a process, its arguments can be bound, and the parameters in
them can be declared. -/
theorem invoke_of_declareAll {after : Workspace} {spec : Specification} {entries : Value.Entries}
    (found : (ws.catalogOf b).get? (callKey process space).1 (callKey process space).2 = some spec)
    (bound : spec.bindArguments arguments = .ok entries)
    (declared : (declareAll b ((ws.numbered b (callKey process space).1).discover entries)).run
      (ws.numbered b (callKey process space).1) = (.ok (), after)) :
    ∃ n now, (invoke b process arguments description space).run ws = (.ok n, now) := by
  have numbered : (generateId b (callKey process space).1).run ws =
      (.ok _, ws.numbered b (callKey process space).1) := rfl
  have made : ∃ n now, (makeNode b (callKey process space).1 arguments description
      (callKey process space).2).run ws = (.ok n, now) := by
    unfold makeNode
    rw [run_get_bind]
    dsimp only
    rw [found]
    dsimp only
    rw [run_bind_of_ok (by rw [run_ofExcept, bound]), run_bind_of_ok numbered, run_get_bind,
      run_bind_of_ok declared]
    exact ⟨_, _, rfl⟩
  obtain ⟨n, now, made⟩ := made
  rw [invoke_eq, run_bind_of_ok made]
  exact ⟨n, _, rfl⟩

/-- A failed call has left nothing, or has failed at a declaration. -/
theorem invoke_leaves (h : ws.WellFormed) (hb : b.index < ws.builders.size)
    (run : (invoke b process arguments description space).run ws = (.error e, now)) :
    now = ws ∨ ¬ ws.TakesDeclarations b ∧
      ws.FailedDeclaring b (callKey process space) arguments e now := by
  refine (makeNode_eq_error (invoke_eq_error run)).imp_right
    fun ⟨spec, entries, found, bound, failed⟩ =>
      ⟨fun takes => ?_, ⟨spec, entries, found, bound, failed⟩, ?_, ?_⟩
  · obtain ⟨h₁, hb₁, takes₁⟩ := takes.numbered h hb (callKey process space).1
    obtain ⟨_, declared⟩ := declareAll_succeeds h₁ hb₁ takes₁
      ((ws.numbered b (callKey process space).1).discover entries)
    rw [declared] at failed
    cases failed
  · exact (Workspace.frame_sameRegistered.keeps_makeNode Workspace.sameRegistered_of_numbering b _ _
      _ _).of_run (invoke_eq_error run)
  · exact Workspace.nextNumber_lt_of_declareAll hb failed

end

/-- A shortcut fails like a call, or because its arguments cannot be bound. -/
theorem callShortcut_eq_error {ws now : Workspace} {b : BuilderRef} {process : String}
    {spec : Specification} {arguments : List Value} {named : Value.Entries} {e : Failure}
    (run : (callShortcut b process spec arguments named).run ws = (.error e, now)) :
    now = ws ∨ ∃ given, (invoke b process given).run ws = (.error e, now) := by
  unfold callShortcut at run
  split at run
  · exact .inr ⟨_, run⟩
  · rcases run_bind_eq_error run with failed | ⟨entries, _, bound, run⟩
    · exact .inl (congrArg Prod.snd failed).symm
    · rw [run_ofExcept, Prod.mk.injEq] at bound
      obtain ⟨-, rfl⟩ := bound
      exact .inr ⟨_, run⟩

/-! ## Elements -/

/-- An access fails because of its key, or because the node for the element cannot be made. -/
theorem elementAt_eq_error {ws now : Workspace} {a : AccessRef} {key : Value} {e : Failure}
    (run : (elementAt a key).run ws = (.error e, now)) :
    now = ws ∨ ∃ k : ElementKey, (invoke (ws.access a).builder
        (ws.builder (ws.access a).builder).settings.arrayElementProcess
        (.object [("data", .parameter (ws.access a).parameter), (k.argument, k.toValue)])).run ws =
      (.error e, now) := by
  unfold elementAt at run
  rw [run_get_bind] at run
  rcases run_bind_eq_error run with failed | ⟨k, _, named, run⟩
  · exact .inl (congrArg Prod.snd failed).symm
  rw [run_ofExcept, Prod.mk.injEq] at named
  obtain ⟨-, rfl⟩ := named
  unfold element at run
  rw [run_get_bind] at run
  dsimp only at run
  split at run
  · cases run
  · rcases run_bind_eq_error run with failed | ⟨n, _, -, remembered⟩
    · exact .inr ⟨k, failed⟩
    · cases remembered

/-- All that an access refers to is the callback parameter. -/
theorem discover_element (ws : Workspace) (p : ParameterRef) (k : ElementKey) :
    ws.discover [(.str "data", .parameter p), (.str k.argument, k.toValue)] = [p] := by
  unfold Workspace.discover
  cases k <;> simp [ElementKey.toValue, Value.mentionsInEntries, Value.mentions, Discovery.visit]

/-- The node for an element declares nothing, so nothing is left if it cannot be made. -/
theorem elementAt_leaves {ws now : Workspace} (h : ws.WellFormed) {a : AccessRef}
    (ha : a.index < ws.accesses.size) {key : Value} {e : Failure}
    (run : (elementAt a key).run ws = (.error e, now)) : now = ws := by
  rcases elementAt_eq_error run with same | ⟨k, failed⟩
  · exact same
  rcases makeNode_eq_error (invoke_eq_error failed) with same | ⟨spec, entries, _, bound, failed⟩
  · exact same
  cases bound
  have ok := h.access a ha
  obtain ⟨key, listed⟩ := ok.listed
  obtain ⟨-, -, -, parameter⟩ := (h.builder _ ok.builder).callbackParameters key a
    (Dictionary.mem_of_get? listed)
  have quiet (process : String) (r : ParameterRef) (hr : r ∈ [(ws.access a).parameter]) :
      ((ws.numbered (ws.access a).builder process).parameter r).isDeclarable = false := by
    cases List.mem_singleton.1 hr
    exact congrArg Parameter.isDeclarable parameter
  have failed : (declareAll (ws.access a).builder (Workspace.discover _
      [(.str "data", .parameter (ws.access a).parameter), (.str k.argument, k.toValue)])).run _ =
      (.error e, now) := failed
  rw [discover_element, declareAll_of_not_declarable (quiet _)] at failed
  cases failed

end Build

/-! ## What is left -/

/-- **What failed calls leave.** A call, by its name or by its shortcut, leaves everything as it
was, unless it fails at a declaration. That does not happen where all declarations are taken. Then a
number is used up, but still no builder has other nodes. An access to an element leaves everything
as it was. -/
theorem failures_leave {ws now : Workspace} (h : ws.Reachable) {b : BuilderRef}
    (hb : b.index < ws.builders.size) {e : Failure} :
    (∀ {process : String} {arguments description : Value} {space : Option String},
      (Build.invoke b process arguments description space).run ws = (.error e, now) →
      now = ws ∨ ¬ ws.TakesDeclarations b ∧
        ws.FailedDeclaring b (callKey process space) arguments e now) ∧
    (∀ {process : String} {spec : Specification} {arguments : List Value} {named : Value.Entries},
      (Build.callShortcut b process spec arguments named).run ws = (.error e, now) →
      now = ws ∨ ¬ ws.TakesDeclarations b ∧
        ∃ given, ws.FailedDeclaring b (callKey process none) given e now) ∧
    ∀ {a : AccessRef} {key : Value}, a.index < ws.accesses.size →
      (Build.elementAt a key).run ws = (.error e, now) → now = ws := by
  refine ⟨fun run => Build.invoke_leaves h.wellFormed hb run, fun run => ?_,
    fun ha run => Build.elementAt_leaves h.wellFormed ha run⟩
  rcases Build.callShortcut_eq_error run with same | ⟨given, failed⟩
  · exact .inl same
  · exact (Build.invoke_leaves h.wellFormed hb failed).imp_right fun ⟨refuses, left⟩ =>
      ⟨refuses, given, left⟩

/-! ## A process whose parameters cannot be read -/

/-- A builder for the argument `process` of `apply`, which lists its parameters as texts, and a
parameter. -/
def Workspace.unreadable : Workspace :=
  let apply := Value.object [("id", .str "apply"),
    ("parameters", .list [.str "data", .str "process"])]
  let ws := ((Build.createBuilder (.list [binaryProcess "add", apply]) .null none none []).run {}).2
  let ws := ((Build.invoke ⟨0⟩ "apply" (.object [("data", .list [])])).run ws).2
  let ws := ((Build.createChild ⟨0⟩ ⟨0⟩ (.str "process")).run ws).2
  ((Build.newParameter (.named "offset")).run ws).2

/-- A builder with a callback parameter, but without a process to access elements. -/
def Workspace.elementless : Workspace :=
  ((Build.callbackParameter ⟨0⟩ (.str "data")).run .arithmetic).2

/-- The specification of its addition. -/
def elementlessAddition : Specification :=
  ((Workspace.elementless.catalogOf ⟨0⟩).get? "add" none).getD []

/-- Addition in the callback is refused and loses the number 1. A shortcut with too many arguments
and an access without a process for it leave nothing. -/
theorem failures_leave_callback :
    (∃ e now, (Build.invoke ⟨1⟩ "add" (.list [.parameter ⟨0⟩, .int 1])).run .unreadable =
        (.error e, now) ∧ Workspace.unreadable.SameRegistered now ∧
      (Workspace.unreadable.builder ⟨1⟩).nextNumber "add" < (now.builder ⟨1⟩).nextNumber "add") ∧
    (∃ e, (Build.callShortcut ⟨0⟩ "add" elementlessAddition [.int 1, .int 2, .int 3] []).run
      .elementless = (.error e, .elementless)) ∧
    ∃ e, (Build.elementAt ⟨0⟩ (.int 0)).run .elementless = (.error e, .elementless) := by
  have elementless : Workspace.elementless.Reachable :=
    .operation Workspace.reachable_arithmetic (.callbackParameter (by decide +kernel) _)
  refine ⟨?_, ?_, ?_⟩
  · have unreadable : Workspace.unreadable.Reachable :=
      .operation (.operation (.operation (.operation (.refl _)
        (.createBuilder _ _ none none [] nofun))
        (.invoke (by decide +kernel) "apply" (Value.within_of_refs_eq_nil rfl) .null none))
        (.createChild (by decide +kernel) (by decide +kernel) _)) (.newParameter _)
    have fails : ((Build.invoke ⟨1⟩ "add" (.list [.parameter ⟨0⟩, .int 1])).run
        .unreadable).1.toOption = none := by decide +kernel
    have lost : ((((Build.invoke ⟨1⟩ "add" (.list [.parameter ⟨0⟩, .int 1])).run
        .unreadable).2).builder ⟨1⟩).nextNumber "add" = 2 := by decide +kernel
    have before : (Workspace.unreadable.builder ⟨1⟩).nextNumber "add" = 1 := by decide +kernel
    rcases run : (Build.invoke ⟨1⟩ "add" (.list [.parameter ⟨0⟩, .int 1])).run .unreadable with
      ⟨e | n, now⟩
    · rw [run] at lost
      refine ⟨e, now, rfl, ?_⟩
      rcases (failures_leave unreadable (by decide +kernel)).1 run with rfl | ⟨-, left⟩
      · exact absurd (before.symm.trans lost) (by decide)
      · exact ⟨left.registered, left.number⟩
    · rw [run] at fails
      cases fails
  · have fails : ((Build.callShortcut ⟨0⟩ "add" elementlessAddition [.int 1, .int 2, .int 3] []).run
        .elementless).1.toOption = none := by decide +kernel
    rcases run : (Build.callShortcut ⟨0⟩ "add" elementlessAddition [.int 1, .int 2, .int 3] []).run
        .elementless with ⟨e | n, now⟩
    · have takes : Workspace.elementless.TakesDeclarations ⟨0⟩ := ⟨⟨[], by rfl, nofun⟩, trivial⟩
      rcases (failures_leave elementless (by decide +kernel)).2.1 run with rfl | ⟨refuses, -⟩
      · exact ⟨e, rfl⟩
      · exact absurd takes refuses
    · rw [run] at fails
      cases fails
  · have fails : ((Build.elementAt ⟨0⟩ (.int 0)).run .elementless).1.toOption = none := by
      decide +kernel
    rcases run : (Build.elementAt ⟨0⟩ (.int 0)).run .elementless with ⟨e | n, now⟩
    · obtain rfl := (failures_leave elementless (show 0 < _ by decide +kernel)).2.2
        (by decide +kernel) run
      exact ⟨e, rfl⟩
    · rw [run] at fails
      cases fails

end ProcessGraph
