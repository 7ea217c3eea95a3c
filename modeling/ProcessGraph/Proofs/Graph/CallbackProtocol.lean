import ProcessGraph.Proofs.Graph.CallOrder
import ProcessGraph.Proofs.Graph.Conduct
import ProcessGraph.Proofs.Graph.FormulaNodes
import ProcessGraph.Proofs.Graph.FormulaParameters
import ProcessGraph.Proofs.Graph.SharedElements

/-!
# What functions are called with

Of a new builder and the callback parameters for its argument, in this order, a function in an
argument of a node gets as many as it takes (`Callback.TakesLongest`). A function that takes nothing
does not get the builder either. The names of the callback parameters are declared in the
specification of the node, or else they are in the table for its process (`Workspace.namesFor`); an
argument without a name has none. Formulas in the builder refer to all of them with dollars
(`Build.run_resolve_dollars`), as long as the builder stays with its argument
(`Workspace.KeepsParent`); that is up to the function itself (`Conduct.Acts.keepsParent`).

`Documents.calls_followProtocol` says this of all the calls that are made for a document, and in
which order they are made.
-/

set_option autoImplicit false

namespace ProcessGraph

variable {σ : Type}

/-! ## The names of callback parameters -/

namespace Specification

/-- The parameter is called so. -/
def isCalled (argument : Scalar) (parameter : Value) : Bool :=
  (Value.field "name" parameter.entries).same argument.toValue

/-- The schemas of a parameter: one, or those in a list. -/
def schemas (parameter : Value) : List Value :=
  match Value.field "schema" parameter.entries with
  | .list schemas => schemas
  | schema => [schema]

/-- The parameters that a schema lists. -/
def listed? (schema : Value) : Option (List Value) :=
  match Value.field "parameters" schema.entries with
  | .list parameters => some parameters
  | _ => none

theorem namesInSchemas_eq (schemas : List Value) :
    namesInSchemas schemas = (schemas.findSome? listed?).map namesIn := by
  induction schemas with
  | nil => rfl
  | cons schema schemas ih =>
    unfold namesInSchemas
    split
    · rename_i heq
      cases heq
    · rename_i d rest heq
      injection heq with first others
      subst first others
      have entries : (Value.dict d).entries = d := rfl
      split
      · rename_i ps hps
        rw [List.findSome?_cons, listed?, entries, hps]
        rfl
      · rename_i other
        have unlisted : listed? (.dict d) = none := by
          unfold listed?
          split
          · exact absurd ‹_› (other _)
          · rfl
        rw [List.findSome?_cons, unlisted, ih]
    · rename_i v rest other heq
      injection heq with first others
      subst first others
      have unlisted : listed? schema = none := by
        cases schema with
        | dict d => exact absurd rfl (other d)
        | _ => rfl
      rw [List.findSome?_cons, unlisted, ih]

theorem namesInSchema_eq (parameter : Value) :
    namesInSchema (Value.field "schema" parameter.entries) =
      ((schemas parameter).findSome? listed?).map namesIn := by
  rw [← namesInSchemas_eq]
  unfold schemas
  cases Value.field "schema" parameter.entries <;> rfl

/-- The first schema with a list of parameters counts, of the first parameter called so. -/
theorem declaredNames_eq_ok {argument : Scalar} {parameters : List Value}
    {names : Option (List Value)} (h : declaredNames argument parameters = .ok names) :
    names = (parameters.find? (isCalled argument)).bind fun p =>
      ((schemas p).findSome? listed?).map namesIn := by
  induction parameters with
  | nil => cases h; rfl
  | cons p ps ih =>
    cases p with
    | dict d =>
      have step : declaredNames argument (.dict d :: ps) =
          if isCalled argument (.dict d) then
            .ok (namesInSchema (Value.field "schema" (Value.dict d).entries))
          else declaredNames argument ps := rfl
      rw [step] at h
      rw [List.find?_cons]
      split at h
      · rename_i same
        cases h
        rw [same]
        exact namesInSchema_eq (.dict d)
      · rename_i other
        rw [Bool.not_eq_true] at other
        rw [other]
        exact ih h
    | _ => cases h

end Specification

namespace Workspace

/-- The names of the parameters that are passed to a function in an argument of a node: those that
the specification declares, or those in the table for the process. -/
def namesFor (ws : Workspace) (n : NodeRef) (argument : Scalar) : List Value :=
  let node := ws.node n
  let parameters := (Specification.parameters node.specification).toOption.getD []
  let declared := (parameters.find? (Specification.isCalled argument)).bind fun p =>
    ((Specification.schemas p).findSome? Specification.listed?).map Specification.namesIn
  declared.getD (((Dictionary.get? node.process ws.callbackNames).map
    (·.names node.arguments)).getD [])

variable {ws now : Workspace} {b : BuilderRef} {n : NodeRef} {argument : Scalar}
  {names : List Value}

theorem callbackNamesOf_eq_ok (h : ws.callbackNamesOf n argument = .ok names) :
    names = ws.namesFor n argument := by
  unfold callbackNamesOf at h
  unfold namesFor
  cases hp : Specification.parameters (ws.node n).specification with
  | error e => rw [hp] at h; cases h
  | ok parameters =>
    rw [hp] at h
    dsimp only [bind, Except.bind] at h
    cases hd : Specification.declaredNames argument parameters with
    | error e => rw [hd] at h; cases h
    | ok declared =>
      have same := Specification.declaredNames_eq_ok hd
      rw [hd] at h
      simp only [hp, Except.toOption, Option.getD_some]
      rw [← same]
      cases declared with
      | some declared => cases h; rfl
      | none =>
        dsimp only at h
        split at h <;> cases h <;> rename_i found <;> rw [found] <;> rfl

/-- A builder is passed the names for its node and its argument; an argument that has no name gets
none. -/
theorem parentNames_eq_ok (h : ws.parentNames b = .ok names)
    (node : (ws.builder b).parentNode = some n)
    (parameter : (ws.builder b).parentParameter = argument) :
    (argument ≠ .null → names = ws.namesFor n argument) ∧ (argument = .null → names = []) := by
  unfold parentNames at h
  rw [node, parameter] at h
  cases argument with
  | null => cases h; exact ⟨fun h => absurd rfl h, fun _ => rfl⟩
  | _ => exact ⟨fun _ => callbackNamesOf_eq_ok h, nofun⟩

end Workspace

/-! ## As many arguments as the function takes -/

namespace Callback

/-- The function can be called with so many arguments. -/
def Takes (f : Callback) (count : Nat) : Prop := f.variadic ∨ count ≤ f.positional

/-- `taken` is the longest prefix of the arguments that the function takes. -/
structure TakesLongest (f : Callback) (arguments taken : List Value) : Prop where
  starts : taken <+: arguments
  takes : f.Takes taken.length
  longest : ∀ more, more <+: arguments → f.Takes more.length → more <+: taken

theorem takesLongest_accepted (f : Callback) (arguments : List Value) :
    f.TakesLongest arguments (f.accepted arguments) := by
  unfold accepted
  by_cases h : f.variadic
  · rw [if_pos h]
    exact ⟨List.prefix_refl _, .inl h, fun _ sub _ => sub⟩
  · rw [if_neg h]
    refine ⟨List.take_prefix .., .inr (List.length_take_le ..), fun more sub takes => ?_⟩
    have few : more.length ≤ f.positional := takes.resolve_left h
    refine List.prefix_of_prefix_length_le sub (List.take_prefix ..) ?_
    have := sub.length_le
    rw [List.length_take]
    omega

end Callback

/-! ## Dollars -/

namespace Reference

/-- What stands behind the dollars of a name. -/
def label (name : String) : String := String.ofList (name.toList.dropWhile (· = '$'))

theorem ofName_eq_element {name : String} {count : Nat} (positive : 1 ≤ dollars name)
    (few : dollars name ≤ count) : ofName name count = .element (dollars name) (label name) := by
  unfold dollars at positive few
  unfold ofName dollars label
  obtain ⟨c, cs, e⟩ : ∃ c cs, name.toList = c :: cs := by
    cases h : name.toList with
    | nil => rw [h] at positive; simp at positive
    | cons c cs => exact ⟨c, cs, rfl⟩
  rw [e] at positive few ⊢
  obtain rfl : c = '$' := by
    by_contra other
    simp [other] at positive
  have free : Dictionary.get? name literals = none := by
    rw [get?_literals_eq_none_iff]
    intro h
    simp only [List.mem_cons, List.not_mem_nil, or_false] at h
    rcases h with rfl | rfl | rfl <;> simp at e
  rw [free]
  simp only [List.takeWhile_cons, decide_true, if_true, List.length_cons] at few ⊢
  rw [if_pos (by omega), Nat.add_comm 1]
  simp

end Reference

namespace Build

section
variable {ws : Workspace} {b : BuilderRef} (wf : ws.WellFormed)
include wf

theorem run_callbackParameter_of_is {name : Value} {a : AccessRef}
    (is : ws.IsCallbackParameter b name a) : (callbackParameter b name).run ws = (.ok a, ws) := by
  obtain ⟨k, hk⟩ := (wf.access a is.within).listed
  rw [is.builder] at hk
  have hb : b.index < ws.builders.size := is.builder ▸ (wf.access a is.within).builder
  obtain ⟨-, -, -, same⟩ := (wf.builder b hb).callbackParameters k a (Dictionary.mem_of_get? hk)
  obtain rfl : name = k.toValue := congrArg Parameter.name (is.parameter.symm.trans same)
  have key : k.toValue.key? = some k := by cases k <;> rfl
  rw [run_callbackParameter key, hk]

/-- Callback parameters that are there are found again. -/
theorem run_callbackParameterList_of_forall₂ {names : List Value} {as : List AccessRef}
    (h : List.Forall₂ (ws.IsCallbackParameter b) names as) :
    (callbackParameterList b names).run ws = (.ok as, ws) := by
  induction h with
  | nil => rfl
  | cons is _ ih =>
    unfold callbackParameterList
    rw [run_bind_of_ok (run_callbackParameter_of_is wf is), run_bind_of_ok ih]
    rfl

/-- A name with dollars means an element of the callback parameter that they count. -/
theorem run_resolve_dollars {names : List Value} {as : List AccessRef} {i : Nat} {a : AccessRef}
    {name : String} (passed : ws.parentNames b = .ok names)
    (h : List.Forall₂ (ws.IsCallbackParameter b) names as) (ha : as[i]? = some a)
    (counted : Reference.dollars name = i + 1) (labelled : Reference.label name ≠ "") :
    (resolve b name).run ws =
      (do return .node (← elementAt a (.str (Reference.label name))) : Build Value).run ws := by
  have hi : i < as.length := (List.getElem?_eq_some_iff.1 ha).1
  have means : Reference.ofName name as.length = _ :=
    Reference.ofName_eq_element (by omega) (by omega)
  have looked : (parentParameters b).run ws = (.ok as, ws) := by
    rw [run_parentParameters, passed]
    exact run_callbackParameterList_of_forall₂ wf h
  rw [resolve_eq]
  unfold accessesFor
  rw [if_pos (Workspace.startsWithDollar_of_element means), run_bind_of_ok looked]
  unfold resolveWith
  rw [means, counted]
  dsimp only
  rw [if_neg labelled, Nat.add_sub_cancel, ha]

end

end Build

/-! ## The protocol -/

namespace Workspace

variable {ws now : Workspace} {b : BuilderRef}

/-- The workspace has grown. The builder is still there for the same argument, and no names have
been registered. -/
structure KeepsParent (ws : Workspace) (b : BuilderRef) (now : Workspace) : Prop extends
    ws.Appends now where
  node : (now.builder b).parentNode = (ws.builder b).parentNode
  parameter : (now.builder b).parentParameter = (ws.builder b).parentParameter
  names : now.callbackNames = ws.callbackNames

/-- Work that is confined to a builder registers no names: all builders are new to the vacant
workspace. -/
theorem Confined.callbackNames {content : Prop} {root : BuilderRef}
    (h : Confined content root b ws now) : now.callbackNames = ws.callbackNames :=
  (h.keeps _ (extends_vacant h.start _ _) fun _ => Nat.zero_le _).kept.callbackNames

end Workspace

/-- A function that acts on its builder only can change the meaning of dollars in no other way than
by giving the builder to another argument. -/
theorem Conduct.Acts.keepsParent {K : Conduct σ} {b : BuilderRef} {w now : World σ}
    (acts : K.Acts b w now) (wf : w.workspace.WellFormed)
    (hb : b.index < w.workspace.builders.size)
    (node : (now.workspace.builder b).parentNode = (w.workspace.builder b).parentNode)
    (parameter : (now.workspace.builder b).parentParameter =
      (w.workspace.builder b).parentParameter) : w.workspace.KeepsParent b now.workspace :=
  have stays := acts.stays wf ⟨hb, rfl⟩
  ⟨stays.toAppends, node, parameter, stays.callbackNames⟩

/-- How a function is called for an argument of a node, when that is reached in `before`. -/
structure Call.FollowsProtocol (call : Documents σ → Callback → List Value → Run σ Value)
    (before : World σ) (x : Lowering σ) (c : Call σ) : Prop where
  function : x.source = .callback c.function
  /-- The builder is a new one for the argument, without nodes. -/
  new : c.child = ⟨before.workspace.builders.size⟩
  empty : ∃ callbackParameters, c.before.workspace.builder c.child =
    { before.workspace.newChild x.node x.argument with callbackParameters }
  parameters : x.argument ≠ .null → List.Forall₂ (c.before.workspace.IsCallbackParameter c.child)
    (c.before.workspace.namesFor x.node x.argument) c.parameters
  unnamed : x.argument = .null → c.parameters = []
  arguments : c.function.TakesLongest (.builder c.child :: c.parameters.map .access) c.arguments
  runs : ∃ depth, (call (Documents.within call depth) c.function c.arguments).run c.before =
    (.ok c.value, c.after)
  /-- Formulas in the builder count all callback parameters, those that the function does not take
  as well. -/
  dollars : ∀ later, c.before.workspace.KeepsParent c.child later →
    ∀ {i : Nat} {a : AccessRef} {name : String}, c.parameters[i]? = some a →
      Reference.dollars name = i + 1 → Reference.label name ≠ "" →
      (Build.resolve c.child name).run later = (do
        return .node (← Build.elementAt a (.str (Reference.label name))) : Build Value).run later

section
variable {call : Documents σ → Callback → List Value → Run σ Value} {w now : World σ}
  {x : Lowering σ}

theorem FillsByCall.followsProtocol {f : Callback} {c : Call σ} (h : FillsByCall call w f x c)
    (wf : w.workspace.WellFormed) (hn : x.node.index < w.workspace.nodes.size) :
    c.FollowsProtocol call w x := by
  obtain ⟨names, begin⟩ := h.begin wf hn
  have wf₁ := (begin.steps.appends wf).wellFormed
  obtain ⟨callbackParameters, empty⟩ := begin.empty
  obtain ⟨named, unnamed⟩ : (x.argument ≠ .null → names =
      c.before.workspace.namesFor x.node x.argument) ∧ (x.argument = .null → names = []) :=
    Workspace.parentNames_eq_ok begin.passed (by rw [empty]; rfl) (by rw [empty]; rfl)
  refine ⟨h.function ▸ h.source, begin.child, ⟨_, empty⟩, fun given => named given ▸
    begin.parameters, fun noName => ?_, Callback.takesLongest_accepted .., h.function ▸ h.runs,
    fun later keeps i a name ha counted labelled => ?_⟩
  · have has := begin.parameters
    rw [unnamed noName] at has
    exact List.forall₂_nil_left_iff.1 has
  · have passed := (Workspace.parentNames_of_same wf₁ keeps.grows begin.child_lt keeps.names
      keeps.node keeps.parameter).trans begin.passed
    have has := begin.parameters.imp fun _ _ is => is.grow wf₁ keeps.grows
    exact Build.run_resolve_dollars keeps.wellFormed passed has ha counted labelled

/-- **Functions are called by the protocol.** When a document is made, the functions in the
arguments of nodes, at any depth and in the graphs of other functions, are called once each and in
their order, and no others are. Each gets as many as it takes of a new builder and the callback
parameters for its argument. -/
theorem Documents.calls_followProtocol
    (hcall : ∀ depth, Calls.Operate (call (within call depth))) (h : w.workspace.Reachable)
    {b : BuilderRef} (hb : b.index < w.workspace.builders.size) {depth : Nat} {document : Value}
    (run : ((within call depth).builder b).run w = (.ok document, now)) :
    ∃ xs, Exports call w b document xs now ∧
      CallsEach w.workspace b xs ∧ (∀ x ∈ xs, CallsEach x.filled.workspace x.child xs) ∧
      (xs.Pairwise fun x y => x.child.index < y.child.index) ∧
      (∀ record, Records call record →
        record now.host = record w.host ++ xs.filterMap Lowering.recorded?) ∧
      ∀ x ∈ xs, ∀ f, x.source = .callback f → ∃ c before, x.call = some c ∧ c.function = f ∧
        w.workspace.Steps before.workspace ∧ c.FollowsProtocol call before x := by
  have wf := h.wellFormed
  obtain ⟨xs, exports⟩ := exports_within run
  have calls := exports.callsEach hcall wf hb
  obtain ⟨graph, assembled, lowers⟩ := exports
  have within := Task.within_ofNodes wf hb graph
  refine ⟨xs, ⟨graph, assembled, lowers⟩, calls, lowers.callsEach_nested hcall wf within,
    (lowers.new_children hcall wf within).2,
    fun record records => lowers.recorded hcall records wf within, fun x hx f source => ?_⟩
  obtain ⟨before, inner, last, steps, runs⟩ := lowers.runs hcall wf within x hx
  cases runs.fills with
  | formula fills =>
    rw [fills.source] at source
    cases source
  | @call g c fills =>
    have same : Value.callback g = .callback f := fills.source.symm.trans source
    injection same with same
    exact ⟨c, before, fills.call_eq, fills.function.trans same, steps,
      fills.followsProtocol runs.wellFormed runs.node⟩

end

/-! ## Functions that record their calls -/

/-- Records of calls. -/
abbrev CallRecord := List (Callback × List Value)

/-- How many arguments each function was called with. -/
def CallRecord.counts (record : CallRecord) : List (Callback × Nat) :=
  record.map fun r => (r.1, r.2.length)

/-- A function that records its call and then works on builders. -/
def recorded (body : Callback → List Value → Build Value) (_ : Documents CallRecord)
    (f : Callback) (arguments : List Value) : Run CallRecord Value := do
  Run.changeHost fun record => record ++ [(f, arguments)]
  body f arguments

section
variable {body : Callback → List Value → Build Value}

theorem records_recorded : Records (recorded body) id := by
  intro depth f arguments w v now run
  unfold recorded at run
  obtain ⟨⟨⟩, w₁, changed, run⟩ := run_bind_eq_ok run
  cases changed
  rw [Run.run_liftM, Prod.mk.injEq] at run
  obtain ⟨-, rfl⟩ := run
  rfl

theorem operate_recorded (hbody : ∀ {ws : Workspace} {f : Callback} {arguments : List Value},
      ws.WellFormed → (∀ v ∈ arguments, v.Within ws) →
      Build.Ensures ws.Steps ws (body f arguments) fun v now => v.Within now) (depth : Nat) :
    Calls.Operate (recorded body (Documents.within (recorded body) depth)) := by
  intro w f arguments wf given
  unfold recorded
  refine Run.Ensures.bind (R := fun _ now => now.workspace = w.workspace)
    ⟨.refl _, .refl _, fun _ _ => rfl⟩ fun _ now _ _ same => ?_
  rw [← same] at wf given ⊢
  exact Run.Ensures.lift (hbody wf given) fun _ => id

end

/-- Adds one to an element of the first callback parameter. -/
def addElement (_ : Callback) : List Value → Build Value
  | .builder b :: _ => do return .node (← Build.math b "$a + 1")
  | _ => throw .wrongType

theorem ensures_addElement {ws : Workspace} {f : Callback} {arguments : List Value}
    (wf : ws.WellFormed) (given : ∀ v ∈ arguments, v.Within ws) :
    Build.Ensures ws.Steps ws (addElement f arguments) fun v now => v.Within now := by
  unfold addElement
  split
  · rename_i b rest
    have hb := Value.within_builder.1 (given _ List.mem_cons_self)
    refine (Build.Ensures.operation (.refl ws) (.compile hb "$a + 1" false)
      (Build.ensures_compile (wf.extends _ _) (Workspace.open_of_within hb) "$a + 1" false
        nofun)).bind fun n now steps _ is => .pure steps (Value.within_node.2 is.1)
  · exact .throw (.refl ws)

/-- A node of a process that takes functions. -/
def Workspace.applied (spec argument : Value) : Workspace :=
  let ws := ((Build.createBuilder (.list [binaryProcess "add", binaryProcess "array_create",
    binaryProcess "array_element", spec]) .null none none []).run {}).2
  ((Build.invoke ⟨0⟩ "apply" (.list [.int 1, argument])).run ws).2

/-- A node with two functions. -/
def twoFunctions : Workspace :=
  .applied (callbackProcess "apply") (.list [.callback ⟨0, 1, false⟩, .callback ⟨1, 2, false⟩])

/-- Makes the document of the outermost builder, and records the calls. -/
def recordedRun (body : Callback → List Value → Build Value) (ws : Workspace) :
    Except Failure Value × World CallRecord :=
  ((Documents.within (recorded body) 2).builder ⟨0⟩).run ⟨ws, []⟩

/-- Two functions are called, one after the other. The first one does not take the callback
parameter, which its formula refers to all the same. -/
theorem Documents.calls_followProtocol_elements :
    ∃ (document : Value) (now : World CallRecord) (xs : List (Lowering CallRecord)),
      recordedRun addElement twoFunctions = (.ok document, now) ∧
      now.host.counts = [(⟨0, 1, false⟩, 1), (⟨1, 2, false⟩, 2)] ∧
      now.host = xs.filterMap Lowering.recorded? ∧
      CallsEach twoFunctions ⟨0⟩ xs ∧
      ∀ x ∈ xs, ∀ f, x.source = .callback f → ∃ c before, x.call = some c ∧
        c.FollowsProtocol (recorded addElement) before x := by
  have called : (recordedRun addElement twoFunctions).1.isOk ∧
      (recordedRun addElement twoFunctions).2.host.counts =
        [(⟨0, 1, false⟩, 1), (⟨1, 2, false⟩, 2)] := by decide +kernel
  have functions (ws : Workspace) : (Value.list
      [.int 1, .list [.callback ⟨0, 1, false⟩, .callback ⟨1, 2, false⟩]]).Within ws := by
    intro r hr
    simp [Value.refs, Value.refsInList] at hr
    rcases hr with rfl | rfl <;> trivial
  have reachable : twoFunctions.Reachable :=
    .operation (.operation (.refl _) (.createBuilder _ _ none none [] nofun))
      (.invoke (by decide +kernel) "apply" (functions _) .null none)
  have hb : (0 : Nat) < twoFunctions.builders.size := by decide +kernel
  unfold recordedRun at called ⊢
  generalize twoFunctions = ws at *
  rcases run : ((within (recorded addElement) 2).builder ⟨0⟩).run ⟨ws, []⟩ with ⟨e | document, now⟩
  · rw [run] at called
    cases called.1
  rw [run] at called
  obtain ⟨xs, -, each, -, -, records, follow⟩ := calls_followProtocol
    (operate_recorded ensures_addElement) (w := ⟨ws, []⟩) reachable (b := ⟨0⟩) hb run
  refine ⟨document, now, xs, rfl, called.2, records id records_recorded, each,
    fun x hx f source => ?_⟩
  obtain ⟨c, before, is, -, -, protocol⟩ := follow x hx f source
  exact ⟨c, before, is, protocol⟩

end ProcessGraph
