import ProcessGraph.Proofs.Graph.LoweringMeaning
import ProcessGraph.Proofs.Graph.ScopedDocuments

/-!
# Documents of roots

A root is passed no callback parameters. So the names that are written for parameters into its
document are declared on it, or passed by a callback argument inside of the document, and what is
declared on it is listed in the document (`Documents.references_resolve`).
-/

set_option autoImplicit false

namespace ProcessGraph

variable {σ : Type}

/-- The entry of an object made from named fields. -/
theorem Value.entry_object {fields : List (String × Value)} {name : String} {v : Value}
    (h : Dictionary.get? name fields = some v) : (Value.object fields).entry name = .ok v := by
  induction fields with
  | nil => cases h
  | cons p fields ih =>
    by_cases hp : p.1 = name
    · have hv : p.2 = v := by simpa [Dictionary.get?, hp] using h
      simp [Value.object, Value.entry, Value.field, Value.field?, Dictionary.get?, hp, hv]
    · have hr := ih (by simpa [Dictionary.get?, hp] using h)
      simpa [Value.object, Value.entry, Value.field, Value.field?, Dictionary.get?, hp] using hr

/-- The document has a parameter of this name. -/
def Value.ListsParameter (document name : Value) : Prop :=
  ∃ parameters, document.entry "parameters" = .ok parameters ∧ parameters.Declares name

/-- Whatever is declared on a builder is listed in its document. -/
theorem Documents.listsParameter_assemble (graph : List (Scalar × Value)) {metadata : Metadata}
    {name : Value} (h : metadata.parameters.Declares name) :
    (Documents.assemble graph metadata).ListsParameter name := by
  refine ⟨metadata.parameters, Value.entry_object ?_, h⟩
  obtain ⟨items, kind, -⟩ := h
  have field : Dictionary.get? "parameters" metadata.fields = some metadata.parameters := rfl
  have other : "process_graph" ≠ "parameters" := by decide
  rw [Dictionary.get?, if_neg other]
  refine Dictionary.get?_filter field ?_
  rcases kind with e | e <;> rw [e]

/-- A root that no node has been added to. -/
structure Workspace.FreshRoot (ws : Workspace) (root : BuilderRef) : Prop where
  within : root.index < ws.builders.size
  parent : (ws.builder root).parent = none
  parentNode : (ws.builder root).parentNode = none
  nodes : (ws.builder root).nodes = []

section
variable {K : CallbackRule} {ws : Workspace} {root : BuilderRef} (h : ws.FreshRoot root)
include h

theorem Workspace.FreshRoot.scoped : ws.Scoped K root [root] := by
  refine ⟨.root h.within h.parent, fun p hp => ?_, trivial⟩
  rw [h.nodes] at hp
  cases hp

theorem Workspace.FreshRoot.bound : ws.bound [root] = [] := by
  have none_passed : ws.parentNames root = .ok [] := by
    unfold Workspace.parentNames
    rw [h.parentNode]
    rfl
  show ws.passed root ++ [] = []
  unfold Workspace.passed
  rw [none_passed]
  rfl

end

namespace Documents

variable {D : Discipline σ} {call : Documents σ → Callback → List Value → Run σ Value}
  {w now last : World σ} {root : BuilderRef}

/-- Where functions keep to a discipline, every name that is written for a parameter or a callback
parameter into the document of a root is listed in this document, or passed by an enclosing callback
argument. What has been done on the root before may have failed, and documents of it, too. -/
theorem references_resolve (governed : D.Governs call) (reachable : w.workspace.Reachable)
    (fresh : w.workspace.FreshRoot root)
    (acts : D.Acts (fun made => ∃ n, made = within call n) root root [] w now) {depth : Nat}
    {document : Value} (run : ((within call depth).builder root).run now = (.ok document, last)) :
    ∃ written, (Traced.within call depth root).run now = (.ok (document, written), last) ∧
      ∀ r ∈ written, document.ListsParameter r.name ∨ r.name ∈ r.enclosing := by
  have safe n := governed.safe n
  have before : D.Follows root [root] w now :=
    acts.follows (fun _ ⟨n, e⟩ => e ▸ (safe n).2) reachable.wellFormed fresh.scoped
  obtain ⟨after, -, made⟩ := (safe depth).1 now root root [] before.advances.wellFormed before.scope
  rw [← Traced.within_eq, map_eq_pure_bind, run_bind_state] at run
  rcases traced : (Traced.within call depth root).run now with ⟨e | ⟨v, written⟩, w'⟩
  · rw [traced] at run
    cases run
  rw [traced] at run made after
  cases run
  obtain ⟨⟨graph, e⟩, resolves⟩ := made (v, written) rfl
  refine ⟨written, rfl, fun r hr => ?_⟩
  have outside := (before.trans after).advances.passed.bound.trans fresh.bound
  rcases resolves r hr with (⟨s, hs, declared⟩ | inside) | inside
  · exact .inl (e ▸ hs ▸ listsParameter_assemble graph declared)
  · rw [outside] at inside
    cases inside
  · exact .inr inside

end Documents

/-! ## An offset -/

/-- A process with the parameters `data` and `process`; the latter is a callback that is passed `x`. -/
def callbackProcess (id : String) : Value :=
  .object [("id", .str id), ("parameters",
    .list [.object [("name", .str "data")], .object [("name", .str "process"),
      ("schema", .object [("parameters", .list [.object [("name", .str "x")]])])]])]

/-- A builder that knows a sum and a process with a callback, and a parameter. -/
def Workspace.offset : Workspace :=
  ((Build.newParameter (.named "offset")).run ((Build.createBuilder (.list [binaryProcess "add",
    callbackProcess "apply"]) .null none none []).run {}).2).2

/-- The only function adds the parameter to what it is passed. -/
def addOffset (_ : Documents Unit) (_ : Callback) : List Value → Run Unit Value
  | [.builder b, .access a] => do
    let n ← Build.invoke b "add" (.list [.access a, .parameter ⟨0⟩])
    return .node n
  | _ => throw .wrongType

def Workspace.HasOffset (ws : Workspace) : Prop :=
  0 < ws.parameters.size ∧ ws.parameter ⟨0⟩ = .named "offset"

/-- The function may be called where its parameter is there. -/
def Discipline.offset : Discipline Unit where
  later _ _ := True
  refl _ := trivial
  trans _ _ := trivial
  may ws _ _ _ := ws.HasOffset
  lasts g _ _ h := ⟨Nat.lt_of_lt_of_le h.1 g.parameters, (g.parameter ⟨0⟩ h.1).trans h.2⟩

theorem Workspace.HasOffset.usable {ws : Workspace} {K : CallbackRule} {chain : List BuilderRef}
    (h : ws.HasOffset) : (Value.parameter ⟨0⟩).Usable K ws chain := by
  intro r hr
  cases List.mem_singleton.1 hr
  exact ⟨h.1, .inl (h.2 ▸ ⟨rfl, "offset", rfl⟩)⟩

theorem governs_addOffset : Discipline.offset.Governs addOffset := by
  intro n w root b outer f names accesses wf chain may hnames has result now run
  have given {v : Value} (hv : v ∈ f.accepted (.builder b :: accesses.map .access)) :
      v = .builder b ∨ ∃ a ∈ accesses, .access a = v := by
    simpa using Callback.mem_of_mem_accepted hv
  generalize f.accepted (.builder b :: accesses.map .access) = arguments at run given
  unfold addOffset at run
  split at run
  · rename_i b' a
    obtain rfl : b' = b := by simpa using given List.mem_cons_self
    obtain ha : a ∈ accesses := by simpa using given (v := .access a) (by simp)
    obtain ⟨name, hname, is⟩ := exists_of_forall₂_of_mem has ha
    have usable : (Value.list [.access a, .parameter ⟨0⟩]).Usable (Discipline.offset.rule w.host)
        w.workspace (b' :: outer) := Value.usable_list.2 (by
      simpa using ⟨Value.usable_access.2 (is.received hnames hname), may.usable⟩)
    have act : Discipline.offset.Act (· = Documents.within addOffset n) root b' outer w _ :=
      .invoke "add" usable .null none
    rw [run_bind_state, Run.run_liftM] at run
    rcases hrun : (Build.invoke b' "add" (.list [.access a, .parameter ⟨0⟩])).run w.workspace with
      ⟨e | m, ws⟩
    all_goals
      rw [hrun] at run act
      cases run
      refine ⟨.act (.refl w) act, fun vs h => ?_⟩
      rcases h with h | h <;> cases h
  · cases run
    refine ⟨.refl w, fun vs h => ?_⟩
    rcases h with h | h <;> cases h

/-- A block that uses the parameter has been undone. -/
def Workspace.offsetUndone : Workspace :=
  let before := Workspace.offset
  before.rollBack ⟨0⟩ ((Build.invoke ⟨0⟩ "add" (.list [.int 1, .parameter ⟨0⟩])).run before).2

/-- Now it is used in a callback argument. -/
def Workspace.offsetApplied : Workspace :=
  ((Build.invoke ⟨0⟩ "apply" (.list [.int 1, .callback ⟨0, 2, false⟩])).run
    Workspace.offsetUndone).2

theorem Documents.references_resolve_offset : ∃ document written last,
    ((Documents.within addOffset 2).builder ⟨0⟩).run ⟨Workspace.offsetApplied, ()⟩ =
      (.ok document, last) ∧
    (Traced.within addOffset 2 ⟨0⟩).run ⟨Workspace.offsetApplied, ()⟩ =
      (.ok (document, written), last) ∧
    written.map (fun r => (r.name.key?, r.enclosing.map Value.key?)) =
      [(some (.str "x"), [some (.str "x")]), (some (.str "offset"), [some (.str "x")])] ∧
    ∀ r ∈ written, document.ListsParameter r.name ∨ r.name ∈ r.enclosing := by
  have reachable : Workspace.offset.Reachable :=
    .operation (.operation (.refl _) (.createBuilder _ _ none none [] nofun)) (.newParameter _)
  have offset : Workspace.offset.HasOffset := ⟨by decide +kernel, rfl⟩
  have fresh : Workspace.offset.FreshRoot ⟨0⟩ := ⟨by decide +kernel, rfl, rfl, rfl⟩
  have add : (Value.list [.int 1, .parameter ⟨0⟩]).Usable (Discipline.offset.rule ())
      Workspace.offset [⟨0⟩] := Value.usable_list.2 (by
    simpa using ⟨Value.usable_of_refs_eq_nil rfl, offset.usable⟩)
  have block : Discipline.offset.Acts (fun made => ∃ n, made = Documents.within addOffset n) ⟨0⟩
      ⟨0⟩ [] ⟨Workspace.offset, ()⟩ ⟨((Build.invoke ⟨0⟩ "add"
        (.list [.int 1, .parameter ⟨0⟩])).run Workspace.offset).2, ()⟩ :=
    .act (.refl _) (.invoke "add" add .null none)
  have undone : Discipline.offset.Acts (fun made => ∃ n, made = Documents.within addOffset n) ⟨0⟩
      ⟨0⟩ [] ⟨Workspace.offset, ()⟩ ⟨Workspace.offsetUndone, ()⟩ :=
    (Discipline.Acts.undone (.refl _) block :)
  have follows := undone.follows (fun _ ⟨n, e⟩ => e ▸ (governs_addOffset.safe n).2)
    reachable.wellFormed fresh.scoped
  have apply : (Value.list [.int 1, .callback ⟨0, 2, false⟩]).Usable (Discipline.offset.rule ())
      Workspace.offsetUndone [⟨0⟩] := Value.usable_list.2 (by
    simpa using ⟨Value.usable_of_refs_eq_nil rfl, fun r hr => by
      cases List.mem_singleton.1 hr
      exact (Discipline.offset.rule ()).lasts (f := 0) follows.advances.grows
        follows.advances.passed offset⟩)
  have acts : Discipline.offset.Acts (fun made => ∃ n, made = Documents.within addOffset n) ⟨0⟩ ⟨0⟩
      [] ⟨Workspace.offset, ()⟩ ⟨Workspace.offsetApplied, ()⟩ :=
    .act undone (.invoke "apply" apply .null none)
  have names : ((Traced.within addOffset 2 ⟨0⟩).run ⟨Workspace.offsetApplied, ()⟩).1.toOption.map
      (fun t => t.2.map fun r => (r.name.key?, r.enclosing.map Value.key?)) =
      some [(some (.str "x"), [some (.str "x")]), (some (.str "offset"), [some (.str "x")])] := by
    decide +kernel
  have made : (((Documents.within addOffset 2).builder ⟨0⟩).run
      ⟨Workspace.offsetApplied, ()⟩).1.isOk := by decide +kernel
  rcases run : ((Documents.within addOffset 2).builder ⟨0⟩).run ⟨Workspace.offsetApplied, ()⟩ with
    ⟨e | document, last⟩
  · rw [run] at made
    cases made
  · obtain ⟨written, traced, resolves⟩ :=
      references_resolve governs_addOffset reachable fresh acts run
    rw [traced] at names
    exact ⟨document, written, last, rfl, traced, Option.some.inj names, resolves⟩

end ProcessGraph
