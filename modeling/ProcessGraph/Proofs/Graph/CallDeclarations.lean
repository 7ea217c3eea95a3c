import ProcessGraph.Proofs.Graph.DeclarationLookup
import ProcessGraph.Proofs.Graph.LoweringMeaning
import ProcessGraph.Proofs.Graph.SimulatedParameters

/-!
# What calls declare

A call declares the parameters that are found from its arguments, also through the arguments of
other nodes (`Workspace.Reaches`), each time anew. So the parameters of the root after a call are
those from before, with these declarations made one after the other (`redeclares_call`). Names of
callback parameters of the builder are left out (`Workspace.declares`).
-/

set_option autoImplicit false

namespace ProcessGraph

/-! ## Declarations on the root -/

namespace Workspace

/-- Is the name that of a callback parameter of the builder? -/
def passes (ws : Workspace) (b : BuilderRef) (name : Value) : Bool :=
  (ws.passed b).any (·.same name)

/-- Is the parameter declared when it is used in the builder? -/
def declares (ws : Workspace) (b : BuilderRef) (p : Parameter) : Bool :=
  p.isDeclarable && !ws.passes b p.name

/-- The parameters that a call with the arguments declares, in their order: those that are found. -/
def reached (ws : Workspace) (b : BuilderRef) (arguments : Value.Entries) : List Parameter :=
  ((ws.discover arguments).map ws.parameter).filter (ws.declares b)

theorem WellFormed.reaches_of_mem_reached {ws : Workspace} (h : ws.WellFormed) {b : BuilderRef}
    {arguments : Value.Entries}
    (older : ∀ r ∈ Value.refsInEntries arguments, r.Below ⟨ws.nodes.size⟩) {p : Parameter}
    (hp : p ∈ ws.reached b arguments) :
    ws.declares b p ∧ ∃ x ∈ Value.refsInEntries arguments, ∃ r, ws.Reaches x r ∧
      p = ws.parameter r := by
  obtain ⟨hp, declares⟩ := List.mem_filter.1 hp
  obtain ⟨r, hr, rfl⟩ := List.mem_map.1 hp
  obtain ⟨x, hx, reached⟩ := (h.mem_discover_iff older).1 hr
  exact ⟨declares, x, hx, r, reached, rfl⟩

/-- The parameters of a builder are those from before, after parameters have been declared one after
the other. -/
def Redeclares (root : BuilderRef) (ps : List Parameter) (ws now : Workspace) : Prop :=
  declareEach (ps.map Parameter.declaration) (ws.builder root).metadata.parameters =
    .ok (now.builder root).metadata.parameters

section
variable {ws now after : Workspace} {root b : BuilderRef} {ps qs : List Parameter}

theorem Redeclares.of_eq
    (same : (now.builder root).metadata.parameters = (ws.builder root).metadata.parameters) :
    Redeclares root [] ws now := congrArg Except.ok same.symm

theorem Redeclares.trans (h : Redeclares root ps ws now) (h' : Redeclares root qs now after) :
    Redeclares root (ps ++ qs) ws after := by
  unfold Redeclares declareEach at *
  rw [List.map_append, List.foldlM_append, h]
  exact h'

theorem passes_congr (same : now.parentNames b = ws.parentNames b) :
    now.passes b = ws.passes b := by
  unfold passes passed
  rw [same]

theorem declares_congr (same : now.parentNames b = ws.parentNames b) :
    now.declares b = ws.declares b := by
  unfold declares
  rw [passes_congr same]

/-- The parameters that are looked up are those that the builder is passed. -/
theorem any_isCallbackParameter {names : List Value} {as : List AccessRef}
    (has : List.Forall₂ (now.IsCallbackParameter b) names as) (name : Value) :
    (as.any fun a => (now.accessParameter a).name.same name) = names.any (·.same name) := by
  induction has with
  | nil => rfl
  | cons is _ ih =>
    rw [List.any_cons, List.any_cons, ih, is.parameter]
    rfl

end

/-- The parameters of a builder that are set. -/
theorem parameters_setParameters {ws : Workspace} {b : BuilderRef} (hb : b.index < ws.builders.size)
    (parameters : Value) :
    ((ws.modifyBuilder b fun builder =>
      { builder with metadata.parameters := parameters }).builder b).metadata.parameters =
      parameters := by
  rw [builder_modifyBuilder, if_pos ⟨rfl, hb⟩]

end Workspace

section
variable {ws now : Workspace} {b : BuilderRef} (h : ws.WellFormed)
  (hb : b.index < ws.builders.size)
include h hb

/-- Steps that leave the parameters of all builders alone. -/
theorem Workspace.Extends.redeclares {S : BuilderRef → Prop}
    (ext : ws.Extends S (fun _ => False) now) : Workspace.Redeclares (ws.root b) [] ws now :=
  .of_eq ((ext.kept.content _ (h.root_lt hb)).parameters.resolve_left id)

/-- A declaration is merged into those of its target, unless a callback parameter has its name. -/
theorem declares_addParameter {d : Value.Entries} {onRoot : Bool} {target : BuilderRef}
    (is : target = if onRoot then ws.root b else b)
    (run : (Build.addParameter b d onRoot).run ws = (.ok (), now)) :
    declareEach (if ws.passes b (Value.field "name" d) then [] else [d])
      (ws.builder target).metadata.parameters = .ok (now.builder target).metadata.parameters := by
  have inside : target.index < ws.builders.size := by
    rw [is]
    split
    · exact h.root_lt hb
    · exact hb
  unfold Build.addParameter at run
  obtain ⟨as, w₁, looked, rest⟩ := run_bind_eq_ok run
  obtain ⟨ext, g, -, names, hnames, has⟩ := (Build.ensures_parentParameters
    (h.extends (fun _ => False) fun _ => False) hb).of_run looked
  have same := (ext.kept.content target inside).parameters.resolve_left id
  obtain ⟨known, w₂, asked, step⟩ := run_bind_eq_ok rest
  have hknown : w₂ = w₁ ∧ known = ws.passes b (Value.field "name" d) := by
    cases asked
    refine ⟨rfl, ?_⟩
    rw [Workspace.any_isCallbackParameter has]
    unfold Workspace.passes Workspace.passed
    rw [hnames]
    rfl
  obtain ⟨rfl, rfl⟩ := hknown
  rw [← same]
  cases shadowed : ws.passes b (Value.field "name" d) with
  | true =>
    rw [shadowed, if_pos rfl] at step
    cases step
    rfl
  | false =>
    rw [shadowed, if_neg Bool.false_ne_true, Build.run_get_bind, h.root_eq g hb, ← is] at step
    obtain ⟨⟨parameters, isNew⟩, w₃, made, changed⟩ := run_bind_eq_ok step
    rw [Build.run_ofExcept, Prod.mk.injEq] at made
    obtain ⟨made, rfl⟩ := made
    have result : (now.builder target).metadata.parameters = parameters := by
      have updated := Workspace.parameters_setParameters
        (Nat.lt_of_lt_of_le inside g.builders) parameters
      dsimp only at changed
      cases isNew <;> cases changed <;> exact updated
    rw [if_neg Bool.false_ne_true, declareEach_cons, declare, made, result]
    rfl

theorem redeclares_addParameter {p : Parameter}
    (run : (Build.addParameter b p.declaration).run ws = (.ok (), now)) :
    Workspace.Redeclares (ws.root b) (if ws.passes b p.name then [] else [p]) ws now := by
  have declared := declares_addParameter h hb (if_pos rfl).symm run
  have name : Value.field "name" p.declaration = p.name := rfl
  rw [name] at declared
  cases shadowed : ws.passes b p.name <;> rw [shadowed] at declared <;> exact declared

omit hb in
/-- Of a list of parameters those are declared that are to be declared, in their order. -/
theorem redeclares_declareAll {rs : List ParameterRef} (hb : b.index < ws.builders.size)
    (hrs : ∀ r ∈ rs, r.index < ws.parameters.size)
    (run : (Build.declareAll b rs).run ws = (.ok (), now)) :
    Workspace.Redeclares (ws.root b) ((rs.map ws.parameter).filter (ws.declares b)) ws now := by
  induction rs generalizing ws with
  | nil =>
    cases run
    exact .of_eq rfl
  | cons r rs ih =>
    have hr := hrs r List.mem_cons_self
    have hrs := fun r hr => hrs r (List.mem_cons_of_mem _ hr)
    unfold Build.declareAll at run
    rw [Build.run_get_bind] at run
    dsimp only at run
    rw [List.map_cons]
    cases declarable : (ws.parameter r).isDeclarable with
    | false =>
      rw [declarable, if_neg Bool.false_ne_true] at run
      rw [List.filter_cons_of_neg (by simp [Workspace.declares, declarable])]
      exact ih h hb hrs run
    | true =>
      rw [declarable, if_pos rfl] at run
      obtain ⟨⟨⟩, w₁, declared, rest⟩ := run_bind_eq_ok run
      obtain ⟨ext, g, -⟩ := (Build.ensures_addParameter (h.extends (fun _ => True) fun _ => True) hb
        _ true (.inl trivial)).of_run declared
      have first := redeclares_addParameter h hb declared
      have others := ih ext.wellFormed (Nat.lt_of_lt_of_le hb g.builders)
        (fun r hr => Nat.lt_of_lt_of_le (hrs r hr) g.parameters) rest
      have same : rs.map w₁.parameter = rs.map ws.parameter :=
        List.map_congr_left fun r hr => g.parameter r (hrs r hr)
      rw [h.root_eq g hb, same, Workspace.declares_congr (ext.kept.parentNames h hb)] at others
      have both := first.trans others
      cases shadowed : ws.passes b (ws.parameter r).name with
      | true =>
        rw [shadowed, if_pos rfl, List.nil_append] at both
        rwa [List.filter_cons_of_neg (by simp [Workspace.declares, shadowed])]
      | false =>
        rw [shadowed, if_neg Bool.false_ne_true, List.singleton_append] at both
        rwa [List.filter_cons_of_pos (by simp [Workspace.declares, declarable, shadowed])]

/-- Making a node declares the parameters that its arguments reach. -/
theorem redeclares_makeNode {process : String} {arguments description : Value}
    {space : Option String} {n : NodeRef} (hv : arguments.Within ws)
    (run : (Build.makeNode b process arguments description space).run ws = (.ok n, now)) :
    Workspace.Redeclares (ws.root b) (ws.reached b (now.node n).arguments) ws now := by
  obtain ⟨spec, entries, id, w₁, w₂, -, bound, numbered, declared, made⟩ := Build.makeNode_eq_ok run
  obtain ⟨ext, g, sameNodes, -⟩ := (Build.ensures_generateId (h.extends (fun _ => True)
    fun _ => True) (Workspace.open_of_within hb) process).of_run numbered
  have same : Workspace.Redeclares (ws.root b) [] ws w₁ := by
    cases numbered
    refine .of_eq ?_
    show ((ws.modifyBuilder b _).builder _).metadata.parameters = _
    rw [Workspace.builder_modifyBuilder]
    split <;> rfl
  have found {r : ParameterRef} (hr : r ∈ ws.discover entries) : r.index < ws.parameters.size := by
    have inside := hv.entries bound
    obtain ⟨x, hx, reached⟩ := (h.mem_discover_iff fun x hx => (inside x hx).2).1 hr
    exact reached.within h (inside x hx).1
  rw [Workspace.discover_congr sameNodes.nodes] at declared
  have all := redeclares_declareAll ext.wellFormed (Nat.lt_of_lt_of_le hb g.builders)
    (fun r hr => Nat.lt_of_lt_of_le (found hr) g.parameters) declared
  have parameters :
      (ws.discover entries).map w₁.parameter = (ws.discover entries).map ws.parameter :=
    List.map_congr_left fun r hr => g.parameter r (found hr)
  rw [h.root_eq g hb, parameters, Workspace.declares_congr (ext.kept.parentNames h hb)] at all
  have bound : (now.node n).arguments = entries := by
    cases made
    exact congrArg Node.arguments (Arena.get_push_size ..)
  have last : Workspace.Redeclares (ws.root b) [] w₂ now := .of_eq (by cases made; rfl)
  rw [bound]
  unfold Workspace.reached
  simpa only [List.nil_append, List.append_nil] using same.trans (all.trans last)

/-- So does a call. -/
theorem redeclares_call {process : String} {arguments description : Value} {space : Option String}
    {n : NodeRef} (hv : arguments.Within ws)
    (run : (Build.invoke b process arguments description space).run ws = (.ok n, now)) :
    Workspace.Redeclares (ws.root b) (ws.reached b (now.node n).arguments) ws now := by
  obtain ⟨made, r, hmade, rfl⟩ := Build.invoke_eq_makeNode run
  have declared := redeclares_makeNode h hb hv hmade
  have registered : Workspace.Redeclares (ws.root b) [] made
      ((made.modifyBuilder b fun builder => { builder with
        nodes := Dictionary.insert (made.node n).id n builder.nodes }).addRecord r) := by
    refine .of_eq ?_
    show ((made.modifyBuilder b _).builder _).metadata.parameters = _
    rw [Workspace.builder_modifyBuilder]
    split <;> rfl
  exact List.append_nil (ws.reached b _) ▸ declared.trans registered

/-- A call declares nothing but parameters that its arguments reach. -/
theorem redeclares_invoke {process : String} {arguments : Value} {n : NodeRef}
    (hv : arguments.Within ws) (run : (Build.invoke b process arguments).run ws = (.ok n, now)) :
    ∃ ps, Workspace.Redeclares (ws.root b) ps ws now ∧ ∀ p ∈ ps, ws.declares b p ∧
      ∃ x ∈ arguments.refs, ∃ r, ws.Reaches x r ∧ p = ws.parameter r := by
  refine ⟨_, redeclares_call h hb hv run, fun p hp => ?_⟩
  obtain ⟨-, is⟩ := invoke_eq_ok h hb hv run
  obtain ⟨declares, x, hx, r, reached⟩ :=
    h.reaches_of_mem_reached (fun x hx => (hv.entries is.arguments x hx).2) hp
  exact ⟨declares, x, Specification.refs_of_bindArguments is.arguments x hx, r, reached⟩

end

end ProcessGraph
