import ProcessGraph.Proofs.Graph.FormulaGraphs
import ProcessGraph.Proofs.Graph.RememberedBuilders
import ProcessGraph.Proofs.Graph.SimulatedDocuments

/-!
# Functions that add a formula

As an argument, a function that adds a formula to the builder that it is given is exported as the
formula itself would be (`Documents.simulates_ofCallback_ofFormula`). The two differ in what happens
on the way: for a function all callback parameters are made first, which is nothing that anyone
notices (`Comparison.Matches.provide_left`), a new formula comes into being, and what the function
has done is undone once more if it fails, which changes nothing (`Workspace.Undone.adds_rollBack`).
-/

set_option autoImplicit false

namespace ProcessGraph

/-! ## Callback parameters on one side -/

/-- A callback parameter that only the first builder has is spare. -/
theorem Comparison.Matches.provide_left {C : Comparison} {R : Matching} {A A' B : Workspace}
    (h : C.Matches R A B) {b c : BuilderRef} (hbc : R (.builder b) (.builder c)) {k : Scalar}
    {a : AccessRef} (gA : A.Provides A' b k a) (hl : C.left.Holds A')
    (missing : Dictionary.get? k (B.builder c).callbackParameters = none)
    (new : ∀ d, ¬ R (.access a) (.access d)) : C.Matches R A' B := by
  refine h.change gA.toGrows (.refl B) hl h.right (gA.catalogs.trans h.catalogs)
    (gA.callbackNames.trans h.callbackNames) (fun r s hrs hp => ?_) (fun x y hxy k' => ?_)
    fun x y hxy hp => ?_
  · exact hp.keeps (le_refl R) h.wellFormed_left h.wellFormed_right gA.toKeeps (.refl B)
      (h.within hrs)
  · have hold := h.callbackParameters hxy k'
    by_cases hk : x = b ∧ k' = k
    · obtain ⟨rfl, rfl⟩ := hk
      obtain rfl := (h.uniqueBuilder (.inl hxy) (.inl hbc)).1 rfl
      rw [missing]
      intro a' ha'
      obtain rfl := Option.some.inj (gA.found.symm.trans ha')
      exact ⟨gA.elements, new⟩
    · rw [gA.others x k' (not_and_or.1 hk)]
      cases hd : Dictionary.get? k' (B.builder y).callbackParameters with
      | some d =>
        rw [hd] at hold
        exact hold
      | none =>
        rw [hd] at hold
        intro a' ha'
        obtain ⟨elements, spare⟩ := hold a' ha'
        have hlt := ((h.wellFormed_left.builder x (h.within hxy).1).callbackParameters k' a'
          (Dictionary.mem_of_get? ha')).1
        exact ⟨by rw [gA.sameAccess a' hlt]; exact elements, spare⟩
  · rw [gA.sameBuilder _ (h.outerBuilder hxy).within.1]
    exact (h.outerBuilder hxy).parameters hp

namespace Build

section
variable {C : Comparison} {p : Stage Workspace Workspace} (h : C.building.holds p)
  {b c : BuilderRef} (hbc : p.matching (.builder b) (.builder c))
  (none : (p.right.builder c).callbackParameters = [])
include h hbc none

theorem callbackParameter_left (name : String) :
    ∃ a now, (callbackParameter b (.str name)).run p.left = (.ok a, now) ∧ p.left.Grows now ∧
      C.building.holds { p with left := now } := by
  have hb := (h.within hbc).1
  have hl := (ensures_callbackParameter h.left hb (.str name)).1
  have run := @run_callbackParameter p.left b (.str name) _ rfl
  cases ha : Dictionary.get? (.str name) (p.left.builder b).callbackParameters with
  | some a =>
    rw [ha] at run
    exact ⟨a, p.left, run, .refl _, h⟩
  | none =>
    rw [ha] at run
    rw [run] at hl
    have gA := Workspace.provides_withCallbackParameter (k := .str name) hb
    refine ⟨_, _, run, gA.toGrows, h.provide_left hbc gA hl ?_ fun d had => ?_⟩
    · rw [none]
      rfl
    · exact Nat.lt_irrefl _ (h.within had).1

theorem callbackParameterList_left (names : List String) :
    ∃ as now, (callbackParameterList b (names.map .str)).run p.left = (.ok as, now) ∧
      p.left.Grows now ∧ C.building.holds { p with left := now } := by
  induction names generalizing p with
  | nil => exact ⟨[], p.left, rfl, .refl _, h⟩
  | cons name names ih =>
    obtain ⟨a, now, run, g, h₁⟩ := callbackParameter_left h hbc none name
    obtain ⟨as, after, run', g', h₂⟩ := ih h₁ hbc none
    refine ⟨a :: as, after, ?_, g.trans g', h₂⟩
    rw [List.map_cons, callbackParameterList, run_bind_state, run]
    dsimp only
    rw [run_bind_state, run']
    rfl

/-- The parameters that a process passes to its callback can always be made if their names are
texts. -/
theorem parentParameters_left {names : List String}
    (hnames : p.left.parentNames b = .ok (names.map .str)) :
    ∃ as now, (parentParameters b).run p.left = (.ok as, now) ∧ p.left.Grows now ∧
      C.building.holds { p with left := now } := by
  obtain ⟨as, now, run, g, h₁⟩ := callbackParameterList_left h hbc none names
  refine ⟨as, now, ?_, g, h₁⟩
  rw [run_parentParameters, run_bind_state, hnames]
  exact run

end

/-! ## Formulas -/

/-- What is done for a formula as an argument. -/
def generateIn (f : FormulaRef) (b : BuilderRef) : Build Unit := do
  setFormulaBuilder f b
  let _ ← generate f true

/-- What comes of a function that adds a formula: its last node is the result. -/
def mathAsResult (b : BuilderRef) (text : String) : Build Unit := do
  let n ← math b text
  setResult n (.bool true)

/-- Whether the node is flagged before it is reported or afterwards makes no difference. -/
theorem run_generate_true (f : FormulaRef) (ws : Workspace) :
    (generate f true).run ws =
      (do let n ← generate f false; setResult n (.bool true); return n : Build NodeRef).run ws := by
  unfold generate
  rw [run_get_bind, run_bind_state, run_get_bind]
  dsimp only
  cases (ws.formula f).builder with
  | none => rfl
  | some b =>
    dsimp only
    rw [run_bind_state, run_bind_state]
    rcases (lowerToNode b (ws.formula f).text (ws.formula f).tree).run ws with ⟨e | n, now⟩
    · rfl
    · let flagged (node : Node) : Node := { node with result := .bool true }
      let report (id : String) : Log.Record :=
        .debug Log.formulaLogger ("Generated formula '" ++ (ws.formula f).text ++ "' -> " ++ id)
      have same : ((now.modifyNode n flagged).node n).id = (now.node n).id := by
        rw [Workspace.node_modifyNode]
        split <;> rfl
      show (Except.ok n, (now.modifyNode n flagged).addRecord
          (report ((now.modifyNode n flagged).node n).id)) =
        (.ok n, (now.addRecord (report (now.node n).id)).modifyNode n flagged)
      rw [same]
      rfl

theorem run_mathAsResult (b : BuilderRef) (text : String) (ws : Workspace) :
    (mathAsResult b text).run ws =
      (do let f ← createFormula text; generateIn f b : Build Unit).run ws := by
  unfold mathAsResult math compile generateIn
  simp only [run_bind_state]
  rcases (createFormula text).run ws with ⟨e | f, w₁⟩
  · rfl
  · dsimp only
    rcases (setFormulaBuilder f b).run w₁ with ⟨e | _, w₂⟩
    · rfl
    · dsimp only
      rw [run_generate_true, run_bind_state]
      rcases (generate f false).run w₂ with ⟨e | n, w₃⟩ <;> rfl

section
variable {text : String} {tree : Formula.Tree} (parsed : Formula.parse text = .ok tree)
include parsed

theorem run_createFormula (ws : Workspace) :
    (createFormula text).run ws =
      (.ok ⟨ws.formulas.size⟩, { ws with formulas := ws.formulas.push { text, tree } }) := by
  unfold createFormula
  rw [parsed]
  rfl

end

section
variable {ws now : Workspace} {b : BuilderRef} (wf : ws.WellFormed)
  (hb : b.index < ws.builders.size)
include wf hb

/-- A block that has failed is undone. -/
theorem undone_of_atomically {α : Type} {body : Build α} (g : ws.Grows (body.run ws).2)
    {e : Failure} (run : (atomically b body).run ws = (.error e, now)) : ws.Undone now b := by
  rw [run_atomically] at run
  rcases ended : body.run ws with ⟨e' | a, after⟩ <;> rw [ended] at run g <;> cases run
  exact Workspace.undone_rollBack wf g hb

/-- A formula fails while it is lowered, or not at all. -/
theorem undone_of_generate {f : FormulaRef} (hf : (ws.formula f).builder = some b)
    {asResult : Bool} {e : Failure} (run : (generate f asResult).run ws = (.error e, now)) :
    ws.Undone now b := by
  unfold generate at run
  rw [run_get_bind] at run
  dsimp only at run
  rw [hf] at run
  dsimp only at run
  rw [run_bind_state] at run
  rcases lowered : (lowerToNode b (ws.formula f).text (ws.formula f).tree).run ws with
    ⟨e' | n, after⟩
  · rw [lowered] at run
    cases run
    exact undone_of_atomically wf hb (ensures_lowerBlock (wf.extends _ _)
      (Workspace.open_of_within hb) _ _).2.1 lowered
  · rw [lowered] at run
    cases asResult <;> cases run

end

section
variable {C : Comparison} {p : Stage Workspace Workspace} (h : C.building.holds p)
  {b c : BuilderRef} (hbc : p.matching (.builder b) (.builder c))
  (new : C.left.base.builders.size ≤ b.index ∧ C.right.base.builders.size ≤ c.index)
include h hbc new

/-- Formulas with one tree do the same, wherever they have been before. -/
theorem simulates_generateIn {f g : FormulaRef} (hf : f.index < p.left.formulas.size)
    (hg : g.index < p.right.formulas.size)
    (same : (p.left.formula f).text = (p.right.formula g).text ∧
      (p.left.formula f).tree = (p.right.formula g).tree) :
    Simulates C.building p (generateIn f b) (generateIn g c) fun _ _ _ => True := by
  unfold generateIn
  refine (simulates_setFormulaBuilder h b c hf hg).bind fun q _ _ l hq ⟨eA, eB⟩ => ?_
  have same₁ : (q.left.formula f).text = (q.right.formula g).text ∧
      (q.left.formula f).tree = (q.right.formula g).tree := by
    rw [(l.2.1.formula f hf).1, (l.2.1.formula f hf).2, (l.2.2.formula g hg).1,
      (l.2.2.formula g hg).2]
    exact same
  exact (simulates_generate hq (l.1.le _ _ hbc) same₁ eA eB true fun _ => new).bind
    fun r _ _ _ hr _ => .pure hr trivial

/-- A function that adds the text of a formula does what the formula does. -/
theorem simulates_mathAsResult {g : FormulaRef} (hg : g.index < p.right.formulas.size)
    (parsed : Formula.parse (p.right.formula g).text = .ok (p.right.formula g).tree) :
    Simulates C.building p (mathAsResult b (p.right.formula g).text) (generateIn g c)
      fun _ _ _ => True := by
  let left : Workspace := { p.left with
    formulas := p.left.formulas.push
      { text := (p.right.formula g).text, tree := (p.right.formula g).tree } }
  have run : (createFormula (p.right.formula g).text).run p.left =
      (.ok ⟨p.left.formulas.size⟩, left) := run_createFormula parsed p.left
  have holds := (ensures_createFormula h.left (p.right.formula g).text).1
  rw [run] at holds
  have adds : p.left.Adds left := p.left.adds_newFormula _
  have more : C.building.holds { p with left := left } := h.adds adds (.refl _) holds h.right
  have within : p.left.formulas.size < left.formulas.size := by
    show _ < (p.left.formulas.push _).size
    simp
  have same : (left.formula ⟨p.left.formulas.size⟩).text = (p.right.formula g).text ∧
      (left.formula ⟨p.left.formulas.size⟩).tree = (p.right.formula g).tree := by
    have last : left.formula ⟨p.left.formulas.size⟩ =
      { text := (p.right.formula g).text, tree := (p.right.formula g).tree } :=
        Arena.get_push_size ..
    rw [last]
    exact ⟨rfl, rfl⟩
  have generated : Simulates C.building { p with left := left }
      (generateIn ⟨p.left.formulas.size⟩ b) (generateIn g c) fun _ _ _ => True :=
    simulates_generateIn more hbc new within hg same
  have both : Simulates C.building p (do
      let f ← createFormula (p.right.formula g).text
      generateIn f b : Build Unit) (generateIn g c) fun _ _ _ => True :=
    .bind_left run ⟨.refl _, adds.toGrows, .refl _⟩ generated
  exact both.of_run_eq (run_mathAsResult b _ p.left) rfl

end

section
variable {ws now : Workspace} {b : BuilderRef} (wf : ws.WellFormed)
  (hb : b.index < ws.builders.size) {text : String} {tree : Formula.Tree}
  (parsed : Formula.parse text = .ok tree)
include wf hb parsed

omit hb in
/-- Once its formula has been made, all that the function does is to generate it. -/
theorem run_mathAsResult_eq : ∃ (f : FormulaRef) (w₁ : Workspace), w₁.WellFormed ∧ ws.Grows w₁ ∧
    w₁.builders = ws.builders ∧ (w₁.formula f).builder = some b ∧
    (mathAsResult b text).run ws = (do let _ ← generate f true : Build Unit).run w₁ := by
  rw [run_mathAsResult, run_bind_state]
  have made := run_createFormula parsed ws
  obtain ⟨h₁, -, hf, same⟩ := (ensures_createFormula (wf.extends (fun _ => True) fun _ => True)
    text).of_run made
  rw [made]
  unfold generateIn
  obtain ⟨h₂, -, same₂⟩ := ensures_setFormulaBuilder h₁ ⟨ws.formulas.size⟩ b
  obtain ⟨builders, set⟩ := same₂ () rfl
  exact ⟨_, _, h₂.wellFormed, h₂.kept.toGrows, builders.trans same, set hf, rfl⟩

theorem undone_of_mathAsResult {e : Failure}
    (run : (mathAsResult b text).run ws = (.error e, now)) : ws.Undone now b := by
  obtain ⟨f, w₁, h₁, g₁, same, hf, made⟩ := run_mathAsResult_eq (b := b) wf parsed
  rw [made, run_bind_state] at run
  rcases generated : (generate f true).run w₁ with ⟨e' | n, after⟩ <;> rw [generated] at run <;>
    cases run
  have undone := undone_of_generate h₁ (Nat.lt_of_lt_of_le hb g₁.builders) hf generated
  have builder (c : BuilderRef) : w₁.builder c = ws.builder c := by
    unfold Workspace.builder
    rw [same]
  have root := wf.root_eq g₁ hb
  refine ⟨?_, ?_, ?_⟩
  · rw [undone.nodes, builder]
  · rw [undone.counters, builder]
  · rw [← root, undone.parameters, builder]

theorem plain_mathAsResult (plain : ws.PlainNodes b)
    (run : (mathAsResult b text).run ws = (.ok (), now)) : now.PlainNodes b := by
  obtain ⟨f, w₁, h₁, g₁, same, hf, made⟩ := run_mathAsResult_eq (b := b) wf parsed
  rw [made, run_bind_state] at run
  rcases generated : (generate f true).run w₁ with ⟨e' | n, after⟩ <;> rw [generated] at run <;>
    cases run
  refine plain_generate h₁ (Nat.lt_of_lt_of_le hb g₁.builders) (plain.of_nodes_eq wf hb g₁ ?_) hf
    generated
  unfold Workspace.builder
  rw [same]

end

end Build

namespace Run

variable {σ τ : Type} {C : Comparison} {H : HostRelation σ τ} {p : Stage (World σ) (World τ)}

/-- A block on one side makes no difference if its body undoes all when it fails. -/
theorem simulates_atomically_left {α β : Type} (h : (C.running H).holds p) {b c : BuilderRef}
    (hbc : p.matching (.builder b) (.builder c)) {body : Run σ α} {body' : Run τ β}
    {Q : Stage (World σ) (World τ) → α → β → Prop}
    (undone : ∀ e now, body.run p.left = (.error e, now) →
      p.left.workspace.Undone now.workspace b)
    (hbody : Simulates (C.running H) p body body' Q) :
    Simulates (C.running H) p (atomically b body) body' Q := by
  obtain ⟨R, ⟨le, gA, gB, later⟩, hR, o⟩ := hbody
  unfold Simulates
  rw [run_atomically]
  rcases hA : body.run p.left with ⟨e | a, A⟩ <;> rw [hA] at gA later hR o
  · rcases hB : body'.run p.right with ⟨y, B⟩
    rw [hB] at gB later hR o
    cases o
    have wf := h.1.wellFormed_left
    obtain ⟨hb, -⟩ := h.1.within hbc
    have adds := (undone e A hA).adds_rollBack wf gA hb hR.1.wellFormed_left
    have holds := h.1.left.rollBack hR.1.left gA (h.1.pair hbc).2.1
    have matched : C.building.holds
        ⟨R, p.left.workspace.rollBack b A.workspace, B.workspace⟩ :=
      hR.1.adds adds (.refl _) holds hR.1.right
    have grown := gA.trans adds.toGrows
    exact ⟨R, ⟨le, grown, gB, later⟩, ⟨matched, hR.2⟩, .error e⟩
  · exact ⟨R, ⟨le, gA, gB, later⟩, hR, o⟩

end Run

namespace Documents

/-- Documents of builders with plain nodes can be made. -/
def ReadsPlainNodes {σ : Type} (inner : BuilderRef → Run σ Value) : Prop :=
  ∀ {w : World σ} {b : BuilderRef}, w.workspace.WellFormed →
    b.index < w.workspace.builders.size → w.workspace.PlainNodes b → Run.Reads w (inner b)

section
variable {σ τ : Type} {C : Comparison} {H : HostRelation σ τ}
  {inner : BuilderRef → Run σ Value} {inner' : BuilderRef → Run τ Value}
  (hinner : SimulateBuilders C H inner inner')
  (reads : ReadsPlainNodes inner)
include hinner reads

/-- The document of a builder to which a function has added a formula. -/
theorem simulates_addedFormula {p : Stage (World σ) (World τ)} (h : (C.running H).holds p)
    {b c : BuilderRef} (hbc : p.matching (.builder b) (.builder c))
    (new : C.left.base.builders.size ≤ b.index ∧ C.right.base.builders.size ≤ c.index)
    (plain : p.left.workspace.PlainNodes b) {g : FormulaRef}
    (hg : g.index < p.right.workspace.formulas.size)
    (parsed : Formula.parse (p.right.workspace.formula g).text =
      .ok (p.right.workspace.formula g).tree) :
    Simulates (C.running H) p
      (Run.atomically b do
        Build.mathAsResult b (p.right.workspace.formula g).text
        inner b)
      (do
        Build.generateIn g c
        inner' c)
      fun _ => Eq := by
  have added := Build.simulates_mathAsResult h.1 hbc new hg parsed
  refine Run.simulates_atomically_left h hbc (fun e now run => ?_)
    ((Run.simulates_lift h added).bind fun q _ _ l hq _ => hinner hq (l.1 _ _ hbc))
  obtain ⟨R, ⟨-, grows, -⟩, hR, -⟩ := added
  have wf := h.1.wellFormed_left
  have wf' := hR.wellFormed_left
  have hb := (h.1.within hbc).1
  rw [run_bind_state, Run.run_liftM] at run
  dsimp only [Stage.workspaces] at wf' grows
  rcases hA : (Build.mathAsResult b (p.right.workspace.formula g).text).run p.left.workspace with
    ⟨e' | ⟨⟩, A⟩ <;> rw [hA] at run grows wf' <;> dsimp only at run
  · cases run
    exact Build.undone_of_mathAsResult wf hb parsed hA
  · -- The document cannot fail.
    obtain ⟨v, read⟩ := reads (w := { p.left with workspace := A }) wf'
      (Nat.lt_of_lt_of_le hb grows.builders) (Build.plain_mathAsResult wf hb parsed plain hA)
    rw [read] at run
    cases run

end

section
variable {σ : Type} {call : Callback → List Value → Run σ Value}

/-- Calls of the function add a formula to the builder that they are given, and return its last
node. -/
structure AddsFormula (call : Callback → List Value → Run σ Value) (host : σ) (f : Callback)
    (text : String) : Prop where
  takesBuilder : 0 < f.positional ∨ f.variadic = true
  run : ∀ (ws : Workspace) (b : BuilderRef) (vs : List Value),
    (call f (.builder b :: vs)).run ⟨ws, host⟩ =
      (liftM (do return .node (← Build.math b text) : Build Value) : Run σ Value).run ⟨ws, host⟩

theorem AddsFormula.accepted_eq {host : σ} {f : Callback} {text : String}
    (h : AddsFormula call host f text) (b : BuilderRef) (vs : List Value) :
    ∃ rest, f.accepted (.builder b :: vs) = .builder b :: rest := by
  unfold Callback.accepted
  split
  · exact ⟨vs, rfl⟩
  · obtain ⟨k, hk⟩ := Nat.exists_eq_add_of_le' (h.takesBuilder.resolve_right ‹_›)
    rw [hk]
    exact ⟨vs.take k, rfl⟩

/-- What the function returns is taken for the result. -/
theorem AddsFormula.run_result {w : World σ} {f : Callback} {text : String}
    (h : AddsFormula call w.host f text) (wf : w.workspace.WellFormed) {b : BuilderRef}
    (hb : b.index < w.workspace.builders.size) (vs : List Value) (argument : Scalar)
    (process : String) (inner : BuilderRef → Run σ Value) :
    (do
      let v ← call f (f.accepted (.builder b :: vs))
      let v ← wrapList b v
      let result ← resultNode b argument process v
      Build.setResult result (.bool true)
      inner b : Run σ Value).run w =
    (do
      Build.mathAsResult b text
      inner b : Run σ Value).run w := by
  obtain ⟨rest, accepted⟩ := h.accepted_eq b vs
  have contract := Build.ensures_compile (wf.extends (fun _ => True) fun _ => True)
    (Workspace.open_of_within hb) text false nofun
  rw [accepted, run_bind_state, h.run]
  rw [run_bind_state, Run.run_liftM, Run.run_liftM]
  unfold Build.mathAsResult
  rw [run_bind_state, run_bind_state]
  unfold Build.math
  rcases run : (Build.compile b text false).run w.workspace with ⟨e | n, now⟩
  · rfl
  · obtain ⟨-, -, -, own⟩ := contract.of_run run
    dsimp only
    have result : (resultNode b argument process (.node n)).run now = (.ok n, now) := by
      unfold resultNode
      dsimp only
      rw [Build.run_get_bind, if_pos own]
      rfl
    have wrapped : (wrapList b (.node n)).run now = (.ok (.node n), now) := rfl
    rw [Build.run_pure]
    dsimp only
    rw [run_bind_state, Run.run_liftM, wrapped]
    dsimp only
    rw [run_bind_state, Run.run_liftM, result]
    rfl

end

theorem run_generateIn {τ : Type} (g : FormulaRef) (c : BuilderRef)
    (inner : BuilderRef → Run τ Value) (w : World τ) :
    (do
      Build.setFormulaBuilder g c
      let _ ← Build.generate g true
      inner c : Run τ Value).run w =
    (do
      Build.generateIn g c
      inner c : Run τ Value).run w := by
  unfold Build.generateIn
  rw [run_bind_state, run_bind_state, Run.run_liftM, Run.run_liftM, run_bind_state]
  rcases (Build.setFormulaBuilder g c).run w.workspace with ⟨e | ⟨⟩, w₁⟩
  · rfl
  · dsimp only
    rw [run_bind_state, run_bind_state, Run.run_liftM]
    rcases (Build.generate g true).run w₁ with ⟨e | n, w₂⟩ <;> rfl

/-- A new builder gets the callback parameters of the argument that it is made for. -/
theorem parentNames_withChild {ws : Workspace} {n : NodeRef} (hn : n.index < ws.nodes.size)
    {argument : Scalar} (g : ws.Grows (ws.withChild n argument)) {names : List Value}
    (hnames : ws.callbackNamesOf n argument = .ok names) :
    (ws.withChild n argument).parentNames ⟨ws.builders.size⟩ =
      .ok (if argument = .null then [] else names) := by
  have same := Workspace.callbackNamesOf_eq g rfl hn argument
  unfold Workspace.parentNames
  rw [ws.builder_withChild_self]
  unfold Workspace.newChild
  cases argument with
  | null => rfl
  | _ => exact same.trans hnames

/-- What the builders are like that are made for a function and for a formula. -/
structure NewBuilders (C : Comparison) (q : Stage Workspace Workspace) (b c : BuilderRef) :
    Prop where
  related : q.matching (.builder b) (.builder c)
  new : C.left.base.builders.size ≤ b.index ∧ C.right.base.builders.size ≤ c.index
  plain : q.left.PlainNodes b
  none : (q.right.builder c).callbackParameters = []
  texts : ∃ texts : List String, q.left.parentNames b = .ok (texts.map .str)

theorem simulates_newBuilder {C : Comparison} {p : Stage Workspace Workspace}
    (h : C.building.holds p) {n m : NodeRef} (hnm : C.SameNode p.matching n m) {argument : Scalar}
    {names : List String} (hnames : p.left.callbackNamesOf n argument = .ok (names.map .str)) :
    Simulates C.building p (callbackBuilder n argument) (callbackBuilder m argument)
      (NewBuilders C) := by
  refine (Build.simulates_callbackBuilder h hnm argument).ran.mono
    fun q b c l _ ⟨⟨hbc, new⟩, ranA, ranB⟩ => ?_
  rw [run_callbackBuilder, Prod.mk.injEq, Except.ok.injEq] at ranA ranB
  obtain ⟨⟨eb, eA⟩, ec, eB⟩ := And.intro ranA ranB
  refine ⟨hbc, new, ?_, ?_, ?_⟩
  · intro e he
    rw [← eA, ← eb, Workspace.builder_withChild_self] at he
    cases he
  · rw [← eB, ← ec, Workspace.builder_withChild_self]
    rfl
  · have g := l.2.1
    rw [← eA] at g
    rw [← eA, ← eb, parentNames_withChild (h.sameNode_within hnm).1 g hnames]
    split
    · exact ⟨[], rfl⟩
    · exact ⟨names, rfl⟩

section
variable {σ τ : Type} {C : Comparison} {H : HostRelation σ τ}
  {call : Callback → List Value → Run σ Value} {inner : BuilderRef → Run σ Value}
  {inner' : BuilderRef → Run τ Value} (hinner : SimulateBuilders C H inner inner')
  (reads : ReadsPlainNodes inner)
include hinner reads

/-- A function that adds a formula is exported as the formula would be. -/
theorem simulates_ofCallback_ofFormula {p : Stage (World σ) (World τ)}
    (h : (C.running H).holds p) {n m : NodeRef} (hnm : C.SameNode p.matching n m)
    {argument : Scalar} {names : List String}
    (hnames : p.left.workspace.callbackNamesOf n argument = .ok (names.map .str))
    {f : Callback} {g : FormulaRef} (hg : g.index < p.right.workspace.formulas.size)
    (parsed : Formula.parse (p.right.workspace.formula g).text =
      .ok (p.right.workspace.formula g).tree)
    (adds : AddsFormula call p.left.host f (p.right.workspace.formula g).text) :
    Simulates (C.running H) p (ofCallback call inner n argument f)
      (ofFormula inner' m argument g) fun _ => Eq := by
  unfold ofCallback ofFormula
  refine (Run.simulates_lift h (simulates_newBuilder h.1 hnm hnames)).ran.bind
    fun q b c l hq ⟨made, ran, _⟩ => ?_
  have host : q.left.host = p.left.host := by
    rw [← (Prod.mk.inj ran).2]
  obtain ⟨text, tree⟩ := l.2.2.1.formula g hg
  rw [← text, ← tree] at parsed
  rw [← text, ← host] at adds
  have hg := Nat.lt_of_lt_of_le hg l.2.2.1.formulas
  -- The function gets callback parameters, which the formula makes when it needs them.
  obtain ⟨texts, htexts⟩ := made.texts
  obtain ⟨as, now, run, gA, hq₁⟩ := Build.parentParameters_left hq.1 made.related made.none htexts
  have hb := (hq.1.within made.related).1
  have plain := made.plain.of_extends hb ((Build.ensures_parentParameters
    (hq.1.wellFormed_left.extends (fun _ => False) fun _ => True) hb).of_run run).1
  refine .bind_left (s := { q.left with workspace := now }) (c := as) ?_
    ⟨le_refl _, gA, .refl _, H.refl _⟩ ?_
  · rw [Run.run_liftM]
    unfold Stage.workspaces at run
    rw [run]
  -- What is reported of them makes no difference.
  refine .bind_left (s := { q.left with workspace := now }) (c := now) rfl
    ((C.running H).refl _) ?_
  dsimp only
  generalize Log.Record.debug _ _ = record
  have reported := now.adds_addRecord record
  have hq₂ : (C.running H).holds { q with left := ⟨now.addRecord record, q.left.host⟩ } :=
    ⟨hq₁.adds reported (.refl _) (Build.ensures_log hq₁.left record).1 hq₁.right, hq.2⟩
  refine .bind_left (s := ⟨now.addRecord record, q.left.host⟩) (c := ()) rfl
    ⟨le_refl _, reported.toGrows, .refl _, H.refl _⟩ ?_
  have plain₂ := plain.of_nodes_eq hq₁.wellFormed_left (hq₁.within made.related).1
    reported.toGrows rfl
  refine .of_run_eq (simulates_addedFormula hinner reads hq₂ made.related made.new plain₂ hg
    parsed) ?_ ?_
  · have result := AddsFormula.run_result (w := ⟨now.addRecord record, q.left.host⟩) adds
      hq₂.1.wellFormed_left (hq₂.1.within made.related).1
    rw [Run.run_atomically, Run.run_atomically, result]
  · exact run_generateIn g c inner' q.right

end

end Documents

end ProcessGraph
