import ProcessGraph.Proofs.Client.Simulation
import ProcessGraph.Proofs.Graph.Blocks
import ProcessGraph.Proofs.Graph.LoweringMeaning

/-!
# Undone blocks go unnoticed

A block of operations on a builder that fails leaves nothing behind (`undoneBlock_unnoticed`): nodes,
counters and declared parameters are those from before, callback parameters remember registered
nodes only, and a client who goes on with what it had before the block sees what it would have seen
without it, including all documents.
-/

set_option autoImplicit false

namespace ProcessGraph.Client

/-- The objects of a workspace and the given functions, with all declarations. -/
def Scope.old (ws : Workspace) (functions : Nat → Prop) (changes : Prop) : Scope where
  known v := ∀ r ∈ v.refs, r.Known ws functions
  admits _ := True
  changes := changes

/-- The host knows all functions that the nodes of the workspace mention, and what it holds on to
exists. Whether its functions make changes is left open. -/
structure Host.Fits (host : Host) (ws : Workspace) (changes : Prop) : Prop where
  nodes : ∀ n : NodeRef, n.index < ws.nodes.size →
    ∀ f, .callback f ∈ Value.refsInEntries (ws.node n).arguments → f < host.closures.length
  closures : ∀ c ∈ host.closures, c.Respects (.old ws (· < host.closures.length) changes)
  values : ∀ v ∈ host.values, (Scope.old ws (· < host.closures.length) changes).known v

section
variable {ws : Workspace} {host host' : Host}
  (more : host.closures <+: host'.closures)
include more

/-- Everything that the host held stands for itself. -/
theorem Host.Fits.match_self {changes : Prop} (h : host.Fits ws changes) :
    host'.Match (.old ws (· < host.closures.length) changes)
      (.old ws (· < host.closures.length)) host where
  known v hv := .refl v fun r hr => ⟨rfl, hv r hr⟩
  closures f g := by
    rintro ⟨e, hf⟩
    cases e
    have hf : f < host.closures.length := hf
    refine ⟨host.closures[f], host.closures[f], ?_, List.getElem?_eq_getElem hf, rfl, ?_, ?_⟩
    · obtain ⟨rest, e⟩ := more
      rw [← e, List.getElem?_append_left hf, List.getElem?_eq_getElem hf]
    · exact (h.closures _ (List.getElem_mem hf)).body
    · exact List.forall₂_same.2 fun v hv =>
        .refl v fun r hr => ⟨rfl, (h.closures _ (List.getElem_mem hf)).captured v hv r hr⟩

/-- After an undone block a client sees what it would have seen before. -/
theorem Host.Fits.seen_eq (h : host.Fits ws True) {now : Workspace} (restores : ws.Restores now)
    (values : host'.values = host.values) (depth : Nat) {program : Program}
    (hprogram : program.Respects (.old ws (· < host.closures.length) True)) :
    ((program.run (documents depth)).run ⟨now, host'⟩).1.map Reply.seen =
      ((program.run (documents depth)).run ⟨ws, host⟩).1.map Reply.seen := by
  -- Nothing is kept of what was said about nodes and builders, so that it may be changed.
  let C := Comparison.alone now.vacant ws.vacant
  have start : (C.running (programs (.old ws (· < host.closures.length) True))).holds
      ⟨.old ws (· < host.closures.length), ⟨now, host'⟩, ⟨ws, host⟩⟩ := by
    refine ⟨restores.matches_start (now.extends_vacant restores.wellFormed _ _)
      (ws.extends_vacant restores.start _ _) h.nodes, h.match_self more, ?_⟩
    dsimp only
    rw [values]
    exact List.forall₂_same.2 fun v hv => .refl v fun r hr => ⟨rfl, h.values v hv r hr⟩
  have suits : (Scope.old ws (· < host.closures.length) True).Suits C :=
    ⟨fun _ _ => trivial, fun _ => ⟨fun _ _ => Nat.zero_le _, fun _ _ => Nat.zero_le _⟩⟩
  obtain ⟨R, -, -, o⟩ := Program.simulates suits (documents_simulate suits depth) hprogram start
  dsimp only at o
  revert o
  generalize ((program.run (documents depth)).run ⟨now, host'⟩).1 = x
  generalize ((program.run (documents depth)).run ⟨ws, host⟩).1 = y
  rintro (hxy | e)
  · exact congrArg Except.ok hxy.seen
  · rfl

end

/-- A block that fails is undone as if it had never run, and passes the failure on. Functions that
were made in the block stay, but a client that goes on with what it held before cannot tell. -/
theorem undoneBlock_unnoticed {w now : World Host} (reachable : w.workspace.Reachable)
    (fits : w.host.Fits w.workspace True) {b : BuilderRef}
    (hb : b.index < w.workspace.builders.size)
    {α : Type} {body : Run Host α} {e : Failure} (run : body.run w = (.error e, now))
    (block : w.workspace.Block b now.workspace)
    (more : w.host.closures <+: now.host.closures) :
    ∃ after : World Host, (Run.atomically b body).run w = (.error e, after) ∧
      (∀ c : BuilderRef, c.index < w.workspace.builders.size →
        (after.workspace.builder c).nodes = (w.workspace.builder c).nodes ∧
        (after.workspace.builder c).counters = (w.workspace.builder c).counters ∧
        (after.workspace.builder c).metadata = (w.workspace.builder c).metadata) ∧
      (∀ a : AccessRef, a.index < after.workspace.accesses.size →
        ∀ p ∈ (after.workspace.access a).elements,
          Dictionary.get? (after.workspace.node p.2).id
            (after.workspace.builder (after.workspace.access a).builder).nodes = some p.2) ∧
      ∀ (depth : Nat) (program : Program),
        program.Respects (.old w.workspace (· < w.host.closures.length) True) →
        ((program.run (documents depth)).run
            { after with host.values := w.host.values }).1.map Reply.seen =
          ((program.run (documents depth)).run w).1.map Reply.seen := by
  have restores := block.restores reachable.wellFormed hb
  refine ⟨{ now with workspace := w.workspace.rollBack b now.workspace }, ?_, fun c hc => ?_,
    fun a ha p hp => ?_, fun depth program hprogram => ?_⟩
  · rw [Run.run_atomically, run]
  · obtain ⟨nodes, counters, -⟩ := restores.builder c hc
    exact ⟨nodes, counters, restores.metadata_eq hc⟩
  · exact ((restores.wellFormed.access a ha).elements p.1 p.2 hp).registered
  · have more' : w.host.closures <+: { now.host with values := w.host.values }.closures := more
    exact fits.seen_eq more' restores rfl depth hprogram

/-! ## An undone sum -/

/-- Adds two numbers and then calls a process that does not exist. -/
def sumAndFailure : Run Host NodeRef := do
  let _ ← Build.invoke ⟨0⟩ "add" (.list [.int 1, .int 2])
  Build.invoke ⟨0⟩ "nothing" .null

/-- Multiplies two numbers, adds two, and reports on the document. -/
def laterProduct : Program :=
  .command (.invoke (.given (.builder ⟨0⟩)) "multiply" (.given (.list [.int 3, .int 4])) .null none)
    fun _ => .command (.math (.given (.builder ⟨0⟩)) "#multip1 + 5")
    fun _ => .document (.given (.builder ⟨0⟩)) fun
    | .ok document => .finish (.given .null) document
    | .error e => .fail e

theorem undoneBlock_unnoticed_sum :
    ∃ after : World Host,
      (Run.atomically ⟨0⟩ sumAndFailure).run ⟨.arithmetic, {}⟩ =
        (.error (.processNotFound "nothing" none), after) ∧
      ((laterProduct.run (documents 1)).run { after with host.values := [] }).1.map Reply.seen =
        ((laterProduct.run (documents 1)).run ⟨.arithmetic, {}⟩).1.map Reply.seen := by
  have fits : Host.Fits {} Workspace.arithmetic True := by
    refine ⟨fun n hn => ?_, nofun, nofun⟩
    have none : Workspace.arithmetic.nodes.size = 0 := by decide +kernel
    exact absurd (none ▸ hn) (Nat.not_lt_zero _)
  have failure : (sumAndFailure.run ⟨.arithmetic, {}⟩).1 =
      .error (.processNotFound "nothing" none) := by rfl
  have numbers : (Value.list [.int 1, .int 2]).Within .arithmetic := nofun
  have block : Workspace.arithmetic.Block ⟨0⟩
      (sumAndFailure.run ⟨.arithmetic, {}⟩).2.workspace :=
    .operation (.operation (.refl _) (.invoke "add" numbers .null none))
      (.invoke "nothing" (show Value.null.Within _ from nofun) .null none)
  have host : (sumAndFailure.run ⟨.arithmetic, {}⟩).2.host = {} := by rfl
  obtain ⟨after, run, -, -, later⟩ := undoneBlock_unnoticed Workspace.reachable_arithmetic fits
    (b := ⟨0⟩) (by decide +kernel) (Prod.ext failure rfl) block (host ▸ List.prefix_rfl)
  have known : (Scope.old Workspace.arithmetic (· < 0) True).known (.builder ⟨0⟩) := by
    intro r hr
    obtain rfl : r = .builder ⟨0⟩ := by simpa [Value.refs] using hr
    exact (by decide +kernel : 0 < Workspace.arithmetic.builders.size)
  have factors : ∀ r ∈ (Value.list [.int 3, .int 4]).refs,
      r.Known Workspace.arithmetic (· < 0) := by
    intro r hr
    simp [Value.refs, Value.refsInList] at hr
  refine ⟨after, run, later 1 laterProduct
    ⟨⟨known, factors⟩, fun _ => ⟨known, fun _ => ⟨known, ?_⟩⟩⟩⟩
  rintro (e | document)
  · trivial
  · exact (nofun : ∀ r ∈ Value.refs .null, r.Known Workspace.arithmetic _)

end ProcessGraph.Client
