import ProcessGraph.Proofs.Client.Simulation
import ProcessGraph.Proofs.Graph.LoweringMeaning
import ProcessGraph.Proofs.Graph.Reachability
import ProcessGraph.Proofs.Graph.Repetition

/-!
# Documents that are made twice

Making a document declares parameters and leaves builders of callbacks behind, but making it again
gives the same document (`repeatedDocument_same`), and no builder that was there gets nodes or
counters. Both runs of the functions are compared (`simulates_repeated`), first with themselves, which
says what they declare, and then with each other.
-/

set_option autoImplicit false

namespace ProcessGraph.Client

/-- What functions may have captured, and the declarations that they may make. -/
def Scope.inert (ws : Workspace) (functions : Nat → Prop) : Scope where
  known v := ∀ r ∈ v.refs, r.Inert ws functions
  admits := WellNamed
  changes := True

/-- The nodes of the builder have no builders as arguments. The functions that they have as
arguments, and those that these have captured, work on what is passed to them. -/
structure SelfContained (w : World Host) (b : BuilderRef) (functions : Nat → Prop) : Prop where
  arguments : ∀ p ∈ (w.workspace.builder b).nodes,
    ∀ r ∈ Value.refsInEntries (w.workspace.node p.2).arguments, r.Exported functions
  closures : ∀ f, functions f → ∃ c, w.host.closures[f]? = some c ∧
    c.Respects (.inert w.workspace functions)

section
variable {w w' : World Host} {b : BuilderRef} {functions : Nat → Prop}

/-- The functions are the same the second time. -/
theorem SelfContained.match_host (h : SelfContained w b functions)
    (more : w.host.closures <+: w'.host.closures) :
    w.host.Match (.inert w.workspace functions) (.inert w.workspace functions) w'.host where
  known v hv := .refl v fun r hr => ⟨rfl, hv r hr⟩
  closures f g := by
    rintro ⟨e, hf⟩
    cases e
    obtain ⟨c, hc, respects⟩ := h.closures f hf
    obtain ⟨rest, e⟩ := more
    refine ⟨c, c, hc, ?_, rfl, respects.body, ?_⟩
    · rw [← e, List.getElem?_append_left (List.getElem?_eq_some_iff.1 hc).1, hc]
    · exact List.forall₂_same.2 fun v hv => .refl v fun r hr => ⟨rfl, respects.captured v hv r hr⟩

/-- The nodes are exported in the same way both times. -/
theorem SelfContained.simulates_repeated (h : SelfContained w b functions)
    (hb : b.index < w.workspace.builders.size) (made : w.workspace.Declares w'.workspace b)
    (alike : RefuseAlike (w.workspace.declared (w.workspace.root b))
      (w'.workspace.declared (w.workspace.root b)))
    (more : w.host.closures <+: w'.host.closures) (depth : Nat) :
    Simulates ((Comparison.repeated w.workspace w'.workspace b).running
        (Client.functions (.inert w.workspace functions)))
      ⟨.inert w.workspace functions, w, w'⟩
      (Documents.ofNodes (call (documents depth)) (documents depth).builder
        (w.workspace.builder b).nodes)
      (Documents.ofNodes (call (documents depth)) (documents depth).builder
        (w'.workspace.builder b).nodes) fun _ => Eq := by
  have suits : (Scope.inert w.workspace functions).Suits
      (Comparison.repeated w.workspace w'.workspace b) :=
    ⟨fun _ => id, fun _ => ⟨fun _ => False.elim, fun _ => False.elim⟩⟩
  have inner := documents_simulate suits depth
  have start : ((Comparison.repeated w.workspace w'.workspace b).running
      (Client.functions (.inert w.workspace functions))).holds
      ⟨.inert w.workspace functions, w, w'⟩ :=
    ⟨made.matches_repeated hb alike, h.match_host more⟩
  exact Documents.simulates_ofNodes inner.1 (simulates_call suits inner) start
    (made.exports_nodes hb h.arguments)

/-- What comes of the nodes the second time: the same, and on the root the same declarations. -/
theorem SelfContained.run_again (h : SelfContained w b functions) (wf : w.workspace.WellFormed)
    (hb : b.index < w.workspace.builders.size) (made : w.workspace.Declares w'.workspace b)
    (alike : RefuseAlike (w.workspace.declared (w.workspace.root b))
      (w'.workspace.declared (w.workspace.root b)))
    (more : w.host.closures <+: w'.host.closures) {depth : Nat} {graph : List (Scalar × Value)}
    {now : World Host} (run : (Documents.ofNodes (call (documents depth)) (documents depth).builder
      (w.workspace.builder b).nodes).run w = (.ok graph, now)) :
    ∃ now', (Documents.ofNodes (call (documents depth)) (documents depth).builder
        (w'.workspace.builder b).nodes).run w' = (.ok graph, now') ∧
      w.workspace.Declares now.workspace b ∧ w'.workspace.Declares now'.workspace b ∧
      w.workspace.DeclareBoth w'.workspace (w.workspace.root b)
        (now.workspace.declared (w.workspace.root b))
        (now'.workspace.declared (w.workspace.root b)) ∧
      w.host.closures <+: now.host.closures := by
  have hroot := wf.root_lt hb
  obtain ⟨R, ⟨-, g, -, ⟨prefixes, -⟩, -⟩, ⟨holds, -⟩, outcome⟩ :=
    h.simulates_repeated hb made alike more depth
  rcases hrun : (Documents.ofNodes (call (documents depth)) (documents depth).builder
    (w'.workspace.builder b).nodes).run w' with ⟨x, now'⟩
  simp only [run, hrun] at g prefixes holds outcome
  cases outcome with
  | ok same =>
    subst same
    have top : (now.workspace.builder (w.workspace.root b)).parent = none := by
      rw [(g.builder _ hroot).1]
      exact wf.parent_root hb
    exact ⟨now', rfl, holds.left, holds.right,
      (holds.outerBuilder ⟨rfl, hroot⟩).parameters top, prefixes⟩

end

/-- A document that has been made can be made again, and is the same. Neither time changes the
nodes of any builder that was there, their flags or the counters. -/
theorem repeatedDocument_same {w w₁ : World Host} (reachable : w.workspace.Reachable)
    {b : BuilderRef} (hb : b.index < w.workspace.builders.size) {functions : Nat → Prop}
    (contained : SelfContained w b functions) {depth : Nat} {document : Value}
    (run : ((documents depth).builder b).run w = (.ok document, w₁)) :
    ∃ w₂, ((documents depth).builder b).run w₁ = (.ok document, w₂) ∧
      w.workspace.Unchanged w₁.workspace ∧ w₁.workspace.Unchanged w₂.workspace := by
  have wf := reachable.wellFormed
  cases depth with
  | zero => cases run
  | succ depth =>
    have run_document (w : World Host) : ((documents (depth + 1)).builder b).run w = _ :=
      Documents.run_ofBuilder (call (documents depth)) (documents depth).builder b w
    rw [run_document] at run
    rcases first : (Documents.ofNodes (call (documents depth)) (documents depth).builder
      (w.workspace.builder b).nodes).run w with ⟨e | graph, now⟩
    · rw [first] at run
      cases run
    rw [first] at run
    cases run
    -- Compared with itself, the first run shows what it declares.
    obtain ⟨-, -, made, -, ⟨⟨ds, hds, hp, -⟩, -⟩, more⟩ :=
      contained.run_again wf hb (wf.extends _ _) (.refl _) List.prefix_rfl first
    have alike := declareEach_refuses hds hp
    obtain ⟨now', second, -, made', ⟨⟨ds', hds', hp', hq'⟩, -⟩, -⟩ :=
      contained.run_again wf hb made alike more first
    have metadata : (now'.workspace.builder b).metadata = (w₁.workspace.builder b).metadata := by
      refine made'.metadata_eq (Nat.lt_of_lt_of_le hb made.kept.builders) ?_
      rw [wf.root_eq made.kept.toGrows hb]
      exact Except.ok.inj (hq'.symm.trans (declareEach_idempotent hds' hp'))
    refine ⟨now', ?_, made.unchanged, made'.unchanged⟩
    rw [run_document, second, ← metadata]

/-! ## An offset -/

/-- Adds what the function has captured to what it is given. -/
def addOffset : Program :=
  .command (.list [.got 2, .got 0]) fun _ =>
    .command (.invoke (.got 1) "add" (.got 3) .null none) fun _ => .finish (.got 4) .null

/-- A node that applies such a function, which has captured a parameter. -/
def offset : World Host where
  workspace :=
    let ws := ((Build.createBuilder (.list [binaryProcess "add", binaryProcess "apply"]) .null none
      none []).run {}).2
    let ws := ((Build.newParameter (.named "offset")).run ws).2
    ((Build.invoke ⟨0⟩ "apply" (.list [.int 1, .callback ⟨0, 2, false⟩])).run ws).2
  host := { closures := [⟨fun _ => addOffset, [.parameter ⟨0⟩]⟩] }

theorem repeatedDocument_same_offset :
    ∃ document w₁ w₂, ((documents 2).builder ⟨0⟩).run offset = (.ok document, w₁) ∧
      ((documents 2).builder ⟨0⟩).run w₁ = (.ok document, w₂) ∧
      (w₁.workspace.builder ⟨0⟩).nodes = [("apply1", ⟨0⟩)] ∧
      w₁.workspace.Unchanged w₂.workspace := by
  have reachable : offset.workspace.Reachable :=
    .operation (.operation (.operation (.refl _) (.createBuilder _ _ none none [] nofun))
      (.newParameter _)) (.invoke (by decide +kernel) "apply" (by
        intro r hr
        obtain rfl : r = .callback 0 := by simpa [Value.refs, Value.refsInList] using hr
        trivial) .null none)
  have nodes : (offset.workspace.builder ⟨0⟩).nodes = [("apply1", ⟨0⟩)] := by decide +kernel
  have arguments : (offset.workspace.node ⟨0⟩).arguments =
      [(.str "x", .int 1), (.str "y", .callback ⟨0, 2, false⟩)] := by rfl
  have contained : SelfContained offset ⟨0⟩ (· = 0) := by
    refine ⟨fun p hp r hr => ?_, fun f hf => ?_⟩
    · rw [nodes] at hp
      cases List.mem_singleton.1 hp
      rw [arguments] at hr
      obtain rfl : r = .callback 0 := by simpa [Value.refsInEntries, Value.refs] using hr
      rfl
    · subst hf
      refine ⟨_, rfl, fun n => ⟨fun o ho => ?_, fun _ => ⟨⟨trivial, trivial⟩, fun _ => trivial⟩⟩,
        fun v hv r hr => ?_⟩
      · rcases List.mem_cons.1 ho with rfl | ho
        · trivial
        · cases List.mem_singleton.1 ho
          trivial
      · cases List.mem_singleton.1 hv
        cases List.mem_singleton.1 hr
        exact ⟨by decide +kernel, fun _ => Parameter.wellNamed_declaration _ (.inr ⟨_, rfl⟩)⟩
  have done : (((documents 2).builder ⟨0⟩).run offset).1.isOk := by decide +kernel
  rcases run : ((documents 2).builder ⟨0⟩).run offset with ⟨e | document, w₁⟩
  · rw [run] at done
    cases done
  · have hb : (⟨0⟩ : BuilderRef).index < offset.workspace.builders.size := by decide +kernel
    obtain ⟨w₂, again, first, second⟩ := repeatedDocument_same reachable hb contained run
    exact ⟨document, w₁, w₂, rfl, again, (first.builder ⟨0⟩ hb).1.trans nodes, second⟩

end ProcessGraph.Client
