import ProcessGraph.Proofs.Client.UndoneBlocks
import ProcessGraph.Proofs.Graph.Reachability
import ProcessGraph.Proofs.Graph.Redeclaration
import ProcessGraph.Proofs.Graph.Repetition
import ProcessGraph.Proofs.Graph.ResolvedReferences
import ProcessGraph.Proofs.Graph.SwappedArguments

/-!
# Formulas as arguments

A formula as an argument of a node, and a function that adds the text of the formula to the builder
that it is given, come to the same (`formulaArgument_same`): the node has the same document in both
cases, or fails in the same way, and the root has the same parameters afterwards. The function is a
program with a single command (`Closure.math`), which gets callback parameters that it does not use.
-/

set_option autoImplicit false

namespace ProcessGraph.Client

/-- A function that adds a formula to the builder that it is given first, and returns the last node
of it. -/
def Closure.math (captured : List Value) (text : String) : Closure where
  body count :=
    .command (.math (.got captured.length) text) fun
      | .ok _ => .finish (.got (captured.length + count)) .null
      | .error e => .fail e
  captured := captured

/-- In the place of the formula the node has a function that adds its text. -/
structure Writes (w : World Host) (n : NodeRef) (argument : Scalar) (f : Callback)
    (g : FormulaRef) : Prop where
  names : ∃ names : List String, w.workspace.callbackNamesOf n argument = .ok (names.map .str)
  takesBuilder : 0 < f.positional ∨ f.variadic = true
  closure : ∃ captured, w.host.closures[f.handle]? =
    some (.math captured (w.workspace.formula g).text)
  within : g.index < w.workspace.formulas.size
  parsed : Formula.parse (w.workspace.formula g).text = .ok (w.workspace.formula g).tree

section
variable {documents : Documents Host} {host : Host} {f : Callback} {captured : List Value}
  {text : String}

theorem run_finish {result : Operand} {report v : Value} {w : World Host}
    (h : result.eval w.host.values = .ok v) :
    ((Program.finish result report).run documents).run w = (.ok ⟨v, report⟩, w) := by
  show (do return ⟨← Build.ofExcept (result.eval w.host.values), report⟩ : Run Host Reply).run w = _
  rw [h]
  rfl

theorem run_math (text : String) {b : BuilderRef} {i : Nat} {w : World Host}
    (hi : w.host.values[i]? = some (.builder b)) :
    (attempt do (Command.math (.got i) text).run (← Run.host).values).run w =
      match (Build.math b text).run w.workspace with
      | (.ok n, now) =>
        (.ok (.ok (.str (now.node n).id)),
          ⟨now, { w.host with values := w.host.values ++ [.node n] }⟩)
      | (.error e, now) => (.ok (.error e), ⟨now, w.host⟩) := by
  have operand : (Operand.got i).builder w.host.values = .ok b := by
    simp only [Operand.builder, Operand.eval, hi]
    rfl
  have command : (Command.math (.got i) text).run w.host.values =
      (do replyNode (← Build.math b text) : Build Reply) := by
    show (do
      let b ← Build.ofExcept ((Operand.got i).builder w.host.values)
      replyNode (← Build.math b text) : Build Reply) = _
    rw [operand]
    rfl
  have run : (do (Command.math (.got i) text).run (← Run.host).values : Run Host Reply).run w =
      (liftM (do replyNode (← Build.math b text) : Build Reply) : Run Host Reply).run w := by
    rw [← command]
    rfl
  rw [Run.run_liftM, run_bind_state (Build.math b text)] at run
  rcases made : (Build.math b text).run w.workspace with ⟨e | n, now⟩ <;> rw [made] at run
  · exact run_attempt_error run
  · exact run_attempt_ok run

theorem addsFormula_math (takesBuilder : 0 < f.positional ∨ f.variadic = true)
    (hc : host.closures[f.handle]? = some (.math captured text)) :
    Documents.AddsFormula (call documents) host f text where
  takesBuilder := takesBuilder
  run ws b vs := by
    rw [run_call (w := ⟨ws, host⟩) hc]
    have builder : (captured ++ .builder b :: vs)[captured.length]? = some (.builder b) := by simp
    have ran := run_math text (w := ⟨ws, { host with values := captured ++ .builder b :: vs }⟩)
      builder
    unfold Closure.math
    dsimp only
    unfold Program.run
    rw [run_bind_state, ran, Run.run_liftM, run_bind_state]
    rcases (Build.math b text).run ws with ⟨e | n, now⟩
    · rfl
    · have result : (captured ++ .builder b :: vs ++ [.node n])[captured.length +
          (Value.builder b :: vs).length]? = some (.node n) := by simp
      have finished : ((Operand.got (captured.length + (Value.builder b :: vs).length)).eval
          (captured ++ .builder b :: vs ++ [.node n])) = .ok (.node n) := by
        simp only [Operand.eval, result]
      dsimp only
      rw [run_finish finished]
      rfl

end

/-- The nodes are calls alike, but where the second one has formulas, the first one may have
functions that add their texts. -/
structure WritesFormulas (w : World Host) (n m : NodeRef) : Prop extends w.workspace.Alike n m where
  arguments : Value.SwappedArguments (Writes w n) (w.workspace.node n).arguments
    (w.workspace.node m).arguments

section
variable {w : World Host} {n m : NodeRef}

/-- While the nodes are exported, a function is still the program that adds the text. -/
theorem Writes.simulates {S : Scope} {C : Comparison} (suits : S.Suits C)
    {R : Matching} (hnm : C.SameNode R n m) {argument : Scalar} {f : Callback} {g : FormulaRef}
    (h : Writes w n argument f g) {q : Stage (World Host) (World Host)}
    (l : (C.running (functions S)).later ⟨R, w, w⟩ q) (hq : (C.running (functions S)).holds q)
    (hn : n.index < w.workspace.nodes.size)
    (callbackNames : q.left.workspace.callbackNames = w.workspace.callbackNames) (depth : Nat) :
    Simulates (C.running (functions S)) q
      (Documents.ofCallback (call (documents (depth + 1))) (documents (depth + 1)).builder n
        argument f)
      (Documents.ofFormula (documents (depth + 1)).builder m argument g) fun _ => Eq := by
  obtain ⟨names, hnames⟩ := h.names
  obtain ⟨captured, hc⟩ := h.closure
  obtain ⟨le, gA, gB, ⟨prefixes, -⟩, -⟩ := l
  obtain ⟨text, tree⟩ := gB.formula g h.within
  have inner := documents_simulate suits (depth + 1)
  have reads : Documents.ReadsPlainNodes (documents (depth + 1)).builder :=
    fun wf hb plain => Documents.reads_ofBuilder wf hb plain
  have hnames' : q.left.workspace.callbackNamesOf n argument = .ok (names.map .str) := by
    rw [Workspace.callbackNamesOf_eq gA callbackNames hn, hnames]
  have parsed : Formula.parse (q.right.workspace.formula g).text =
      .ok (q.right.workspace.formula g).tree := by
    rw [text, tree]
    exact h.parsed
  have hc' : q.left.host.closures[f.handle]? =
      some (.math captured (q.right.workspace.formula g).text) := by
    obtain ⟨rest, e⟩ := prefixes
    rw [← e, List.getElem?_append_left (List.getElem?_eq_some_iff.1 hc).1, hc, text]
  exact Documents.simulates_ofCallback_ofFormula inner.1 reads hq (hnm.mono le) hnames'
    (Nat.lt_of_lt_of_le h.within gB.formulas) parsed (addsFormula_math h.takesBuilder hc')

/-- A node that has functions as arguments which add formulas has the same document as one that has
the formulas, or fails in the same way. The parameters of the root are the same afterwards. Other
functions do whatever clients do, apart from changes: one might describe the node that it is an
argument of, and so only one of the two. -/
theorem formulaArgument_same (reachable : w.workspace.Reachable)
    (fits : w.host.Fits w.workspace False) (h : WritesFormulas w n m) (depth : Nat) :
    (((documents (depth + 2)).node n).run w).1 = (((documents (depth + 2)).node m).run w).1 ∧
    (((documents (depth + 2)).node n).run w).2.workspace.declared
        (w.workspace.root (w.workspace.node n).builder) =
      (((documents (depth + 2)).node m).run w).2.workspace.declared
        (w.workspace.root (w.workspace.node m).builder) := by
  have wf := reachable.wellFormed
  -- Both runs start here: what is there stands for itself, and one node for the other.
  let S : Scope := .old w.workspace (· < w.host.closures.length) False
  let C := Comparison.alike w.workspace n m
  have suits : S.Suits C := ⟨fun _ _ => trivial, False.elim⟩
  have start : (C.running (functions S)).holds
      ⟨.old w.workspace (· < w.host.closures.length), w, w⟩ :=
    ⟨wf.matches_alike fits.nodes h.toAlike h.arguments.names_eq,
      fits.match_self List.prefix_rfl⟩
  have hnm : C.SameNode (.old w.workspace (· < w.host.closures.length)) n m := .inr ⟨rfl, rfl⟩
  have inner := documents_simulate suits (depth + 1)
  have exported := Documents.simulates_swappedNode inner.1 (simulates_call suits inner) hnm
    (fun l hq hs => hs.simulates suits hnm l hq h.within.1 hq.1.left.kept.callbackNames depth)
    start (.inr ⟨h.within, h.space, h.result, h.description⟩)
    (fun r hr => ⟨rfl, ((wf.node n h.within.1).arguments r hr).1.known
      fun f e => fits.nodes n h.within.1 f (e ▸ hr)⟩) h.arguments
  obtain ⟨R, ⟨le, -⟩, hR, outcome⟩ := exported
  refine ⟨outcome.eq, ?_⟩
  have root := wf.root_lt (wf.node n h.within.1).owner
  rw [← h.builder]
  have same := (hR.1.pair (le (.builder _) (.builder _) ⟨rfl, root⟩)).1.metadata
  exact congrArg Metadata.parameters same

end

/-! ## An offset that is written down -/

theorem Closure.respects_math {S : Scope} {captured : List Value} (text : String)
    (known : ∀ v ∈ captured, S.known v) : (Closure.math captured text).Respects S where
  body _ := ⟨trivial, fun seen => by cases seen <;> trivial⟩
  captured := known

/-- A builder that knows a process with a callback, and a formula for it. -/
def formulaGiven : Workspace :=
  ((Build.createFormula "$0 + offset").run ((Build.createBuilder (.list [binaryProcess "add",
    binaryProcess "array_element", callbackProcess "apply"]) .null none none []).run {}).2).2

/-- A node that applies a function. -/
def functionApplied : Workspace :=
  ((Build.invoke ⟨0⟩ "apply" (.list [.int 1, .list [.callback ⟨0, 2, false⟩]])).run formulaGiven).2

/-- Another node applies the formula, which the function adds. -/
def writtenOffset : World Host where
  workspace :=
    ((Build.invoke ⟨0⟩ "apply" (.list [.int 1, .list [.formula ⟨0⟩]])).run functionApplied).2
  host := { closures := [.math [] "$0 + offset"] }

theorem formulaArgument_same_offset :
    (((documents 2).node ⟨0⟩).run writtenOffset).1.isOk ∧
    (((documents 2).node ⟨0⟩).run writtenOffset).1 =
      (((documents 2).node ⟨1⟩).run writtenOffset).1 ∧
    (((documents 2).node ⟨0⟩).run writtenOffset).2.workspace.declared ⟨0⟩ =
      (((documents 2).node ⟨1⟩).run writtenOffset).2.workspace.declared ⟨0⟩ := by
  have given : formulaGiven.Reachable :=
    .operation (.operation (.refl _) (.createBuilder _ _ none none [] nofun)) (.createFormula _)
  have function : (Value.list [.int 1, .list [.callback ⟨0, 2, false⟩]]).Within formulaGiven := by
    intro r hr
    cases List.mem_singleton.1 hr
    trivial
  have applied : functionApplied.Reachable :=
    .operation given (.invoke (by decide +kernel) "apply" function .null none)
  have formula : (Value.list [.int 1, .list [.formula ⟨0⟩]]).Within functionApplied := by
    intro r hr
    cases List.mem_singleton.1 hr
    exact (by decide +kernel : 0 < functionApplied.formulas.size)
  have reachable : writtenOffset.workspace.Reachable :=
    .operation applied (.invoke (by decide +kernel) "apply" formula .null none)
  have first : (writtenOffset.workspace.node ⟨0⟩).arguments =
      [(.str "data", .int 1), (.str "process", .list [.callback ⟨0, 2, false⟩])] := by rfl
  have second : (writtenOffset.workspace.node ⟨1⟩).arguments =
      [(.str "data", .int 1), (.str "process", .list [.formula ⟨0⟩])] := by rfl
  have size : writtenOffset.workspace.nodes.size = 2 := by decide +kernel
  have fits : writtenOffset.host.Fits writtenOffset.workspace False := by
    refine ⟨fun n hn f hf => ?_, fun c hc => ?_, nofun⟩
    · obtain ⟨i⟩ := n
      rw [size] at hn
      match i, hn with
      | 0, _ =>
        rw [first] at hf
        cases List.mem_singleton.1 hf
        exact Nat.zero_lt_one
      | 1, _ =>
        rw [second] at hf
        cases List.mem_singleton.1 hf
    · cases List.mem_singleton.1 hc
      exact Closure.respects_math _ nofun
  have writes : Writes writtenOffset ⟨0⟩ (.str "process") ⟨0, 2, false⟩ ⟨0⟩ :=
    ⟨⟨["x"], by rfl⟩, .inl (by decide), ⟨[], by rfl⟩, by decide +kernel, by rfl⟩
  have alike : WritesFormulas writtenOffset ⟨0⟩ ⟨1⟩ := by
    refine ⟨⟨⟨by decide +kernel, by decide +kernel⟩, ?_, ?_, ?_, ?_, ?_, ?_⟩, ?_⟩
    iterate 6 rfl
    rw [first, second]
    exact .cons ⟨rfl, .same _⟩ (.cons ⟨rfl, .list (.cons (.swap writes) .nil)⟩ .nil)
  have root : writtenOffset.workspace.root (writtenOffset.workspace.node ⟨0⟩).builder = ⟨0⟩ ∧
      writtenOffset.workspace.root (writtenOffset.workspace.node ⟨1⟩).builder = ⟨0⟩ := by
    decide +kernel
  have agree := formulaArgument_same reachable fits alike 0
  rw [root.1, root.2, Nat.zero_add] at agree
  exact ⟨by decide +kernel, agree⟩

end ProcessGraph.Client
