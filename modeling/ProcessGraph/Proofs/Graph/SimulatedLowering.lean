import ProcessGraph.Proofs.Graph.SimulatedCalls
import ProcessGraph.Proofs.Graph.SimulatedRollBack

/-!
# Simulation of lowering

Trees that are lowered in related builders give related values (`simulates_lower`), and formulas
generate related nodes in them (`simulates_generate`, `simulates_compile`). Only nodes that neither
side began with may become results.
-/

set_option autoImplicit false

namespace ProcessGraph

/-! ## Identifiers -/

/-- Related operands give related arguments. -/
theorem operatorArguments_related {R : Matching} (op : String) (spec : Specification)
    {x y x' y' : Value} (hx : Value.Related R x x') (hy : Value.Related R y y') :
    Outcome (Dictionary.Match (Value.Related R)) (operatorArguments op spec x y)
      (operatorArguments op spec x' y') := by
  unfold operatorArguments
  split
  · refine Outcome.bind (Q := Eq) (.refl fun _ _ => rfl) fun name _ e => ?_
    subst e
    refine Outcome.bind (Q := Eq) (.refl fun _ _ => rfl) fun name' _ e => ?_
    subst e
    split
    · exact .ok (Dictionary.Match.cons _ hx (.cons _ hy .nil)).spellAlike.ofEntries
    · exact .error _
  · exact .error _

namespace Build

section
variable {C : Comparison} {p : Stage Workspace Workspace} (h : C.building.holds p)
  {b c : BuilderRef} (hbc : p.matching (.builder b) (.builder c))
include h hbc

theorem simulates_accessesFor (name : String) :
    Simulates C.building p (accessesFor b name) (accessesFor c name)
      fun q as ds => List.Forall₂ (fun a d => q.matching (.access a) (.access d)) as ds := by
  unfold accessesFor
  exact .ite Iff.rfl (fun _ => simulates_parentParameters h hbc) fun _ => .pure h .nil

theorem simulates_resolveWith (name : String) {as ds : List AccessRef}
    (had : List.Forall₂ (fun a d => p.matching (.access a) (.access d)) as ds) :
    Simulates C.building p (resolveWith b name as) (resolveWith c name ds)
      fun q v w => Value.Related q.matching v w := by
  unfold resolveWith
  rw [had.length_eq]
  split
  · rename_i v hv
    exact .pure h (.of_refs_eq_nil (Value.refs_of_literals (Reference.ofName_eq_literal hv)))
  · rename_i id _
    refine .get_bind ?_
    rcases (h.pair hbc).1.nodes.get? id with ⟨eA, eB⟩ | ⟨n, m, eA, eB, hnm⟩
    · rw [eA, eB]
      exact .throw h
    · rw [eA, eB]
      exact .pure h (.node hnm)
  · rename_i depth key _
    refine .ite Iff.rfl (fun _ => .bind (Q := fun _ _ _ => False) (.throw h)
      fun _ _ _ _ _ hf => hf.elim) fun _ => ?_
    have hi := forall₂_getElem? had (depth - 1)
    revert hi
    generalize as[depth - 1]? = x
    generalize ds[depth - 1]? = y
    intro hi
    cases hi with
    | none => exact .throw h
    | some hi =>
      exact (simulates_elementAt h hi (.str key)).bind fun q n m _ hq hnm => .pure hq (.node hnm)
  · rename_i name' _
    dsimp only
    refine (simulates_newParameter h fun _ => C.named name').bind fun q r s l hq hrs => ?_
    refine (simulates_addParameter hq (l.1.le _ _ hbc) true fun _ => C.named name').bind
      fun t _ _ l' ht _ => .pure ht (.parameter (l'.1.le _ _ hrs))

theorem simulates_resolve (name : String) :
    Simulates C.building p (resolve b name) (resolve c name)
      fun q v w => Value.Related q.matching v w := by
  rw [resolve_eq, resolve_eq]
  exact (simulates_accessesFor h hbc name).bind fun q as ds l hq had =>
    simulates_resolveWith hq (l.1.le _ _ hbc) name had

/-! ## Operators -/

theorem simulates_addOperator (op : String) {x y x' y' : Value}
    (hx : Value.Related p.matching x x') (hy : Value.Related p.matching y y') :
    Simulates C.building p (addOperator b op x y) (addOperator c op x' y')
      fun q n m => q.matching (.node n) (.node m) := by
  unfold addOperator
  cases Dictionary.get? op operatorProcesses with
  | none => exact .throw h
  | some process =>
    refine .get_bind ?_
    rw [h.catalogOf_eq (.inl hbc)]
    cases (p.right.catalogOf c).get? process none with
    | none => exact .throw h
    | some spec =>
      refine (simulates_ofExcept h (operatorArguments_related op spec hx hy)).bind
        fun q d e _ hq ⟨same, hde⟩ => ?_
      subst same
      exact simulates_invoke hq hbc process (.dict hde) _ _

theorem simulates_applySign (op : String) {v w : Value} (hvw : Value.Related p.matching v w) :
    Simulates C.building p (applySign b op v) (applySign c op w)
      fun q x y => Value.Related q.matching x y := by
  unfold applySign
  refine .ite Iff.rfl (fun _ => .pure h hvw) fun _ => ?_
  have product : Simulates C.building p (do return .node (← addOperator b "*" (.int (-1)) v))
      (do return .node (← addOperator c "*" (.int (-1)) w))
      fun q x y => Value.Related q.matching x y :=
    (simulates_addOperator h hbc "*" (.int _) hvw).bind fun q n m _ hq hnm => .pure hq (.node hnm)
  cases hvw with
  | int n => exact .pure h (.int _)
  | float x => exact .pure h (.float _)
  | _ => exact product

end

/-! ## Trees -/

section
variable {C : Comparison} {b c : BuilderRef}

mutual

theorem simulates_lower {p : Stage Workspace Workspace} (h : C.building.holds p)
    (hbc : p.matching (.builder b) (.builder c)) (t : Formula.Tree) :
    Simulates C.building p (lower b t) (lower c t) fun q v w => Value.Related q.matching v w :=
  match t with
  | .number value => by
    unfold lower
    exact .pure h (Value.related_scalar value)
  | .identifier name => by
    unfold lower
    exact simulates_resolve h hbc name
  | .binary op left right => by
    unfold lower
    refine (simulates_lower h hbc left).bind fun q x x' l hq hx => ?_
    refine (simulates_lower hq (l.1.le _ _ hbc) right).bind fun r y y' l' hr hy => ?_
    refine (simulates_addOperator hr (l'.1.le _ _ (l.1.le _ _ hbc)) op (hx.mono l'.1.le) hy).bind
      fun s n m _ hs hnm => .pure hs (.node hnm)
  | .unary op operand => by
    unfold lower
    exact (simulates_lower h hbc operand).bind fun q v w l hq hvw =>
      simulates_applySign hq (l.1.le _ _ hbc) op hvw
  | .call name arguments => by
    unfold lower
    refine (simulates_lowerAll h hbc arguments).bind fun q vs ws l hq hvs => ?_
    exact (simulates_invoke hq (l.1.le _ _ hbc) name (.list hvs) _ _).bind
      fun r n m _ hr hnm => .pure hr (.node hnm)
  | .group inner => by
    unfold lower
    exact simulates_lower h hbc inner

theorem simulates_lowerAll {p : Stage Workspace Workspace} (h : C.building.holds p)
    (hbc : p.matching (.builder b) (.builder c)) (ts : List Formula.Tree) :
    Simulates C.building p (lowerAll b ts) (lowerAll c ts)
      fun q vs ws => List.Forall₂ (Value.Related q.matching) vs ws :=
  match ts with
  | [] => by
    unfold lowerAll
    exact .pure h .nil
  | t :: ts => by
    unfold lowerAll
    refine (simulates_lower h hbc t).bind fun q v w l hq hvw => ?_
    refine (simulates_lowerAll hq (l.1.le _ _ hbc) ts).bind fun r vs ws l' hr hvs => ?_
    exact .pure hr (.cons (hvw.mono l'.1.le) hvs)

end

end

/-! ## Formulas -/

section
variable {C : Comparison} {p : Stage Workspace Workspace} (h : C.building.holds p)
include h

theorem simulates_createFormula (text : String) :
    Simulates C.building p (createFormula text) (createFormula text)
      fun q f g => q.matching (.formula f) (.formula g) := by
  have hl := (ensures_createFormula h.left text).1
  have hr := (ensures_createFormula h.right text).1
  unfold createFormula at hl hr ⊢
  split
  · rename_i tree e
    rw [e] at hl hr
    exact ⟨_, ⟨Matching.grows_add _ (by rintro _ ⟨⟩), p.left.grows_newFormula _,
      p.right.grows_newFormula _⟩, h.newFormula hl hr, .ok (Matching.add_self ..)⟩
  · exact .throw h
  · exact .throw h

/-- Which builder a formula is set to is not compared. -/
theorem simulates_setFormulaBuilder {f g : FormulaRef} (b c : BuilderRef)
    (hf : f.index < p.left.formulas.size) (hg : g.index < p.right.formulas.size) :
    Simulates C.building p (setFormulaBuilder f b) (setFormulaBuilder g c) fun q _ _ =>
      (q.left.formula f).builder = some b ∧ (q.right.formula g).builder = some c := by
  have eA := ensures_setFormulaBuilder h.left f b
  have eB := ensures_setFormulaBuilder h.right g c
  refine simulates_change ?_ ?_ ?_ ⟨(eA.2.2 () rfl).2 hf, (eB.2.2 () rfl).2 hg⟩
  · exact p.left.grows_modifyFormula f fun _ => ⟨rfl, rfl⟩
  · exact p.right.grows_modifyFormula g fun _ => ⟨rfl, rfl⟩
  · exact h.modifyFormula eA.1 eB.1 (fun _ => ⟨rfl, rfl⟩) fun _ => ⟨rfl, rfl⟩

section
variable {n m : NodeRef} (hnm : p.matching (.node n) (.node m)) (hn : C.left.base.NewNode n)
  (hm : C.right.base.NewNode m)
include hnm hn hm

/-- What is said about related nodes may be changed in the same way. -/
theorem simulates_modifyNode {f : Node → Node} (hf : ∀ x : Node, x.SameCall (f x))
    (same : Comparison.NodeMatch p.matching (f (p.left.node n)) (f (p.right.node m))) :
    Simulates C.building p (change fun ws => ws.modifyNode n f)
      (change fun ws => ws.modifyNode m f) fun _ _ _ => True := by
  have holds {F : Frame} {ws : Workspace} {k : NodeRef} (h : F.Holds ws) (new : F.base.NewNode k) :
      F.Holds (ws.modifyNode k f) :=
    ⟨h.start, h.wellFormed.modifyNode k hf, h.kept.modifyNode k hf (.inl new)⟩
  refine simulates_change (p.left.grows_modifyNode n hf) (p.right.grows_modifyNode m hf) ?_ trivial
  exact h.modifyNode (holds h.left hn) (holds h.right hm) hnm hf hf same

theorem simulates_setResult (v : Value) :
    Simulates C.building p (setResult n v) (setResult m v) fun _ _ _ => True :=
  simulates_modifyNode h hnm hn hm (fun _ => ⟨rfl, rfl, rfl, rfl, rfl, rfl⟩)
    { h.pair hnm with result := rfl }

theorem simulates_setDescription (description : Value) :
    Simulates C.building p (setDescription n description) (setDescription m description)
      fun _ _ _ => True :=
  simulates_modifyNode h hnm hn hm (fun _ => ⟨rfl, rfl, rfl, rfl, rfl, rfl⟩)
    { h.pair hnm with description := rfl }

end

variable {b c : BuilderRef} (hbc : p.matching (.builder b) (.builder c))
include hbc

theorem simulates_lowerToNode (text : String) (t : Formula.Tree) :
    Simulates C.building p (lowerToNode b text t) (lowerToNode c text t)
      fun q n m => q.matching (.node n) (.node m) := by
  refine simulates_atomically h hbc ((simulates_lower h hbc t).bind fun q v w _ hq hvw => ?_)
  cases hvw with
  | node hnm => exact .pure hq hnm
  | _ => exact .throw hq

/-- The builders are none that either side began with. -/
theorem simulates_generate {f g : FormulaRef}
    (same : (p.left.formula f).text = (p.right.formula g).text ∧
      (p.left.formula f).tree = (p.right.formula g).tree)
    (hf : (p.left.formula f).builder = some b) (hg : (p.right.formula g).builder = some c)
    (asResult : Bool)
    (new : asResult = true → C.left.base.builders.size ≤ b.index ∧
      C.right.base.builders.size ≤ c.index) :
    Simulates C.building p (generate f asResult) (generate g asResult)
      fun q n m => q.matching (.node n) (.node m) := by
  obtain ⟨oA, oB⟩ := isOpen h hbc
  unfold generate
  refine .get_bind ?_
  dsimp only
  rw [hf, hg, same.1, same.2]
  dsimp only
  have cA := ensures_lowerToNode h.left oA (p.right.formula g).text (p.right.formula g).tree
  have cB := ensures_lowerToNode h.right oB (p.right.formula g).text (p.right.formula g).tree
  refine (simulates_and_ensures (simulates_lowerToNode h hbc _ _) cA cB).bind
    fun q n m _ hq ⟨hnm, ⟨_, ownA⟩, _, ownB⟩ => ?_
  have finish : ∀ {r : Stage Workspace Workspace}, C.building.holds r →
      r.matching (.node n) (.node m) → Simulates C.building r
        (do
          log (.debug Log.formulaLogger ("Generated formula '" ++ (p.right.formula g).text ++
            "' -> " ++ ((← get).node n).id))
          return n)
        (do
          log (.debug Log.formulaLogger ("Generated formula '" ++ (p.right.formula g).text ++
            "' -> " ++ ((← get).node m).id))
          return m)
        fun q n m => q.matching (.node n) (.node m) := by
    intro r hr hnm
    exact .get_bind ((simulates_log hr _ _).bind fun s _ _ l hs _ => .pure hs (l.1.le _ _ hnm))
  refine .ite Iff.rfl (fun hres => ?_) fun _ => finish hq hnm
  obtain ⟨newA, newB⟩ := new hres
  refine (simulates_setResult hq hnm (newNode_of_owner hq.left (ownA ▸ newA))
    (newNode_of_owner hq.right (ownB ▸ newB)) _).bind fun r _ _ l hr _ => ?_
  exact finish hr (l.1.le _ _ hnm)

theorem simulates_compile (text : String) (asResult : Bool)
    (new : asResult = true → C.left.base.builders.size ≤ b.index ∧
      C.right.base.builders.size ≤ c.index) :
    Simulates C.building p (compile b text asResult) (compile c text asResult)
      fun q n m => q.matching (.node n) (.node m) := by
  unfold compile
  refine (simulates_createFormula h text).bind fun q f g l hq hfg => ?_
  obtain ⟨hf, hg⟩ := hq.within hfg
  refine (simulates_setFormulaBuilder hq b c hf hg).bind fun r _ _ l' hr ⟨eA, eB⟩ => ?_
  exact simulates_generate hr (l'.1.le _ _ (l.1.le _ _ hbc)) (hr.pair (l'.1.le _ _ hfg)) eA eB
    asResult new

end

end Build

end ProcessGraph
