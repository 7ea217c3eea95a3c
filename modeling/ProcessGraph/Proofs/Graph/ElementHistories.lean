import ProcessGraph.Proofs.Graph.Reachability

/-!
# Histories of element accesses

`ws.History made now`: how `now` has come about from `ws`, with the element accesses on the way that
have given a node, in their order. All other operations access no elements (`PlainOperation`);
formulas access elements one by one, wherever `$` identifiers stand in them, so that every sequence
of operations and undone blocks has such a history (`Steps.history`).
-/

set_option autoImplicit false

namespace ProcessGraph

/-- An access to an element of a callback parameter, and the node that it has given. -/
structure ElementAccess where
  access : AccessRef
  key : ElementKey
  node : NodeRef

namespace Workspace

/-- An operation that accesses no array element. -/
inductive PlainOperation (ws : Workspace) : Workspace → Prop where
  | catalogs (catalogs : Arena Catalog) : PlainOperation ws { ws with catalogs }
  | callbackNames (names : Dictionary String CallbackNames) :
      PlainOperation ws { ws with callbackNames := names }
  | records (log : List Log.Record) (warnings : List String) :
      PlainOperation ws { ws with log, warnings }
  | createBuilder (processes id : Value) (settings : Option Settings)
      (parent : Option BuilderRef) (env : Environment)
      (hp : ∀ p ∈ parent, p.index < ws.builders.size) :
      PlainOperation ws ((Build.createBuilder processes id settings parent env).run ws).2
  | createChild {b : BuilderRef} (hb : b.index < ws.builders.size) {n : NodeRef}
      (hn : n.index < ws.nodes.size) (argument : Scalar) :
      PlainOperation ws ((Build.createChild b n argument).run ws).2
  | setParent (b : BuilderRef) {n : NodeRef} (hn : n.index < ws.nodes.size) (argument : Scalar) :
      PlainOperation ws ((Build.setParent b n argument).run ws).2
  | setMetadata (b : BuilderRef) (name : String) (v : Value) :
      PlainOperation ws (ws.modifyBuilder b fun builder =>
        { builder with metadata := builder.metadata.set name v })
  | newParameter (p : Parameter) : PlainOperation ws ((Build.newParameter p).run ws).2
  | callbackParameter {b : BuilderRef} (hb : b.index < ws.builders.size) (name : Value) :
      PlainOperation ws ((Build.callbackParameter b name).run ws).2
  | parentParameters {b : BuilderRef} (hb : b.index < ws.builders.size) :
      PlainOperation ws ((Build.parentParameters b).run ws).2
  | addParameter {b : BuilderRef} (hb : b.index < ws.builders.size) (declaration : Value.Entries)
      (onRoot : Bool) : PlainOperation ws ((Build.addParameter b declaration onRoot).run ws).2
  | generateId {b : BuilderRef} (hb : b.index < ws.builders.size) (name : String) :
      PlainOperation ws ((Build.generateId b name).run ws).2
  | invoke {b : BuilderRef} (hb : b.index < ws.builders.size) (process : String)
      {arguments : Value} (hv : arguments.Within ws) (description : Value)
      (space : Option String) :
      PlainOperation ws ((Build.invoke b process arguments description space).run ws).2
  | shortcut {b : BuilderRef} (hb : b.index < ws.builders.size) (process : String)
      (spec : Specification) {arguments : List Value} (hv : ∀ v ∈ arguments, v.Within ws)
      {named : Value.Entries} (hnamed : Value.EntriesWithin ws named) :
      PlainOperation ws ((Build.callShortcut b process spec arguments named).run ws).2
  | addOperator {b : BuilderRef} (hb : b.index < ws.builders.size) (op : String)
      {left right : Value} (hl : left.Within ws) (hr : right.Within ws) :
      PlainOperation ws ((Build.addOperator b op left right).run ws).2
  | createFormula (text : String) : PlainOperation ws ((Build.createFormula text).run ws).2
  | setFormulaBuilder (f : FormulaRef) {b : BuilderRef} (hb : b.index < ws.builders.size) :
      PlainOperation ws ((Build.setFormulaBuilder f b).run ws).2
  | setResult (n : NodeRef) (v : Value) : PlainOperation ws ((Build.setResult n v).run ws).2
  | setDescription (n : NodeRef) (description : Value) :
      PlainOperation ws (ws.modifyNode n fun node => { node with description })
  | setCallbackBuilder (n : NodeRef) (argument : Scalar) (b : BuilderRef) :
      PlainOperation ws (ws.modifyNode n fun node =>
        { node with callbackBuilders := Dictionary.insert argument b node.callbackBuilders })

theorem PlainOperation.operation {ws now : Workspace} (op : ws.PlainOperation now) :
    ws.Operation now := by
  cases op with
  | catalogs catalogs => exact .catalogs catalogs
  | callbackNames names => exact .callbackNames names
  | records log warnings => exact .records log warnings
  | createBuilder processes id settings parent env hp =>
    exact .createBuilder processes id settings parent env hp
  | createChild hb hn argument => exact .createChild hb hn argument
  | setParent b hn argument => exact .setParent b hn argument
  | setMetadata b name v => exact .setMetadata b name v
  | newParameter p => exact .newParameter p
  | callbackParameter hb name => exact .callbackParameter hb name
  | parentParameters hb => exact .parentParameters hb
  | addParameter hb declaration onRoot => exact .addParameter hb declaration onRoot
  | generateId hb name => exact .generateId hb name
  | invoke hb process hv description space => exact .invoke hb process hv description space
  | shortcut hb process spec hv hnamed => exact .shortcut hb process spec hv hnamed
  | addOperator hb op hl hr => exact .addOperator hb op hl hr
  | createFormula text => exact .createFormula text
  | setFormulaBuilder f hb => exact .setFormulaBuilder f hb
  | setResult n v => exact .setResult n v
  | setDescription n description => exact .setDescription n description
  | setCallbackBuilder n argument b => exact .setCallbackBuilder n argument b

inductive History : Workspace → List ElementAccess → Workspace → Prop where
  | refl (ws : Workspace) : History ws [] ws
  | plain {ws now after : Workspace} {made : List ElementAccess} (h : History ws made now)
      (op : now.PlainOperation after) : History ws made after
  | access {ws now after : Workspace} {made : List ElementAccess} (h : History ws made now)
      {a : AccessRef} (ha : a.index < now.accesses.size) {key : Value} {k : ElementKey}
      (hk : ElementKey.ofValue now.objectName key = .ok k) {n : NodeRef}
      (run : (Build.elementAt a key).run now = (.ok n, after)) :
      History ws (made ++ [⟨a, k, n⟩]) after
  | failedAccess {ws now after : Workspace} {made : List ElementAccess} (h : History ws made now)
      {a : AccessRef} (ha : a.index < now.accesses.size) {key : Value} {e : Failure}
      (run : (Build.elementAt a key).run now = (.error e, after)) : History ws made after
  /-- An atomic step that began in `before` and failed in `now`. -/
  | undone {ws before now : Workspace} {made made' : List ElementAccess}
      (h : History ws made before) (h' : History before made' now) {b : BuilderRef}
      (hb : b.index < before.builders.size) :
      History ws (made ++ made') (before.rollBack b now)

variable {ws now after : Workspace} {made made' : List ElementAccess}

theorem History.trans (h : ws.History made now) (h' : now.History made' after) :
    ws.History (made ++ made') after := by
  induction h' with
  | refl => rwa [List.append_nil]
  | plain _ op ih => exact .plain (ih h) op
  | access _ ha hk run ih =>
    rw [← List.append_assoc]
    exact .access (ih h) ha hk run
  | failedAccess _ ha run ih => exact .failedAccess (ih h) ha run
  | undone _ h'' hb ih =>
    rw [← List.append_assoc]
    exact .undone (ih h) h'' hb

theorem History.steps (h : ws.History made now) : ws.Steps now := by
  induction h with
  | refl ws => exact .refl ws
  | plain _ op ih => exact .operation ih op.operation
  | @access _ now after _ _ a ha key _ _ n run ih =>
    have op : now.Operation ((Build.elementAt a key).run now).2 := .element ha key
    rw [run] at op
    exact .operation ih op
  | @failedAccess _ now after _ _ a ha key e run ih =>
    have op : now.Operation ((Build.elementAt a key).run now).2 := .element ha key
    rw [run] at op
    exact .operation ih op
  | undone _ _ hb ih ih' => exact .rollBack ih ih' hb

end Workspace

/-! ## Formulas -/

namespace Build

variable {α β : Type} {ws now : Workspace} {b : BuilderRef}

/-- The step has a history. -/
def Recorded (ws : Workspace) (step : Build α) : Prop := ∃ made, ws.History made (step.run ws).2

theorem Recorded.pure (a : α) : Recorded ws (pure a : Build α) := ⟨[], .refl ws⟩

theorem Recorded.throw (e : Failure) : Recorded ws (throw e : Build α) := ⟨[], .refl ws⟩

theorem Recorded.get_bind {f : Workspace → Build α} (h : Recorded ws (f ws)) :
    Recorded ws (get >>= f) := h

theorem Recorded.plain {step : Build α} (op : ws.PlainOperation (step.run ws).2) :
    Recorded ws step := ⟨[], .plain (.refl ws) op⟩

theorem Recorded.bind {step : Build α} {f : α → Build β} (h : Recorded ws step)
    (hf : ∀ a now, step.run ws = (.ok a, now) → Recorded now (f a)) :
    Recorded ws (step >>= f) := by
  obtain ⟨made, first⟩ := h
  unfold Recorded
  rw [run_bind_state]
  rcases run : step.run ws with ⟨e | a, now⟩ <;> rw [run] at first
  · exact ⟨made, first⟩
  · obtain ⟨made', rest⟩ := hf a now run
    exact ⟨made ++ made', first.trans rest⟩

theorem Recorded.atomically {body : Build α} (hb : b.index < ws.builders.size)
    (h : Recorded ws body) : Recorded ws (atomically b body) := by
  obtain ⟨made, done⟩ := h
  unfold Recorded
  rw [run_atomically]
  rcases run : body.run ws with ⟨e | a, now⟩ <;> rw [run] at done
  · exact ⟨_, .undone (.refl ws) done hb⟩
  · exact ⟨made, done⟩

theorem recorded_log (r : Log.Record) : Recorded ws (log r) := .plain (.records _ _)

section
variable (wf : ws.WellFormed)
include wf

theorem recorded_elementAt {a : AccessRef} (ha : a.index < ws.accesses.size) (key : Value) :
    Recorded ws (elementAt a key) := by
  unfold Recorded
  rcases run : (elementAt a key).run ws with ⟨e | n, now⟩
  · exact ⟨[], .failedAccess (.refl ws) ha run⟩
  · have opened : Workspace.Open (fun _ => True) (fun _ => True) ws ws (ws.access a).builder :=
      ⟨(wf.access a ha).builder, .inl trivial, .inl trivial⟩
    obtain ⟨-, -, k, hk, -⟩ :=
      (ensures_elementAt (wf.extends (fun _ => True) fun _ => True) ha opened key).of_run run
    exact ⟨_, .access (.refl ws) ha hk run⟩

variable (hb : b.index < ws.builders.size)
include hb

theorem within_of_accessesFor {name : String} {accesses : List AccessRef}
    (run : (accessesFor b name).run ws = (.ok accesses, now)) :
    now.WellFormed ∧ ws.Grows now ∧ ∀ a ∈ accesses, a.index < now.accesses.size := by
  obtain ⟨ext, g, -, names, -, has⟩ :=
    (ensures_accessesFor (wf.extends (fun _ => True) fun _ => True) hb name).of_run run
  refine ⟨ext.wellFormed, g, fun a ha => ?_⟩
  obtain ⟨name, -, is⟩ := exists_of_forall₂_of_mem has ha
  exact is.within

/-- An identifier accesses an element at most. -/
theorem recorded_resolve (name : String) : Recorded ws (resolve b name) := by
  rw [resolve_eq]
  refine .bind ?_ fun accesses now found => ?_
  · unfold accessesFor
    split
    · exact .plain (.parentParameters hb)
    · exact .pure _
  obtain ⟨wf₁, g₁, within⟩ := within_of_accessesFor wf hb found
  unfold resolveWith
  split
  · exact .pure _
  · refine .get_bind ?_
    split
    · exact .pure _
    · exact .throw _
  · have element (a : AccessRef) (ha : a ∈ accesses) (key : Value) :
        Recorded now (do return .node (← elementAt a key) : Build Value) :=
      (recorded_elementAt wf₁ (within a ha) key).bind fun _ _ _ => .pure _
    dsimp only
    split
    · exact Recorded.bind (.throw _) fun _ _ run => nomatch run
    · split
      · rename_i a ha
        exact element a (List.mem_of_getElem? ha) _
      · exact .throw _
  · refine Recorded.bind (.plain (.newParameter _)) fun r after run => ?_
    cases run
    refine Recorded.bind (.plain (.addParameter ?_ _ _)) fun _ _ _ => .pure _
    exact Nat.lt_of_lt_of_le hb g₁.builders

omit wf in
theorem recorded_applySign (op : String) {v : Value} (hv : v.Within ws) :
    Recorded ws (applySign b op v) := by
  have number : (Value.int (-1)).Within ws := Value.within_of_refs_eq_nil rfl
  unfold applySign
  split
  · exact .pure _
  · split
    · exact .pure _
    · exact .pure _
    · exact Recorded.bind (.plain (.addOperator hb _ number hv)) fun _ _ _ => .pure _

end

/-- The world is still well-formed after a tree has been lowered to a value. -/
theorem owned_of_lower (wf : ws.WellFormed) (hb : b.index < ws.builders.size) {t : Formula.Tree}
    {v : Value} (run : (lower b t).run ws = (.ok v, now)) :
    now.WellFormed ∧ b.index < now.builders.size ∧ ws.Grows now ∧ v.Within now := by
  obtain ⟨ext, g, owned⟩ := (ensures_lower (wf.extends (fun _ => True) fun _ => True)
    ⟨hb, .inl trivial, .inl trivial⟩ t).of_run run
  exact ⟨ext.wellFormed, Nat.lt_of_lt_of_le hb g.builders, g, owned.1⟩

mutual

theorem recorded_lower {ws : Workspace} (wf : ws.WellFormed) (hb : b.index < ws.builders.size) :
    (t : Formula.Tree) → Recorded ws (lower b t)
  | .number _ => .pure _
  | .identifier name => recorded_resolve wf hb name
  | .binary op left right => by
    unfold lower
    refine (recorded_lower wf hb left).bind fun v now run => ?_
    obtain ⟨wf₁, hb₁, -, hv⟩ := owned_of_lower wf hb run
    refine (recorded_lower wf₁ hb₁ right).bind fun w after run' => ?_
    obtain ⟨-, hb₂, g₂, hw⟩ := owned_of_lower wf₁ hb₁ run'
    exact Recorded.bind (.plain (.addOperator hb₂ op (g₂.value_within hv) hw)) fun _ _ _ => .pure _
  | .unary op operand => by
    unfold lower
    refine (recorded_lower wf hb operand).bind fun v now run => ?_
    obtain ⟨-, hb₁, -, hv⟩ := owned_of_lower wf hb run
    exact recorded_applySign hb₁ op hv
  | .call name arguments => by
    unfold lower
    refine (recorded_lowerAll wf hb arguments).bind fun vs now run => ?_
    obtain ⟨-, g, hvs⟩ := (ensures_lowerAll (wf.extends (fun _ => True) fun _ => True)
      ⟨hb, .inl trivial, .inl trivial⟩ arguments).of_run run
    exact Recorded.bind (.plain (.invoke (Nat.lt_of_lt_of_le hb g.builders) name
      (Value.within_list.2 hvs) .null none)) fun _ _ _ => .pure _
  | .group inner => by
    unfold lower
    exact recorded_lower wf hb inner

theorem recorded_lowerAll {ws : Workspace} (wf : ws.WellFormed) (hb : b.index < ws.builders.size) :
    (ts : List Formula.Tree) → Recorded ws (lowerAll b ts)
  | [] => .pure _
  | t :: ts => by
    unfold lowerAll
    refine (recorded_lower wf hb t).bind fun v now run => ?_
    obtain ⟨wf₁, hb₁, -, -⟩ := owned_of_lower wf hb run
    exact (recorded_lowerAll wf₁ hb₁ ts).bind fun _ _ _ => .pure _

end

theorem recorded_generate (wf : ws.WellFormed) {f : FormulaRef}
    (hf : ∀ b ∈ (ws.formula f).builder, b.index < ws.builders.size) (asResult : Bool) :
    Recorded ws (generate f asResult) := by
  unfold generate
  refine .get_bind ?_
  dsimp only
  split
  · exact .throw _
  · rename_i b hb
    have tree : Recorded ws (lowerToNode b (ws.formula f).text (ws.formula f).tree) := by
      refine .atomically (hf b hb) ((recorded_lower wf (hf b hb) _).bind fun v now _ => ?_)
      split
      · exact .pure _
      · exact .throw _
    refine tree.bind fun n now _ => ?_
    have finish (now : Workspace) (r : Workspace → Log.Record) :
        Recorded now (do log (r (← get)); return n) :=
      .get_bind ((recorded_log _).bind fun _ _ _ => .pure _)
    split
    · exact Recorded.bind (.plain (.setResult n _)) fun _ after _ => finish after _
    · exact finish now _

theorem recorded_compile (wf : ws.WellFormed) (hb : b.index < ws.builders.size) (text : String)
    (asResult : Bool) : Recorded ws (compile b text asResult) := by
  unfold compile
  refine Recorded.bind (.plain (.createFormula text)) fun f now run => ?_
  obtain ⟨ext, g, hf, -⟩ := (ensures_createFormula (wf.extends (fun _ => True) fun _ => True)
    text).of_run run
  have hb₁ := Nat.lt_of_lt_of_le hb g.builders
  refine Recorded.bind (.plain (.setFormulaBuilder f hb₁)) fun _ after run' => ?_
  obtain ⟨ext', g', -, set⟩ := (ensures_setFormulaBuilder (ext.wellFormed.extends (fun _ => True)
    fun _ => True) f b).of_run run'
  refine recorded_generate ext'.wellFormed (fun c hc => ?_) asResult
  rw [set hf] at hc
  cases hc
  exact Nat.lt_of_lt_of_le hb₁ g'.builders

end Build

/-! ## Operations and steps -/

namespace Workspace

variable {ws now : Workspace}

theorem Operation.history (wf : ws.WellFormed) (op : ws.Operation now) :
    ∃ made, ws.History made now := by
  have plain {now : Workspace} (op : ws.PlainOperation now) : ∃ made, ws.History made now :=
    ⟨[], .plain (.refl ws) op⟩
  cases op with
  | catalogs catalogs => exact plain (.catalogs catalogs)
  | callbackNames names => exact plain (.callbackNames names)
  | records log warnings => exact plain (.records log warnings)
  | createBuilder processes id settings parent env hp =>
    exact plain (.createBuilder processes id settings parent env hp)
  | createChild hb hn argument => exact plain (.createChild hb hn argument)
  | setParent b hn argument => exact plain (.setParent b hn argument)
  | setMetadata b name v => exact plain (.setMetadata b name v)
  | newParameter p => exact plain (.newParameter p)
  | callbackParameter hb name => exact plain (.callbackParameter hb name)
  | parentParameters hb => exact plain (.parentParameters hb)
  | addParameter hb declaration onRoot => exact plain (.addParameter hb declaration onRoot)
  | generateId hb name => exact plain (.generateId hb name)
  | invoke hb process hv description space => exact plain (.invoke hb process hv description space)
  | shortcut hb process spec hv hnamed => exact plain (.shortcut hb process spec hv hnamed)
  | element ha key => exact Build.recorded_elementAt wf ha key
  | resolve hb name => exact Build.recorded_resolve wf hb name
  | addOperator hb op hl hr => exact plain (.addOperator hb op hl hr)
  | lower hb t => exact Build.recorded_lower wf hb t
  | createFormula text => exact plain (.createFormula text)
  | setFormulaBuilder f hb => exact plain (.setFormulaBuilder f hb)
  | generate f hb asResult => exact Build.recorded_generate wf hb asResult
  | compile hb text asResult => exact Build.recorded_compile wf hb text asResult
  | setResult n v => exact plain (.setResult n v)
  | setDescription n description => exact plain (.setDescription n description)
  | setCallbackBuilder n argument b => exact plain (.setCallbackBuilder n argument b)

/-- Whatever is done has a history. -/
theorem Steps.history (wf : ws.WellFormed) (steps : ws.Steps now) :
    ∃ made, ws.History made now := by
  induction steps with
  | refl ws => exact ⟨[], .refl ws⟩
  | operation h op ih =>
    obtain ⟨made, first⟩ := ih wf
    obtain ⟨made', rest⟩ := op.history (h.appends wf).wellFormed
    exact ⟨made ++ made', first.trans rest⟩
  | rollBack h _ hb ih ih' =>
    obtain ⟨made, first⟩ := ih wf
    obtain ⟨made', rest⟩ := ih' (h.appends wf).wellFormed
    exact ⟨made ++ made', .undone first rest hb⟩

end Workspace

end ProcessGraph
