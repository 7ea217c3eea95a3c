import ProcessGraph.Proofs.Graph.DeclaredNames
import ProcessGraph.Proofs.Graph.FormulaDeclarations
import ProcessGraph.Proofs.Graph.FormulaNodes

/-!
# The parameters that a formula adds

If all parameters behind the nodes of a builder are declared (`Workspace.DeclaresNodes`), a formula
declares no others than its own: the names of the root are those from before and, behind them, the
free identifiers of the formula that were not declared, once each and in the order in which they
first occur (`lower_addsParameters`).

An identifier is declared where it is resolved, and again by every node that reaches it. Nodes of a
formula only reach what is declared by then, so that the second time adds nothing. The induction
over the tree carries exactly this (`Workspace.DeclaresNames`): what has been lowered, and every
node of the builder, reaches declared parameters only.
-/

set_option autoImplicit false

namespace ProcessGraph

open Value

/-! ## Free identifiers -/

/-- The number of dollars that a name starts with. -/
def Reference.dollars (name : String) : Nat := (name.toList.takeWhile (· = '$')).length

/-- The identifier stands for a parameter of the process: it is no literal, no node and no element
of a callback parameter, and no callback parameter is called so. -/
def Workspace.IsFree (ws : Workspace) (b : BuilderRef) (name : String) : Prop :=
  name ∉ ["true", "false", "null"] ∧ name.toList.head? ≠ some '#' ∧
    ¬ (1 ≤ Reference.dollars name ∧ Reference.dollars name ≤ (ws.passed b).length) ∧
    .str name ∉ ws.passed b

instance (ws : Workspace) (b : BuilderRef) (name : String) : Decidable (ws.IsFree b name) :=
  inferInstanceAs (Decidable (_ ∧ _ ∧ _ ∧ _))

theorem get?_literals_eq_none_iff {name : String} :
    Dictionary.get? name literals = none ↔ name ∉ ["true", "false", "null"] := by
  rw [← Option.not_isSome_iff_eq_none, Dictionary.get?_isSome_iff]
  exact Iff.rfl

theorem Reference.ofName_eq_parameter_iff {name : String} {n : Nat} :
    Reference.ofName name n = .parameter name ↔
      name ∉ ["true", "false", "null"] ∧ name.toList.head? ≠ some '#' ∧
        ¬ (1 ≤ dollars name ∧ dollars name ≤ n) := by
  rw [← get?_literals_eq_none_iff]
  unfold ofName dollars
  cases Dictionary.get? name literals with
  | some v => simp
  | none =>
    dsimp only
    split
    · rename_i cs e
      simp [e]
    · rename_i cs e
      by_cases depth : 1 + (cs.takeWhile (· = '$')).length ≤ n <;> simp [e] <;> omega
    · rename_i noNode noElement
      have hash : name.toList.head? ≠ some '#' := by
        intro hash
        obtain ⟨cs, e⟩ := List.head?_eq_some_iff.1 hash
        exact noNode cs e
      have none : name.toList.takeWhile (· = '$') = [] := by
        cases chars : name.toList with
        | nil => rfl
        | cons c cs =>
          have plain : c ≠ '$' := fun e => noElement cs (by rw [chars, e])
          simp [plain]
      simp [hash, none]

namespace Workspace

theorem namesParameter_iff_isFree {ws : Workspace} {b : BuilderRef} {name : String} :
    ws.NamesParameter b name ↔ ws.IsFree b name := by
  unfold NamesParameter IsFree
  rw [Reference.ofName_eq_parameter_iff, ← isAmong_texts_iff, Bool.not_eq_true, and_assoc, and_assoc]
  rfl

/-! ## Declared parameters -/

/-- The parameter is declared: one of the names is equal to its name, and this is the same name. -/
def IsDeclared (ws : Workspace) (b : BuilderRef) (p : Parameter) : Prop :=
  isAmong (ws.parameterNames b) p.name ∧
    ∀ u ∈ ws.parameterNames b, u.same p.name → u = p.name

/-- All parameters that are reached from nodes of the builder are declared, apart from those that
are not declared in it. -/
def DeclaresNodes (ws : Workspace) (b : BuilderRef) : Prop :=
  ∀ p ∈ (ws.builder b).nodes, ws.Confines b (ws.IsDeclared b) (.node p.2)

/-- A workspace that has come from `ws` by declaring names on the root of a builder, all of whose
nodes reach declared parameters only. -/
structure DeclaresNames (b : BuilderRef) (names : List String) (ws now : Workspace) : Prop
    extends ws.Appends now where
  parentNames : now.parentNames b = ws.parentNames b
  parameterNames : now.parameterNames b =
    ws.parameterNames b ++ newNames (ws.parameterNames b) (names.map .str)
  nodes' : now.DeclaresNodes b

section
variable {ws now after : Workspace} {b : BuilderRef} {p : Parameter} {v : Value}
  {names more : List String}

theorem IsDeclared.mem (h : ws.IsDeclared b p) : p.name ∈ ws.parameterNames b := by
  obtain ⟨among, apart⟩ := h
  obtain ⟨u, hu, same⟩ := List.any_eq_true.1 among
  exact apart u hu same ▸ hu

/-- A parameter stays declared when texts are added to the names. -/
theorem IsDeclared.grow (h : ws.IsDeclared b p)
    (e : now.parameterNames b = ws.parameterNames b ++ newNames (ws.parameterNames b)
      (names.map .str)) : now.IsDeclared b p := by
  obtain ⟨among, apart⟩ := h
  unfold IsDeclared
  rw [e]
  refine ⟨by rw [isAmong_append, among, Bool.true_or], fun u hu same => ?_⟩
  rcases List.mem_append.1 hu with hu | hu
  · exact apart u hu same
  · obtain ⟨s, -, rfl⟩ := List.mem_map.1 (mem_of_mem_newNames hu).1
    exact (eq_str_of_same same).symm

theorem isDeclared_named_iff {name : String} :
    ws.IsDeclared b (.named name) ↔ .str name ∈ ws.parameterNames b := by
  constructor
  · exact IsDeclared.mem
  · intro mem
    exact ⟨isAmong_texts_iff.2 mem, fun u _ same => eq_str_of_same_str same⟩

theorem Confines.mono {Q Q' : Parameter → Prop} (h : ws.Confines b Q v) (hQ : ∀ p, Q p → Q' p) :
    ws.Confines b Q' v := fun x hx r reached declares => hQ _ (h x hx r reached declares)

namespace DeclaresNames

theorem refl (h : ws.WellFormed) (hn : ws.DeclaresNodes b) : DeclaresNames b [] ws ws :=
  { h.appends with
    parentNames := rfl
    parameterNames := (List.append_nil _).symm
    nodes' := hn }

theorem trans (h : DeclaresNames b names ws now) (h' : DeclaresNames b more now after) :
    DeclaresNames b (names ++ more) ws after :=
  { h.toAppends.trans h'.toAppends with
    parentNames := h'.parentNames.trans h.parentNames
    parameterNames := by
      rw [h'.parameterNames, h.parameterNames, List.map_append, newNames_append, List.append_assoc]
    nodes' := h'.nodes' }

theorem within (h : DeclaresNames b names ws now) (hb : b.index < ws.builders.size) :
    b.index < now.builders.size := Nat.lt_of_lt_of_le hb h.grows.builders

/-- What has been lowered still reaches declared parameters only. -/
theorem confines (h : DeclaresNames b names ws now) (hv : v.Within ws)
    (hc : ws.Confines b (ws.IsDeclared b) v) : now.Confines b (now.IsDeclared b) v :=
  (hc.grow h.start h.grows h.parentNames hv).mono fun _ hp => hp.grow h.parameterNames

/-- Free identifiers stay the same. -/
theorem filter_isFree (h : DeclaresNames b names ws now) (identifiers : List String) :
    identifiers.filter (now.IsFree b) = identifiers.filter (ws.IsFree b) := by
  refine List.filter_congr fun name _ => decide_eq_decide.2 ?_
  unfold IsFree passed
  rw [h.parentNames]

end DeclaresNames

/-- Steps that declare parameters which count as the names. -/
theorem DeclaresOnly.declaresNames {Q : Parameter → Prop} {ps : List Parameter}
    (e : DeclaresOnly b Q ws ps now) (hb : b.index < ws.builders.size) (hn : ws.DeclaresNodes b)
    (apart : ∀ p ∈ ps, ∀ u ∈ ws.parameterNames b ++ ps.map Parameter.name,
      u.same p.name → u = p.name)
    (same : newNames (ws.parameterNames b) (ps.map Parameter.name) =
      newNames (ws.parameterNames b) (names.map .str))
    (hQ : ∀ p, Q p → ws.IsDeclared b p ∨ ∃ name ∈ names, p = .named name) :
    DeclaresNames b names ws now ∧ ∀ p, Q p → now.IsDeclared b p := by
  have h := e.start
  have all := e.declared.parameterNames_eq (h.root_eq e.grows hb) apart
  rw [same] at all
  have declared : ∀ p, Q p → now.IsDeclared b p := by
    intro p hp
    rcases hQ p hp with old | ⟨name, hname, rfl⟩
    · exact old.grow all
    · rw [isDeclared_named_iff, all, newNames_texts, List.mem_append, List.mem_map]
      by_cases known : Value.str name ∈ ws.parameterNames b
      · exact .inl known
      · refine .inr ⟨name, ?_, rfl⟩
        rw [List.mem_eraseDups, List.mem_filter]
        exact ⟨hname, decide_eq_true known⟩
  refine ⟨{ e.toAppends with
    parentNames := e.names
    parameterNames := all
    nodes' := fun p hp => ?_ }, declared⟩
  by_cases new : ws.NewNode p.2
  · exact (e.confined p hp new).mono declared
  · -- The node is an old one, and reaches what it did.
    have old := (e.nodes b hb).mem hp
    rcases old with old | new'
    · have inside := ((h.builder b hb).nodes p.1 p.2 old).1
      exact ((hn p old).grow h e.grows e.names (Value.within_node.2 inside)).mono
        fun _ hq => hq.grow all
    · exact absurd new' new

/-- Steps that declare nothing but what is declared already. -/
theorem DeclaresOnly.declaresNothing {ps : List Parameter}
    (e : DeclaresOnly b (ws.IsDeclared b) ws ps now) (hb : b.index < ws.builders.size)
    (hn : ws.DeclaresNodes b) : DeclaresNames b [] ws now ∧
      ∀ p, ws.IsDeclared b p → now.IsDeclared b p := by
  refine e.declaresNames hb hn (fun p hp u hu => ?_) ?_ fun p hp => .inl hp
  · rcases List.mem_append.1 hu with hu | hu
    · exact (e.only p hp).2 u hu
    · obtain ⟨q, hq, rfl⟩ := List.mem_map.1 hu
      exact (e.only p hp).2 _ (e.only q hq).mem
  · refine newNames_of_known fun v hv => ?_
    obtain ⟨p, hp, rfl⟩ := List.mem_map.1 hv
    exact (e.only p hp).1

end

/-! ## Steps of a formula -/

section
variable {ws now : Workspace} {b : BuilderRef} (h : ws.WellFormed)
  (hb : b.index < ws.builders.size) (hn : ws.DeclaresNodes b)
include h hb hn

theorem declaresNames_invoke {process : String} {arguments : Value} {n : NodeRef}
    (hv : arguments.Within ws) (hc : ws.Confines b (ws.IsDeclared b) arguments)
    (run : (Build.invoke b process arguments).run ws = (.ok n, now)) :
    DeclaresNames b [] ws now ∧ now.Confines b (now.IsDeclared b) (.node n) := by
  obtain ⟨ps, e, made⟩ := (h.declaresOnly hb (ws.IsDeclared b)).invoke hb hv hc run
  obtain ⟨names, declared⟩ := e.declaresNothing hb hn
  exact ⟨names, made.mono declared⟩

theorem declaresNames_addOperator {op : String} {left right : Value} {n : NodeRef}
    (hl : left.Within ws ∧ ws.Confines b (ws.IsDeclared b) left)
    (hr : right.Within ws ∧ ws.Confines b (ws.IsDeclared b) right)
    (run : (Build.addOperator b op left right).run ws = (.ok n, now)) :
    DeclaresNames b [] ws now ∧ now.Confines b (now.IsDeclared b) (.node n) := by
  obtain ⟨ps, e, made⟩ := (h.declaresOnly hb (ws.IsDeclared b)).addOperator hb hl hr run
  obtain ⟨names, declared⟩ := e.declaresNothing hb hn
  exact ⟨names, made.mono declared⟩

/-- An identifier declares its name if it is free, and nothing otherwise. -/
theorem declaresNames_resolve {name : String} {v : Value}
    (run : (Build.resolve b name).run ws = (.ok v, now)) :
    DeclaresNames b (if ws.IsFree b name then [name] else []) ws now ∧
      now.Confines b (now.IsDeclared b) v := by
  let Q (p : Parameter) : Prop := ws.IsDeclared b p ∨ ws.IsFree b name ∧ p = .named name
  have admits : ws.Admits b Q name := by
    refine ⟨fun is => .inr ⟨namesParameter_iff_isFree.1 is, rfl⟩, fun id n _ found => ?_⟩
    exact (hn _ (Dictionary.mem_of_get? found)).mono fun p hp => .inl hp
  obtain ⟨ps, e, reached, mem⟩ := (h.declaresOnly hb Q).resolve hb admits run
  have only : ∀ p ∈ ps, Q p := e.only
  have named : ∀ p, Q p → p.name ∈ ws.parameterNames b ∨ p.name = .str name := by
    rintro p (old | ⟨-, rfl⟩)
    · exact .inl old.mem
    · exact .inr rfl
  have apart : ∀ p ∈ ps, ∀ u ∈ ws.parameterNames b ++ ps.map Parameter.name,
      u.same p.name → u = p.name := by
    intro p hp u hu same
    rcases only p hp with old | ⟨-, rfl⟩
    · rcases List.mem_append.1 hu with hu | hu
      · exact old.2 u hu same
      · obtain ⟨q, hq, rfl⟩ := List.mem_map.1 hu
        rcases named q (only q hq) with mem | text
        · exact old.2 _ mem same
        · rw [text] at same ⊢
          exact (eq_str_of_same same).symm
    · exact eq_str_of_same_str same
  by_cases free : ws.IsFree b name
  · rw [if_pos free]
    -- The identifier is among the declared parameters, and all others are known.
    have same : newNames (ws.parameterNames b) (ps.map Parameter.name) =
        newNames (ws.parameterNames b) ([name].map .str) := by
      refine newNames_of_only_text (List.forall_mem_map.2 fun p hp => ?_)
        (List.mem_map_of_mem (mem (namesParameter_iff_isFree.2 free)))
      rcases only p hp with old | ⟨-, rfl⟩
      · exact .inl old.1
      · exact .inr rfl
    obtain ⟨names, declared⟩ := e.declaresNames hb hn apart same fun p hp =>
      hp.imp_right fun is => ⟨name, List.mem_singleton.2 rfl, is.2⟩
    exact ⟨names, reached.mono declared⟩
  · rw [if_neg free]
    have plain : ∀ p, Q p → ws.IsDeclared b p := fun p hp => hp.resolve_right fun is => free is.1
    have same : newNames (ws.parameterNames b) (ps.map Parameter.name) =
        newNames (ws.parameterNames b) (([] : List String).map .str) :=
      newNames_of_known (List.forall_mem_map.2 fun p hp => (plain p (only p hp)).1)
    obtain ⟨names, declared⟩ := e.declaresNames hb hn apart same fun p hp => .inl (plain p hp)
    exact ⟨names, reached.mono declared⟩

end

mutual

theorem declaresNames_lower {ws : Workspace} {b : BuilderRef} (h : ws.WellFormed)
    (hb : b.index < ws.builders.size) (hn : ws.DeclaresNodes b) : (t : Formula.Tree) →
    {v : Value} → {now : Workspace} → (Build.lower b t).run ws = (.ok v, now) →
    DeclaresNames b (t.identifiers.filter (ws.IsFree b)) ws now ∧
      now.Confines b (now.IsDeclared b) v
  | .number value, v, now, run => by
    unfold Build.lower at run
    cases run
    exact ⟨.refl h hn, confines_of_refs_eq_nil value.refs_toValue⟩
  | .identifier name, v, now, run => by
    unfold Build.lower at run
    have resolved := declaresNames_resolve h hb hn run
    unfold Formula.Tree.identifiers
    by_cases free : ws.IsFree b name
    · rw [if_pos free] at resolved
      rw [List.filter_cons_of_pos (by simpa using free), List.filter_nil]
      exact resolved
    · rw [if_neg free] at resolved
      rw [List.filter_cons_of_neg (by simpa using free), List.filter_nil]
      exact resolved
  | .binary op left right, v, now, run => by
    unfold Build.lower at run
    obtain ⟨l, w₁, hl, run⟩ := run_bind_eq_ok run
    obtain ⟨r, w₂, hr, run⟩ := run_bind_eq_ok run
    obtain ⟨n, w₃, hadd, run⟩ := run_bind_eq_ok run
    cases run
    obtain ⟨-, ownedLeft, -⟩ := lower_eq_ok h hb hl
    obtain ⟨d₁, reachedLeft⟩ := declaresNames_lower h hb hn left hl
    have hb₁ := d₁.within hb
    obtain ⟨-, ownedRight, -⟩ := lower_eq_ok d₁.wellFormed hb₁ hr
    obtain ⟨d₂, reachedRight⟩ := declaresNames_lower d₁.wellFormed hb₁ d₁.nodes' right hr
    have hb₂ := d₂.within hb₁
    obtain ⟨d₃, reached⟩ := declaresNames_addOperator d₂.wellFormed hb₂ d₂.nodes'
      ⟨d₂.grows.value_within ownedLeft.1, d₂.confines ownedLeft.1 reachedLeft⟩
      ⟨ownedRight.1, reachedRight⟩ hadd
    have all := (d₁.trans d₂).trans d₃
    rw [d₁.filter_isFree, ← List.filter_append, List.append_nil] at all
    exact ⟨all, reached⟩
  | .unary op operand, v, now, run => by
    unfold Build.lower at run
    obtain ⟨u, w₁, hu, run⟩ := run_bind_eq_ok run
    obtain ⟨-, owned, -⟩ := lower_eq_ok h hb hu
    obtain ⟨d₁, reached⟩ := declaresNames_lower h hb hn operand hu
    rcases applySign_eq_ok run with ⟨-, rfl, rfl⟩ | ⟨-, s, -, rfl, rfl⟩ | ⟨-, -, n, rfl, hadd⟩
    · exact ⟨d₁, reached⟩
    · exact ⟨d₁, confines_of_refs_eq_nil s.negated.refs_toValue⟩
    · obtain ⟨d₂, reached⟩ := declaresNames_addOperator d₁.wellFormed (d₁.within hb) d₁.nodes'
        ⟨Value.within_of_refs_eq_nil rfl, confines_of_refs_eq_nil rfl⟩ ⟨owned.1, reached⟩ hadd
      have all := d₁.trans d₂
      rw [List.append_nil] at all
      exact ⟨all, reached⟩
  | .call name arguments, v, now, run => by
    unfold Build.lower at run
    obtain ⟨vs, w₁, hvs, run⟩ := run_bind_eq_ok run
    obtain ⟨n, w₂, hinvoke, run⟩ := run_bind_eq_ok run
    cases run
    obtain ⟨-, within⟩ := lowerAll_eq_ok h hb hvs
    obtain ⟨d₁, reached⟩ := declaresNames_lowerAll h hb hn arguments hvs
    obtain ⟨d₂, reached⟩ := declaresNames_invoke d₁.wellFormed (d₁.within hb) d₁.nodes'
      (Value.within_list.2 within) (confines_list reached) hinvoke
    have all := d₁.trans d₂
    rw [List.append_nil] at all
    exact ⟨all, reached⟩
  | .group inner, v, now, run => by
    unfold Build.lower at run
    exact declaresNames_lower h hb hn inner run

theorem declaresNames_lowerAll {ws : Workspace} {b : BuilderRef} (h : ws.WellFormed)
    (hb : b.index < ws.builders.size) (hn : ws.DeclaresNodes b) : (ts : List Formula.Tree) →
    {vs : List Value} → {now : Workspace} → (Build.lowerAll b ts).run ws = (.ok vs, now) →
    DeclaresNames b ((Formula.Tree.identifiersOfAll ts).filter (ws.IsFree b)) ws now ∧
      ∀ v ∈ vs, now.Confines b (now.IsDeclared b) v
  | [], vs, now, run => by
    unfold Build.lowerAll at run
    cases run
    exact ⟨.refl h hn, fun v hv => nomatch hv⟩
  | t :: ts, vs, now, run => by
    unfold Build.lowerAll at run
    obtain ⟨v, w₁, hv, run⟩ := run_bind_eq_ok run
    obtain ⟨vs', w₂, hvs, run⟩ := run_bind_eq_ok run
    cases run
    obtain ⟨-, owned, -⟩ := lower_eq_ok h hb hv
    obtain ⟨d₁, reachedFirst⟩ := declaresNames_lower h hb hn t hv
    obtain ⟨d₂, reachedRest⟩ :=
      declaresNames_lowerAll d₁.wellFormed (d₁.within hb) d₁.nodes' ts hvs
    have all := d₁.trans d₂
    rw [d₁.filter_isFree, ← List.filter_append] at all
    refine ⟨all, fun w hw => ?_⟩
    rcases List.mem_cons.1 hw with rfl | hw
    · exact d₂.confines owned.1 reachedFirst
    · exact reachedRest w hw

end

end Workspace

section
variable {ws now : Workspace} {b : BuilderRef} (h : ws.Reachable)
  (hb : b.index < ws.builders.size) (declared : ws.DeclaresNodes b)
include h hb declared

/-- **What a formula adds to the parameters.** If the parameters behind the nodes of a builder are
declared, the names on its root after a formula are those from before, followed by the free
identifiers of the formula that are not among them, once each and where they first occur. -/
theorem lower_addsParameters {t : Formula.Tree} {v : Value}
    (run : (Build.lower b t).run ws = (.ok v, now)) :
    now.parameterNames b = ws.parameterNames b ++
      ((t.identifiers.filter fun name =>
        ws.IsFree b name ∧ .str name ∉ ws.parameterNames b).eraseDups).map .str := by
  obtain ⟨names, -⟩ := Workspace.declaresNames_lower h.wellFormed hb declared t run
  rw [names.parameterNames, newNames_texts, List.filter_filter]
  simp only [Bool.decide_and, Bool.and_comm]

/-- So does a formula that is added to the builder as a text. -/
theorem math_addsParameters {text : String} {n : NodeRef}
    (run : (Build.math b text).run ws = (.ok n, now)) :
    ∃ t, Formula.parse text = .ok t ∧ now.parameterNames b = ws.parameterNames b ++
      ((t.identifiers.filter fun name =>
        ws.IsFree b name ∧ .str name ∉ ws.parameterNames b).eraseDups).map .str := by
  have wf := h.wellFormed
  obtain ⟨t, start, lowered, r, parsed, c, builders, -, lower, rfl⟩ := math_eq_ok wf run
  have same (d : BuilderRef) : start.builder d = ws.builder d := by
    unfold Workspace.builder
    rw [builders]
  have quiet := (wf.declaresOnly hb (ws.IsDeclared b)).quiet hb c.appends
    (c.kept.parentNames wf hb) (.of_eq (by rw [same])) (by rw [same])
  obtain ⟨first, -⟩ := quiet.declaresNothing hb declared
  obtain ⟨second, -⟩ := Workspace.declaresNames_lower first.wellFormed (first.within hb)
    first.nodes' t lower
  have hb₂ := second.within (first.within hb)
  have logged := (second.wellFormed.declaresOnly hb₂ (lowered.IsDeclared b)).quiet_of_extends hb₂
    (Build.ensures_log (second.wellFormed.extends _ _) r).1
  obtain ⟨third, -⟩ := logged.declaresNothing hb₂ second.nodes'
  have names := ((first.trans second).trans third).parameterNames
  rw [first.filter_isFree, List.nil_append, List.append_nil, newNames_texts,
    List.filter_filter] at names
  refine ⟨t, parsed, names.trans ?_⟩
  simp only [Bool.decide_and, Bool.and_comm]

end

/-! ## A formula that refers to a node -/

/-- A builder with the node of `offset + 1`, where `offset` is declared. -/
def Workspace.offsetUsed : Workspace := ((Build.lower ⟨0⟩ offsetPlusOne).run .documented).2

/-- `#add1 + scale * offset * scale` -/
def scaledSum : Formula.Tree :=
  .binary "+" (.identifier "#add1")
    (.binary "*" (.binary "*" (.identifier "scale") (.identifier "offset")) (.identifier "scale"))

/-- Only the scale is new; the offset is also behind the node. -/
theorem lower_addsParameters_scale :
    Workspace.offsetUsed.parameterNames ⟨0⟩ = [.str "offset"] ∧
    ∃ v now, (Build.lower ⟨0⟩ scaledSum).run .offsetUsed = (.ok v, now) ∧
      now.parameterNames ⟨0⟩ = [.str "offset", .str "scale"] := by
  have documented : Workspace.documented.Reachable :=
    .operation (.operation (.refl _) (.createBuilder _ _ none none [] nofun))
      (.addParameter (by decide +kernel) _ true)
  have reachable : Workspace.offsetUsed.Reachable := .operation documented
    (.lower (by decide +kernel) _)
  have declared : Workspace.offsetUsed.DeclaresNodes ⟨0⟩ := by
    have none : Workspace.documented.DeclaresNodes ⟨0⟩ := fun p hp => nomatch hp
    obtain ⟨v, run⟩ : ∃ v, (Build.lower ⟨0⟩ offsetPlusOne).run .documented = (.ok v, .offsetUsed) :=
      Build.exists_of_isOk (by decide +kernel)
    obtain ⟨names, -⟩ := Workspace.declaresNames_lower documented.wellFormed
      (by decide +kernel) none offsetPlusOne run
    exact names.nodes'
  have before : Workspace.offsetUsed.parameterNames ⟨0⟩ = [.str "offset"] := by rfl
  have added : (scaledSum.identifiers.filter fun name => Workspace.offsetUsed.IsFree ⟨0⟩ name ∧
      .str name ∉ Workspace.offsetUsed.parameterNames ⟨0⟩).eraseDups = ["scale"] := by
    decide +kernel
  obtain ⟨v, run⟩ := Build.exists_of_isOk
    (show ((Build.lower ⟨0⟩ scaledSum).run .offsetUsed).1.isOk = true by decide +kernel)
  refine ⟨before, v, _, run, ?_⟩
  rw [lower_addsParameters reachable (by decide +kernel) declared run, added, before]
  rfl

end ProcessGraph
