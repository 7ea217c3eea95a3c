import ProcessGraph.Proofs.Graph.BoundArguments
import ProcessGraph.Proofs.Graph.DeclaredNames

/-!
# Parameters behind arguments

A call declares the parameters that discovery finds. So the names on the root after a call are those
from before, followed by the names of the parameters on a walk through the arguments of its node,
once each and in the order of their first visit, as far as they are to be declared and not there yet
(`invoke_declaresWalk`). Arguments that are bound to one name are lost before discovery begins.
-/

set_option autoImplicit false

namespace ProcessGraph

open Value

/-! ## Names of parameters that are met -/

namespace Workspace

/-- The names under which parameters are declared when they are used in a builder: of those with a
schema, unless a callback parameter of the builder has the name. -/
def namesToDeclare (ws : Workspace) (b : BuilderRef) (rs : List ParameterRef) : List Value :=
  ((rs.map ws.parameter).filter (ws.declares b)).map Parameter.name

section
variable {ws : Workspace} {b : BuilderRef} {r : ParameterRef} {rs : List ParameterRef}
  {known : List Value}

theorem namesToDeclare_subset {qs : List ParameterRef} (h : qs ⊆ rs) :
    ws.namesToDeclare b qs ⊆ ws.namesToDeclare b rs := by
  unfold namesToDeclare
  exact List.map_subset _ (List.filter_subset _ (List.map_subset _ h))

theorem newNames_namesToDeclare_cons (r : ParameterRef) (rs : List ParameterRef) :
    newNames known (ws.namesToDeclare b (r :: rs)) = newNames known (ws.namesToDeclare b [r]) ++
      newNames (known ++ newNames known (ws.namesToDeclare b [r])) (ws.namesToDeclare b rs) := by
  have split : ws.namesToDeclare b (r :: rs) =
      ws.namesToDeclare b [r] ++ ws.namesToDeclare b rs := by
    unfold namesToDeclare
    rw [← List.singleton_append, List.map_append, List.filter_append, List.map_append]
  rw [split, newNames_append]

/-- A parameter whose name is known can be left out. -/
theorem newNames_filter_ne (h : ∀ v ∈ ws.namesToDeclare b [r], isAmong known v) :
    newNames known (ws.namesToDeclare b (rs.filter fun q => !q == r)) =
      newNames known (ws.namesToDeclare b rs) := by
  induction rs generalizing known with
  | nil => rfl
  | cons q rs ih =>
    by_cases hq : q = r
    · subst hq
      rw [List.filter_cons_of_neg (by simp), ih h, newNames_namesToDeclare_cons,
        newNames_of_known h, List.append_nil, List.nil_append]
    · rw [List.filter_cons_of_pos (by simpa using hq), newNames_namesToDeclare_cons,
        newNames_namesToDeclare_cons q rs, ih fun v hv => ?_]
      rw [isAmong_append, h v hv, Bool.true_or]

/-- For the new names only the first visits count. -/
theorem newNames_eraseDups (texts : ∀ v ∈ ws.namesToDeclare b rs, ∃ s, v = .str s) :
    newNames known (ws.namesToDeclare b rs.eraseDups) =
      newNames known (ws.namesToDeclare b rs) := by
  induction hn : rs.length using Nat.strongRecOn generalizing rs known with
  | _ n shorter =>
    cases rs with
    | nil => rfl
    | cons r rs =>
      have fewer : (rs.filter fun q => !q == r).length < n :=
        hn ▸ Nat.lt_succ_of_le (List.length_filter_le _ rs)
      have others (known : List Value) :
          newNames known (ws.namesToDeclare b (rs.filter fun q => !q == r).eraseDups) =
            newNames known (ws.namesToDeclare b (rs.filter fun q => !q == r)) := by
        refine shorter _ fewer (fun v hv => texts v (namesToDeclare_subset (fun q hq => ?_) hv)) rfl
        exact List.mem_cons_of_mem _ (List.mem_filter.1 hq).1
      -- The name of the first parameter is known to all that come after it.
      have first : ∀ v ∈ ws.namesToDeclare b [r],
          isAmong (known ++ newNames known (ws.namesToDeclare b [r])) v := by
        intro v hv
        obtain ⟨s, rfl⟩ := texts v (namesToDeclare_subset (by simp) hv)
        exact isAmong_newNames (same_str_iff.2 rfl) hv
      rw [List.eraseDups_cons, newNames_namesToDeclare_cons, others, newNames_filter_ne first,
        ← newNames_namesToDeclare_cons]

end

end Workspace

/-! ## Calls -/

theorem Value.mentionsInEntries_eq (d : Value.Entries) :
    mentionsInEntries d = mentionsInList (Dictionary.values d) := by
  induction d with
  | nil => rfl
  | cons p d ih =>
    show mentions p.2 ++ mentionsInEntries d = mentions p.2 ++ mentionsInList _
    rw [ih]
    rfl

/-- Arguments that are bound to different names are all there. -/
theorem Specification.mentions_bindArguments {spec : Specification} {arguments : Value}
    {entries : Value.Entries} (bound : spec.bindArguments arguments = .ok entries)
    (differ : ∀ vs, arguments = .list vs ∨ arguments = .tuple vs → spec.KeysDiffer vs.length) :
    mentionsInEntries entries = arguments.mentions := by
  have positional {vs : List Value} (bound : spec.bind vs = .ok entries)
      (differ : spec.KeysDiffer vs.length) : mentionsInEntries entries = mentionsInList vs := by
    obtain ⟨-, rfl, values, keys⟩ := bind_eq_named bound
    rw [Dictionary.ofEntries_of_nodup (keys.2 differ), mentionsInEntries_eq, values]
  unfold bindArguments at bound
  split at bound
  · cases bound
    rfl
  · cases bound
    rfl
  · exact positional bound (differ _ (.inl rfl))
  · exact positional bound (differ _ (.inr rfl))
  · cases bound

section
variable {ws now : Workspace} {b : BuilderRef} (h : ws.WellFormed)
  (hb : b.index < ws.builders.size)
include h hb

/-- **What a call declares.** There is a walk through the arguments of the new node, and it meets
the parameters that are reached, all of them from the given arguments. The names on the root are
those from before, followed by the names to declare that are not among them, once each and in the
order of the walk. It is the walk through the given arguments if these are bound to different
names. -/
theorem invoke_declaresWalk {process : String} {arguments description : Value}
    {space : Option String} {n : NodeRef} (hv : arguments.Within ws)
    (run : (Build.invoke b process arguments description space).run ws = (.ok n, now)) :
    ∃ walk, ws.Walk (mentionsInEntries (now.node n).arguments) walk ∧
      (∀ r, r ∈ walk ↔ ∃ x ∈ refsInEntries (now.node n).arguments, ws.Reaches x r) ∧
      (∀ r ∈ walk, ∃ x ∈ arguments.refs, ws.Reaches x r) ∧
      ((∀ v ∈ ws.namesToDeclare b walk, ∃ s, v = .str s) →
        now.parameterNames b = ws.parameterNames b ++
          newNames (ws.parameterNames b) (ws.namesToDeclare b walk)) ∧
      ∀ spec : Specification,
        (ws.catalogOf b).get? (callKey process space).1 (callKey process space).2 = some spec →
        (∀ vs, arguments = .list vs ∨ arguments = .tuple vs → spec.KeysDiffer vs.length) →
        ws.Walk arguments.mentions walk := by
  have declared := redeclares_call h hb hv run
  obtain ⟨-, grows, is, -⟩ := (Build.ensures_invoke (h.extends (fun _ => True) fun _ => True)
    (Workspace.open_of_within hb) process hv description space).of_run run
  have inside := hv.entries is.arguments
  have older : ∀ r ∈ Value.refsInEntries (now.node n).arguments, r.Below ⟨ws.nodes.size⟩ :=
    fun r hr => (inside r hr).2
  obtain ⟨walk, w⟩ := h.exists_walk (Nat.le_refl _) (Mention.below_of_refs older)
  have reached (r : ParameterRef) :
      r ∈ walk ↔ ∃ x ∈ refsInEntries (now.node n).arguments, ws.Reaches x r := by
    rw [w.mem_iff, Workspace.exists_mention_iff]
  refine ⟨walk, w, reached, fun r hr => ?_, fun texts => ?_, fun spec found differ => ?_⟩
  · obtain ⟨x, hx, hr⟩ := (reached r).1 hr
    exact ⟨x, Specification.refs_of_bindArguments is.arguments x hx, hr⟩
  · have same := h.eraseDups_discover older w
    have met (r : ParameterRef) : r ∈ ws.discover (now.node n).arguments ↔ r ∈ walk := by
      rw [h.mem_discover_iff older, reached]
    have textsFound : ∀ v ∈ ws.namesToDeclare b (ws.discover (now.node n).arguments),
        ∃ s, v = .str s :=
      fun v hv => texts v (Workspace.namesToDeclare_subset (fun r hr => (met r).1 hr) hv)
    have names : now.parameterNames b = ws.parameterNames b ++ newNames (ws.parameterNames b)
        (ws.namesToDeclare b (ws.discover (now.node n).arguments)) := by
      refine declared.parameterNames_eq (h.root_eq grows hb) fun p hp u _ eq => ?_
      obtain ⟨s, hs⟩ := textsFound p.name (List.mem_map_of_mem hp)
      rw [hs] at eq ⊢
      exact eq_str_of_same_str eq
    rw [names, ← Workspace.newNames_eraseDups textsFound, same,
      Workspace.newNames_eraseDups texts]
  · obtain rfl := Option.some.inj (found.symm.trans is.specification)
    rwa [← Specification.mentions_bindArguments is.arguments differ]

end

/-! ## A node of another process -/

/-- A process whose node mentions `scale` and then `offset`, and two empty ones. The addition of the
last one has parameters without names. -/
def Workspace.referred : Workspace :=
  let addition : Value := .list [binaryProcess "add"]
  let ws := ((Build.createBuilder addition .null none none []).run {}).2
  let ws := ((Build.newParameter (.named "offset")).run ws).2
  let ws := ((Build.newParameter (.named "scale")).run ws).2
  let ws := ((Build.invoke ⟨0⟩ "add" (.list [.parameter ⟨1⟩, .parameter ⟨0⟩])).run ws).2
  let ws := ((Build.createBuilder addition .null none none []).run ws).2
  ((Build.createBuilder (.list [.dict namelessAddition]) .null none none []).run ws).2

/-- A list with the node and `offset`, and an object with the node once more. -/
def nodeTwice : Value :=
  .list [.list [.node ⟨0⟩, .parameter ⟨0⟩], .object [("again", .tuple [.node ⟨0⟩])]]

/-- The node is met twice, its parameters are declared once and in its order. A parameter that is
lost when the arguments are bound is not declared. -/
theorem invoke_declaresWalk_referred :
    (∃ n now, (Build.invoke ⟨1⟩ "add" nodeTwice).run .referred = (.ok n, now) ∧
      now.parameterNames ⟨1⟩ = [.str "scale", .str "offset"]) ∧
    ∃ n now, (Build.invoke ⟨2⟩ "add" (.list [.parameter ⟨0⟩, .int 2])).run .referred =
      (.ok n, now) ∧ now.parameterNames ⟨2⟩ = [] := by
  have reachable : Workspace.referred.Reachable := by
    refine .operation (.operation (.operation (.operation (.operation (.operation (.refl _)
      (.createBuilder _ _ none none [] nofun)) (.newParameter _)) (.newParameter _))
      (.invoke (by decide +kernel) "add" (by decide +kernel) .null none))
      (.createBuilder _ _ none none [] nofun)) (.createBuilder _ _ none none [] nofun)
  have h := reachable.wellFormed
  constructor
  · obtain ⟨n, run⟩ := Build.exists_of_isOk
      (show ((Build.invoke ⟨1⟩ "add" nodeTwice).run .referred).1.isOk = true by decide +kernel)
    obtain ⟨walk, -, -, -, names, same⟩ :=
      invoke_declaresWalk h (by decide +kernel) (by decide +kernel) run
    have inner : mentionsInEntries (Workspace.referred.node ⟨0⟩).arguments =
        [.parameter ⟨1⟩, .parameter ⟨0⟩] := by rfl
    have into : Workspace.referred.Walk
        (mentionsInEntries (Workspace.referred.node ⟨0⟩).arguments) [⟨1⟩, ⟨0⟩] := by
      rw [inner]
      exact .parameter _ (.parameter _ .nil)
    have expected : Workspace.referred.Walk nodeTwice.mentions [⟨1⟩, ⟨0⟩, ⟨0⟩, ⟨1⟩, ⟨0⟩] :=
      .node into (.parameter _ (.node into .nil))
    have found : (Workspace.referred.catalogOf ⟨1⟩).get? (callKey "add" none).1
        (callKey "add" none).2 = some [(.str "id", .str "add"), (.str "parameters",
          .list [.object [("name", .str "x")], .object [("name", .str "y")]])] := by rfl
    obtain rfl := (same _ found (fun vs hvs => by
      rcases hvs with hvs | hvs <;> cases hvs
      decide +kernel)).unique expected
    have texts : Workspace.referred.namesToDeclare ⟨1⟩ [⟨1⟩, ⟨0⟩, ⟨0⟩, ⟨1⟩, ⟨0⟩] =
      ["scale", "offset", "offset", "scale", "offset"].map .str := by rfl
    refine ⟨n, _, run, ?_⟩
    rw [names (by rw [texts]; exact List.forall_mem_map.2 fun s _ => ⟨s, rfl⟩), texts]
    rfl
  · have result : ((Build.invoke ⟨2⟩ "add" (.list [.parameter ⟨0⟩, .int 2])).run
      .referred).1.toOption = some ⟨1⟩ := by decide +kernel
    have left : mentionsInEntries (((Build.invoke ⟨2⟩ "add" (.list [.parameter ⟨0⟩, .int 2])).run
      .referred).2.node ⟨1⟩).arguments = [] := by decide +kernel
    rcases run : (Build.invoke ⟨2⟩ "add" (.list [.parameter ⟨0⟩, .int 2])).run .referred with
      ⟨e | n, now⟩
    · rw [run] at result
      cases result
    · rw [run] at result left
      cases result
      obtain ⟨walk, w, -, -, names, -⟩ :=
        invoke_declaresWalk h (by decide +kernel) (by decide +kernel) run
      dsimp only at left
      rw [left] at w
      cases w
      exact ⟨_, now, rfl, names nofun⟩

end ProcessGraph
