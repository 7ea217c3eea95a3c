import ProcessGraph.Proofs.Graph.WellFormed

/-!
# Discovery

`ws.Reaches x r`: the parameter `r` is found from the reference `x`, maybe through the arguments of
nodes. A walk through mentions goes from left to right, and into the arguments of each node that it
meets, as often as it meets the node (`Workspace.Walk`). It meets exactly the parameters that are
reached (`Walk.mem_iff`), and there is one for all arguments (`WellFormed.exists_walk`), since nodes
mention older nodes only.

Discovery goes into a node once. It finds the same parameters in the same order, as what it leaves
out has been found before: when it meets a node again, the first visit to this node is over
(`Discovery.Done`). So it finds what is reached (`WellFormed.mem_discover_iff`), in the order of the
first visits (`WellFormed.eraseDups_discover`).
-/

set_option autoImplicit false

namespace ProcessGraph

/-! ## What is reached -/

/-- The parameters that are found from a reference, through the arguments of nodes. -/
inductive Workspace.Reaches (ws : Workspace) : Ref → ParameterRef → Prop
  | parameter (r : ParameterRef) : Reaches ws (.parameter r) r
  | node {n : NodeRef} {x : Ref} {r : ParameterRef}
      (hx : x ∈ Value.refsInEntries (ws.node n).arguments) (hr : Reaches ws x r) :
      Reaches ws (.node n) r

namespace Workspace

section
variable {ws now : Workspace} {x : Ref} {r : ParameterRef} (h : ws.WellFormed)
include h

theorem Reaches.within (hr : ws.Reaches x r) (hx : x.Within ws) : r.index < ws.parameters.size := by
  induction hr with
  | parameter r => exact hx
  | node hx' _ ih => exact ih ((h.node _ hx).arguments _ hx').1

/-- What is reached from an earlier reference was reached before. -/
theorem Reaches.of_grow (hr : now.Reaches x r) (g : ws.Grows now) (hx : x.Within ws) :
    ws.Reaches x r := by
  induction hr with
  | parameter r => exact .parameter r
  | node hx' _ ih =>
    rw [(g.node _ hx).arguments] at hx'
    exact .node hx' (ih ((h.node _ hx).arguments _ hx').1)

end

end Workspace

/-- Only parameters and nodes reach something. -/
theorem Workspace.Reaches.exists_mention {ws : Workspace} {x : Ref} {r : ParameterRef}
    (h : ws.Reaches x r) : ∃ m : Mention, m.ref = x := by
  cases h with
  | parameter r => exact ⟨.parameter r, rfl⟩
  | @node n _ _ _ _ => exact ⟨.node n, rfl⟩

theorem Workspace.reaches_parameter_iff {ws : Workspace} {p r : ParameterRef} :
    ws.Reaches (.parameter p) r ↔ r = p := by
  constructor
  · intro h
    cases h
    rfl
  · rintro rfl
    exact .parameter r

/-- What is reached from references in entries is reached from what they mention. -/
theorem Workspace.exists_mention_iff {ws : Workspace} {d : Value.Entries} {r : ParameterRef} :
    (∃ m ∈ Value.mentionsInEntries d, ws.Reaches m.ref r) ↔
      ∃ x ∈ Value.refsInEntries d, ws.Reaches x r := by
  constructor
  · rintro ⟨m, hm, reached⟩
    exact ⟨m.ref, (Value.mem_mentionsInEntries_iff d).1 hm, reached⟩
  · rintro ⟨x, hx, reached⟩
    obtain ⟨m, rfl⟩ := reached.exists_mention
    exact ⟨m, (Value.mem_mentionsInEntries_iff d).2 hx, reached⟩

theorem Workspace.reaches_node_iff {ws : Workspace} {n : NodeRef} {r : ParameterRef} :
    ws.Reaches (.node n) r ↔
      ∃ m ∈ Value.mentionsInEntries (ws.node n).arguments, ws.Reaches m.ref r := by
  rw [exists_mention_iff]
  constructor
  · rintro (_ | ⟨hx, hr⟩)
    exact ⟨_, hx, hr⟩
  · rintro ⟨x, hx, hr⟩
    exact .node hx hr

/-! ## Mentions of older nodes -/

/-- A mentioned node is older than a bound. -/
def Mention.Below (n : Nat) : Mention → Prop
  | .node r => r.index < n
  | .parameter _ => True

theorem Mention.Below.le {n m : Nat} {x : Mention} (h : x.Below n) (hnm : n ≤ m) : x.Below m := by
  cases x with
  | node r => exact Nat.lt_of_lt_of_le h hnm
  | parameter p => trivial

theorem Mention.below_of_refs {k : Nat} {d : Value.Entries}
    (hd : ∀ r ∈ Value.refsInEntries d, r.Below ⟨k⟩) :
    ∀ m ∈ Value.mentionsInEntries d, m.Below k := by
  intro m hm
  have older := hd _ ((Value.mem_mentionsInEntries_iff d).1 hm)
  cases m with
  | parameter p => trivial
  | node n => exact older

theorem Workspace.WellFormed.mentions_below {ws : Workspace} (h : ws.WellFormed) {n : NodeRef}
    (hn : n.index < ws.nodes.size) :
    ∀ m ∈ Value.mentionsInEntries (ws.node n).arguments, m.Below n.index :=
  Mention.below_of_refs fun r hr => ((h.node n hn).arguments r hr).2

/-! ## Walks -/

/-- The parameters on a walk through mentions, in their order and with repetitions. -/
inductive Workspace.Walk (ws : Workspace) : List Mention → List ParameterRef → Prop
  | nil : Walk ws [] []
  | parameter (r : ParameterRef) {ms : List Mention} {rs : List ParameterRef}
      (rest : Walk ws ms rs) : Walk ws (.parameter r :: ms) (r :: rs)
  | node {n : NodeRef} {ms : List Mention} {inner rs : List ParameterRef}
      (into : Walk ws (Value.mentionsInEntries (ws.node n).arguments) inner)
      (rest : Walk ws ms rs) : Walk ws (.node n :: ms) (inner ++ rs)

namespace Workspace.Walk

variable {ws : Workspace} {ms : List Mention} {rs rs' : List ParameterRef}

theorem unique (w : ws.Walk ms rs) (w' : ws.Walk ms rs') : rs = rs' := by
  induction w generalizing rs' with
  | nil =>
    cases w'
    rfl
  | parameter r _ ih =>
    cases w' with
    | parameter _ rest => rw [ih rest]
  | node _ _ ihInto ihRest =>
    cases w' with
    | node into rest => rw [ihInto into, ihRest rest]

/-- A walk meets what is reached, and nothing else. -/
theorem mem_iff (w : ws.Walk ms rs) {r : ParameterRef} :
    r ∈ rs ↔ ∃ m ∈ ms, ws.Reaches m.ref r := by
  induction w with
  | nil => simp
  | parameter p _ ih =>
    simp only [List.mem_cons, exists_eq_or_imp, Mention.ref, reaches_parameter_iff, ih]
  | node _ _ ihInto ihRest =>
    simp only [List.mem_append, List.mem_cons, exists_eq_or_imp, Mention.ref, reaches_node_iff,
      ihInto, ihRest]

end Workspace.Walk

/-- There is a walk through mentions of nodes that are old enough. -/
theorem Workspace.WellFormed.exists_walk {ws : Workspace} (h : ws.WellFormed) {k : Nat}
    (hk : k ≤ ws.nodes.size) {ms : List Mention} (below : ∀ m ∈ ms, m.Below k) :
    ∃ rs, ws.Walk ms rs := by
  induction k using Nat.strongRecOn generalizing ms with
  | _ k older =>
    induction ms with
    | nil => exact ⟨[], .nil⟩
    | cons m ms ih =>
      obtain ⟨rs, rest⟩ := ih fun m hm => below m (List.mem_cons_of_mem _ hm)
      cases m with
      | parameter p => exact ⟨p :: rs, .parameter p rest⟩
      | node n =>
        have hn : n.index < k := below _ List.mem_cons_self
        have inside := Nat.lt_of_lt_of_le hn hk
        obtain ⟨inner, into⟩ := older n.index hn (Nat.le_of_lt inside) (h.mentions_below inside)
        exact ⟨inner ++ rs, .node into rest⟩

/-! ## First visits -/

section
variable {α : Type} [BEq α] [LawfulBEq α] {as bs cs : List α}

theorem eraseDups_append_of_subset (h : bs ⊆ as) : (as ++ bs).eraseDups = as.eraseDups := by
  have none : bs.removeAll as = [] := by
    unfold List.removeAll
    rw [List.filter_eq_nil_iff]
    intro b hb
    simp [h hb]
  rw [List.eraseDups_append, none, List.eraseDups_nil, List.append_nil]

theorem eraseDups_append_congr (h : as.eraseDups = bs.eraseDups) :
    (as ++ cs).eraseDups = (bs ++ cs).eraseDups := by
  have mem (c : α) : c ∈ as ↔ c ∈ bs := by rw [← List.mem_eraseDups, h, List.mem_eraseDups]
  have same : cs.removeAll as = cs.removeAll bs := by
    unfold List.removeAll
    refine List.filter_congr fun c _ => ?_
    rw [Bool.eq_iff_iff]
    simp [mem]
  rw [List.eraseDups_append, List.eraseDups_append, h, same]

end

namespace Discovery

/-- Of the nodes below a bound that have been visited, everything has been found. -/
def Done (ws : Workspace) (k : Nat) (found : Discovery) : Prop :=
  ∀ n ∈ found.visited, n.index < k → ∀ r, ws.Reaches (.node n) r → r ∈ found.parameters

/-- A discovery goes on as far as a walk through nodes below a bound. -/
structure Follows (ws : Workspace) (k : Nat) (walk : List ParameterRef) (found now : Discovery) :
    Prop where
  parameters : now.parameters.eraseDups = (found.parameters ++ walk).eraseDups
  visited : ∀ n ∈ now.visited, n ∈ found.visited ∨ n.index < k
  done : now.Done ws k

section
variable {ws : Workspace} {k : Nat} {walk more : List ParameterRef} {found now after : Discovery}

theorem Follows.mem_iff (f : Follows ws k walk found now) {r : ParameterRef} :
    r ∈ now.parameters ↔ r ∈ found.parameters ∨ r ∈ walk := by
  rw [← List.mem_eraseDups, f.parameters, List.mem_eraseDups, List.mem_append]

theorem Follows.trans (f : Follows ws k walk found now) (g : Follows ws k more now after) :
    Follows ws k (walk ++ more) found after where
  parameters := by
    rw [g.parameters, eraseDups_append_congr f.parameters, List.append_assoc]
  visited n hn := (g.visited n hn).elim (f.visited n) .inr
  done := g.done

theorem follows_nil (done : found.Done ws k) : Follows ws k [] found found where
  parameters := by rw [List.append_nil]
  visited _ hn := .inl hn
  done := done

/-- A parameter is found when it is met. -/
theorem follows_parameter (done : found.Done ws k) (r : ParameterRef) :
    Follows ws k [r] found { found with parameters := found.parameters ++ [r] } where
  parameters := rfl
  visited _ hn := .inl hn
  done n hn below r hr := List.mem_append_left _ (done n hn below r hr)

section
variable {n : NodeRef} (reached : ∀ r, r ∈ walk ↔ ws.Reaches (.node n) r)
include reached

/-- Nothing is missed at a node that has been visited. -/
theorem follows_visited (done : found.Done ws k) (hn : n ∈ found.visited) (below : n.index < k) :
    Follows ws k walk found found where
  parameters := by
    refine (eraseDups_append_of_subset fun r hr => ?_).symm
    exact done n hn below r ((reached r).1 hr)
  visited _ hm := .inl hm
  done := done

/-- After a visit to a node all that is reached from it has been found. Inside, this node counts
as visited, but it is not met, as its arguments mention older nodes only. -/
theorem follows_node (done : found.Done ws k) (below : n.index < k)
    (inner : Follows ws n.index walk { found with visited := n :: found.visited } now) :
    Follows ws k walk found now where
  parameters := inner.parameters
  visited m hm := by
    rcases inner.visited m hm with hm | older
    · rcases List.mem_cons.1 hm with rfl | hm
      · exact .inr below
      · exact .inl hm
    · exact .inr (Nat.lt_trans older below)
  done m hm hmk r hr := by
    rw [inner.mem_iff]
    rcases inner.visited m hm with before | older
    · rcases List.mem_cons.1 before with rfl | before
      · exact .inr ((reached r).2 hr)
      · exact .inl (done m before hmk r hr)
    · exact inner.mem_iff.1 (inner.done m hm older r hr)

end

/-- **Discovery follows a walk.** -/
theorem follows_walk (h : ws.WellFormed) {ms : List Mention} (w : ws.Walk ms walk) {fuel : Nat}
    (enough : k ≤ fuel) (hk : k ≤ ws.nodes.size) (below : ∀ m ∈ ms, m.Below k)
    (done : found.Done ws k) : Follows ws k walk found (ms.foldl (visit ws fuel) found) := by
  induction w generalizing k fuel found with
  | nil => exact follows_nil done
  | parameter r rest ih =>
    have first := follows_parameter done r
    have others := ih enough hk (fun m hm => below m (List.mem_cons_of_mem _ hm)) first.done
    rw [List.foldl_cons]
    cases fuel <;> exact first.trans others
  | @node n ms inner rs into rest ihInto ihRest =>
    have hn : n.index < k := below _ List.mem_cons_self
    have inside := Nat.lt_of_lt_of_le hn hk
    have reached (r : ParameterRef) : r ∈ inner ↔ ws.Reaches (.node n) r := by
      rw [into.mem_iff, Workspace.reaches_node_iff]
    have first : Follows ws k inner found (visit ws fuel found (.node n)) := by
      obtain ⟨fuel, rfl⟩ := Nat.exists_eq_add_of_lt (Nat.lt_of_lt_of_le hn enough)
      unfold visit
      by_cases hv : n ∈ found.visited
      · rw [if_pos hv]
        exact follows_visited reached done hv hn
      · rw [if_neg hv]
        refine follows_node reached done hn (ihInto (by omega) (Nat.le_of_lt inside)
          (h.mentions_below inside) fun m hm older r hr => ?_)
        rcases List.mem_cons.1 hm with rfl | hm
        · exact absurd older (Nat.lt_irrefl _)
        · exact done m hm (Nat.lt_trans older hn) r hr
    have others := ihRest enough hk (fun m hm => below m (List.mem_cons_of_mem _ hm)) first.done
    rw [List.foldl_cons]
    exact first.trans others

end

end Discovery

/-! ## What discovery finds -/

section
variable {ws : Workspace} (h : ws.WellFormed) {d : Value.Entries}
  (hd : ∀ r ∈ Value.refsInEntries d, r.Below ⟨ws.nodes.size⟩)
include h hd

theorem Workspace.WellFormed.follows_discover {walk : List ParameterRef}
    (w : ws.Walk (Value.mentionsInEntries d) walk) :
    Discovery.Follows ws ws.nodes.size walk ⟨[], []⟩
      ((Value.mentionsInEntries d).foldl (Discovery.visit ws ws.nodes.size) ⟨[], []⟩) :=
  Discovery.follows_walk h w (Nat.le_refl _) (Nat.le_refl _) (Mention.below_of_refs hd)
    fun _ hn => nomatch hn

/-- Discovery finds what a walk meets, in the order of the first visits. -/
theorem Workspace.WellFormed.eraseDups_discover {walk : List ParameterRef}
    (w : ws.Walk (Value.mentionsInEntries d) walk) :
    (ws.discover d).eraseDups = walk.eraseDups := (h.follows_discover hd w).parameters

/-- Discovery finds what is reached, and nothing else. -/
theorem Workspace.WellFormed.mem_discover_iff {r : ParameterRef} :
    r ∈ ws.discover d ↔ ∃ x ∈ Value.refsInEntries d, ws.Reaches x r := by
  obtain ⟨walk, w⟩ := h.exists_walk (Nat.le_refl _) (Mention.below_of_refs hd)
  have met : r ∈ ws.discover d ↔ r ∈ walk := by
    rw [← List.mem_eraseDups, h.eraseDups_discover hd w, List.mem_eraseDups]
  rw [met, w.mem_iff, Workspace.exists_mention_iff]

end

/-- What is found depends on the nodes only. -/
theorem Discovery.visit_congr {ws now : Workspace} (same : now.nodes = ws.nodes) (n : Nat) :
    visit now n = visit ws n := by
  induction n with
  | zero =>
    funext found m
    cases m <;> rfl
  | succ n ih =>
    funext found m
    cases m with
    | parameter r => rfl
    | node r =>
      unfold visit
      rw [ih, Workspace.node, Workspace.node, same]

theorem Workspace.discover_congr {ws now : Workspace} (same : now.nodes = ws.nodes)
    (d : Value.Entries) : now.discover d = ws.discover d := by
  unfold discover
  rw [Discovery.visit_congr same, same]

end ProcessGraph
