import ProcessGraph.Proofs.Graph.NewIds
import ProcessGraph.Proofs.Text.Numerals

/-!
# Ids that are handed out

A builder hands out ids to those who ask for one, and to the nodes of calls (`Workspace.Issues`). A
new id is compared with the ids of nodes, and numbers of one stem are not used twice. But an id that
was handed out and is not the id of a node is not remembered, and another stem may spell it: `a11`
has the number 1 behind `a1` and the number 11 behind `a`.

This is the only way in which an id is handed out again (`issued_ids`): the id was not that of a
node, and one of the two stems looks like an id of the other. For names of which no stem looks like
an id of another one, all ids are different, and for all others some sequence of requests gets an id
twice.
-/

set_option autoImplicit false

namespace ProcessGraph

/-! ## Ids of different stems -/

/-- A text looks like an id of a stem. -/
def LooksLikeId (stem s : String) : Prop := ∃ k, 0 < k ∧ s = numberedId stem k

/-- Ids of different stems are the same only if one stem looks like an id of the other. -/
theorem looksLikeId_of_numberedId_eq {s t : String} {m n : Nat} (hm : 0 < m) (hn : 0 < n)
    (same : numberedId s m = numberedId t n) (other : s ≠ t) :
    LooksLikeId t s ∨ LooksLikeId s t := by
  have same := congrArg String.toList same
  simp only [numberedId, String.toList_append] at same
  have longer {s t : String} {x ds : List Char} {m : Nat} (hm : 0 < m) (other : s ≠ t)
      (h : t.toList = s.toList ++ x) (digits : (toString m).toList = x ++ ds) :
      LooksLikeId s t := by
    have some : x ≠ [] := by
      rintro rfl
      rw [List.append_nil] at h
      exact other (String.toList_inj.1 h.symm)
    obtain ⟨k, hk, rfl⟩ := Text.exists_numeral_of_append hm some digits
    exact ⟨k, hk, String.toList_inj.1 (h.trans String.toList_append.symm)⟩
  obtain ⟨x, ht, digits⟩ | ⟨x, hs, digits⟩ := List.append_eq_append_iff.1 same
  · exact .inr (longer hm other ht digits)
  · exact .inl (longer hn other.symm hs digits)

/-- If a stem looks like an id of another one, then the ids of the first are ids of the other, with
numbers that are no smaller. -/
theorem LooksLikeId.exists_number {s t : String} (h : LooksLikeId t s) (n : Nat) :
    ∃ v, n ≤ v ∧ numberedId t v = numberedId s n := by
  obtain ⟨k, hk, rfl⟩ := h
  obtain ⟨v, le, digits⟩ := Text.exists_numeral_append hk n
  refine ⟨v, le, String.toList_inj.1 ?_⟩
  simp only [numberedId, String.toList_append]
  rw [digits, List.append_assoc]

theorem LooksLikeId.ne {s t : String} (h : LooksLikeId t s) : s ≠ t := by
  obtain ⟨k, -, rfl⟩ := h
  intro same
  have same := congrArg String.toList same
  rw [numberedId, String.toList_append, List.append_right_eq_self, Text.toList_toString] at same
  exact Nat.toDigits_ne_nil same

/-! ## Numbers that have been used up -/

namespace Builder

theorem lastNumber_useUpTo_of_ne {s stem : String} (h : s ≠ stem) (b : Builder) (n : Nat) :
    (b.useUpTo stem n).lastNumber s = b.lastNumber s := by
  unfold lastNumber useUpTo
  rw [Dictionary.get?_insert_of_ne h]

/-- Numbers are not given back. -/
theorem lastNumber_le_useUpTo {b : Builder} {stem : String} {n : Nat} (h : b.lastNumber stem ≤ n)
    (s : String) : b.lastNumber s ≤ (b.useUpTo stem n).lastNumber s := by
  by_cases same : s = stem
  · rw [same, lastNumber_useUpTo]
    exact h
  · rw [lastNumber_useUpTo_of_ne same]

theorem lastNumber_congr {b c : Builder} (h : b.counters = c.counters) (s : String) :
    b.lastNumber s = c.lastNumber s := by
  unfold lastNumber
  rw [h]

/-- Some greater number makes a free id. -/
theorem exists_free (b : Builder) (stem : String) (n : Nat) :
    ∃ c, n < c ∧ numberedId stem c ∉ b.nodes.keys := by
  refine ⟨firstFree b.nodes.keys stem b.nodes.length (n + 1), le_firstFree .., ?_⟩
  exact numberedId_firstFree_not_mem (by simp [Dictionary.keys])

end Builder

/-! ## What is handed out -/

/-- An id that has been handed out. -/
structure Issue where
  /-- What the id is called after. -/
  name : String
  id : String
  /-- Is it the id of a node? -/
  ofNode : Bool

/-- The stem of an id that a builder hands out. -/
def Builder.stem (b : Builder) (name : String) : String := idStem b.settings.idStemLength name

namespace Workspace

/-- Requests to a builder, one after the other, and the ids that it has handed out: one for each
that is asked for, and one for the node of each call that does not fail. -/
inductive Issues (b : BuilderRef) (ws : Workspace) : List Issue → Workspace → Prop where
  | refl : Issues b ws [] ws
  | generateId {issues : List Issue} {now after : Workspace} (h : Issues b ws issues now)
      {name id : String} (run : (Build.generateId b name).run now = (.ok id, after)) :
      Issues b ws (issues ++ [⟨name, id, false⟩]) after
  | call {issues : List Issue} {now after : Workspace} (h : Issues b ws issues now)
      {process : String} {arguments description : Value} {space : Option String} {n : NodeRef}
      (hv : arguments.Within now)
      (run : (Build.invoke b process arguments description space).run now = (.ok n, after)) :
      Issues b ws (issues ++ [⟨(callKey process space).1, (after.node n).id, true⟩]) after
  | failure {issues : List Issue} {now after : Workspace} (h : Issues b ws issues now)
      {process : String} {arguments description : Value} {space : Option String} {e : Failure}
      (hv : arguments.Within now)
      (run : (Build.invoke b process arguments description space).run now = (.error e, after)) :
      Issues b ws issues after

/-- No node and no number of a builder is given back. -/
structure KeepsIds (b : BuilderRef) (ws now : Workspace) : Prop where
  wellFormed : now.WellFormed
  grows : ws.Grows now
  numbers : ∀ stem, (ws.builder b).lastNumber stem ≤ (now.builder b).lastNumber stem
  ids : (ws.builder b).nodes.keys ⊆ (now.builder b).nodes.keys

/-- An id has been handed out. It is free, its number has been used up, and if it is the id of a
node then this is registered. -/
structure HandsOut (b : BuilderRef) (ws now : Workspace) (i : Issue) : Prop extends
    KeepsIds b ws now where
  free : i.id ∉ (ws.builder b).nodes.keys
  number : ∃ n, i.id = numberedId ((ws.builder b).stem i.name) n ∧
    (ws.builder b).lastNumber ((ws.builder b).stem i.name) < n ∧
    n ≤ (now.builder b).lastNumber ((ws.builder b).stem i.name)
  registered : i.ofNode → i.id ∈ (now.builder b).nodes.keys

section
variable {b : BuilderRef} {ws now : Workspace} {name : String}

theorem builder_numbered (hb : b.index < ws.builders.size) (name : String) :
    (ws.numbered b name).builder b = (ws.builder b).useUpTo ((ws.builder b).stem name)
      ((ws.builder b).nextNumber ((ws.builder b).stem name)) := by
  show (ws.modifyBuilder b fun builder => builder.useUpTo _ _).builder b = _
  rw [builder_modifyBuilder, if_pos ⟨rfl, hb⟩]
  rfl

/-- A number has been used up, and nodes may have been registered. -/
theorem KeepsIds.of_numbered (hb : b.index < ws.builders.size) (h : now.WellFormed)
    (g : ws.Grows now)
    (counters : (now.builder b).counters = ((ws.numbered b name).builder b).counters)
    (ids : (ws.builder b).nodes.keys ⊆ (now.builder b).nodes.keys) : ws.KeepsIds b now := by
  refine ⟨h, g, fun s => ?_, ids⟩
  rw [Builder.lastNumber_congr counters, builder_numbered hb]
  exact Builder.lastNumber_le_useUpTo (Nat.le_of_lt (Builder.lastNumber_lt_nextNumber ..)) s

/-- The id with this number has been handed out. -/
theorem KeepsIds.handsOut {i : Issue} (keeps : ws.KeepsIds b now)
    (hb : b.index < ws.builders.size)
    (counters : (now.builder b).counters = ((ws.numbered b i.name).builder b).counters)
    (id : i.id = numberedId ((ws.builder b).stem i.name)
      ((ws.builder b).nextNumber ((ws.builder b).stem i.name)))
    (registered : i.ofNode → i.id ∈ (now.builder b).nodes.keys) : ws.HandsOut b now i := by
  refine ⟨keeps, ?_, ⟨_, id, Builder.lastNumber_lt_nextNumber .., ?_⟩, registered⟩
  · rw [id]
    exact (ws.builder b).numberedId_nextNumber_not_mem _
  · rw [Builder.lastNumber_congr counters, builder_numbered hb, Builder.lastNumber_useUpTo]

/-- A node that has been made has a new id. What happens to the numbers is that this one is used
up. -/
theorem numbered_of_makeNode {process : String} {arguments description : Value}
    {space : Option String} {n : NodeRef}
    (run : (Build.makeNode b process arguments description space).run ws = (.ok n, now)) :
    (now.node n).id = numberedId ((ws.builder b).stem process)
      ((ws.builder b).nextNumber ((ws.builder b).stem process)) ∧
    (now.builder b).counters = ((ws.numbered b process).builder b).counters := by
  obtain ⟨spec, entries, id, numbered, declared, -, -, hid, hdeclared, pushed⟩ :=
    Build.makeNode_eq_ok run
  have counters : (declared.builder b).counters = (numbered.builder b).counters :=
    (frame_sameCounters.keeps_declareAll b _).of_run hdeclared b
  have id_eq : Except.ok _ = Except.ok id := congrArg Prod.fst hid
  have numbered_eq : ws.numbered b process = numbered := congrArg Prod.snd hid
  cases pushed
  constructor
  · show ((declared.nodes.push _).get declared.nodes.size).id = _
    rw [Arena.get_push_size]
    exact (Except.ok.inj id_eq).symm
  · rw [numbered_eq]
    exact counters

/-- To register the node leaves the numbers alone. -/
theorem numbered_of_invoke {process : String} {arguments description : Value}
    {space : Option String} {n : NodeRef}
    (run : (Build.invoke b process arguments description space).run ws = (.ok n, now)) :
    (now.node n).id = numberedId ((ws.builder b).stem (callKey process space).1)
      ((ws.builder b).nextNumber ((ws.builder b).stem (callKey process space).1)) ∧
    (now.builder b).counters =
      ((ws.numbered b (callKey process space).1).builder b).counters := by
  obtain ⟨made, r, hmade, rfl⟩ := Build.invoke_eq_makeNode run
  obtain ⟨id, numbers⟩ := numbered_of_makeNode hmade
  have kept := field_modifyBuilder
    (f := fun builder => { builder with
      nodes := Dictionary.insert (made.node n).id n builder.nodes })
    (·.counters) made b b fun _ => rfl
  exact ⟨id, kept.trans numbers⟩

section
variable (h : ws.WellFormed) (hb : b.index < ws.builders.size)
include h hb

theorem handsOut_generateId {id : String}
    (run : (Build.generateId b name).run ws = (.ok id, now)) :
    ws.HandsOut b now ⟨name, id, false⟩ := by
  obtain ⟨ext, g, -⟩ := (Build.ensures_generateId (h.extends (fun _ => True) fun _ => True)
    (open_of_within hb) name).of_run run
  cases run
  have keeps : ws.KeepsIds b (ws.numbered b name) := by
    refine .of_numbered hb ext.wellFormed g rfl ?_
    rw [builder_numbered hb]
    exact List.Subset.refl _
  exact keeps.handsOut hb rfl rfl nofun

variable {process : String} {arguments description : Value} {space : Option String}
  (hv : arguments.Within ws)
include hv

theorem handsOut_call {n : NodeRef}
    (run : (Build.invoke b process arguments description space).run ws = (.ok n, now)) :
    ws.HandsOut b now ⟨(callKey process space).1, (now.node n).id, true⟩ := by
  obtain ⟨ext, g, -, -, -, registered, -⟩ := (Build.ensures_invoke (h.extends (fun _ => True)
    fun _ => True) (open_of_within hb) process hv description space).of_run run
  obtain ⟨id, counters⟩ := numbered_of_invoke run
  have keys : (now.builder b).nodes.keys = (ws.builder b).nodes.keys ++ [(now.node n).id] := by
    rw [registered]
    exact List.map_append
  have keeps : ws.KeepsIds b now := .of_numbered hb ext.wellFormed g counters
    (keys ▸ List.subset_append_left _ _)
  refine keeps.handsOut hb counters id fun _ => ?_
  rw [keys]
  exact List.mem_append_right _ List.mem_cons_self

/-- A call that fails may lose a number. -/
theorem keepsIds_failure {e : Failure}
    (run : (Build.invoke b process arguments description space).run ws = (.error e, now)) :
    ws.KeepsIds b now := by
  obtain ⟨ext, g, -⟩ := Build.ensures_invoke (h.extends (fun _ => True) fun _ => True)
    (open_of_within hb) process hv description space
  rw [run] at ext g
  rcases Build.makeNode_eq_error (Build.invoke_eq_error run) with rfl | ⟨_, _, -, -, declared⟩
  · exact ⟨h, g, fun _ => Nat.le_refl _, List.Subset.refl _⟩
  · have counters := (frame_sameCounters.keeps_declareAll b _).of_run declared b
    have same := (frame_sameRegistered.keeps_makeNode sameRegistered_of_numbering b _ _ _ _).of_run
      (Build.invoke_eq_error run) b
    refine .of_numbered hb ext.wellFormed g counters ?_
    rw [same]
    exact List.Subset.refl _

end

end

/-! ## Sequences of requests -/

/-- What has become of a builder that has handed out ids: it has given back nothing, the ids were
free when it began, and of two that are the same the first one is not that of a node, and the stem
of one looks like an id of the stem of the other. -/
structure Accounts (b : BuilderRef) (ws now : Workspace) (issues : List Issue) : Prop extends
    KeepsIds b ws now where
  free : ∀ i ∈ issues, i.id ∉ (ws.builder b).nodes.keys
  registered : ∀ i ∈ issues, i.ofNode → i.id ∈ (now.builder b).nodes.keys
  numbered : ∀ i ∈ issues, ∃ n, 0 < n ∧ i.id = numberedId ((ws.builder b).stem i.name) n ∧
    n ≤ (now.builder b).lastNumber ((ws.builder b).stem i.name)
  apart : issues.Pairwise fun i j => i.id = j.id → ¬ i.ofNode ∧
    (LooksLikeId ((ws.builder b).stem i.name) ((ws.builder b).stem j.name) ∨
      LooksLikeId ((ws.builder b).stem j.name) ((ws.builder b).stem i.name))

variable {b : BuilderRef} {ws now after : Workspace} {issues : List Issue}

theorem KeepsIds.stem (h : ws.KeepsIds b now) (hb : b.index < ws.builders.size) (name : String) :
    (now.builder b).stem name = (ws.builder b).stem name := by
  unfold Builder.stem
  rw [(h.grows.builder b hb).2.1]

theorem KeepsIds.refl (h : ws.WellFormed) : ws.KeepsIds b ws :=
  ⟨h, .refl ws, fun _ => Nat.le_refl _, List.Subset.refl _⟩

theorem KeepsIds.trans (h : ws.KeepsIds b now) (h' : now.KeepsIds b after) :
    ws.KeepsIds b after where
  wellFormed := h'.wellFormed
  grows := h.grows.trans h'.grows
  numbers stem := Nat.le_trans (h.numbers stem) (h'.numbers stem)
  ids := List.Subset.trans h.ids h'.ids

theorem Accounts.keep (h : ws.Accounts b now issues) (keeps : now.KeepsIds b after) :
    ws.Accounts b after issues where
  toKeepsIds := h.toKeepsIds.trans keeps
  free := h.free
  registered i hi node := keeps.ids (h.registered i hi node)
  numbered i hi := by
    obtain ⟨n, pos, id, le⟩ := h.numbered i hi
    exact ⟨n, pos, id, Nat.le_trans le (keeps.numbers _)⟩
  apart := h.apart

/-- A new id is apart from those of nodes because it is free, and from those of its stem because its
number is greater. -/
theorem Accounts.issue (h : ws.Accounts b now issues) (hb : b.index < ws.builders.size) {i : Issue}
    (new : now.HandsOut b after i) : ws.Accounts b after (issues ++ [i]) := by
  have kept := h.keep new.toKeepsIds
  obtain ⟨n, id, above, le⟩ := new.number
  rw [h.stem hb] at id above le
  have pos : 0 < n := Nat.lt_of_le_of_lt (Nat.zero_le _) above
  refine ⟨kept.toKeepsIds, ?_, ?_, ?_, ?_⟩
  · exact List.forall_mem_append.2 ⟨h.free, List.forall_mem_singleton.2 fun old =>
      new.free (h.ids old)⟩
  · exact List.forall_mem_append.2 ⟨kept.registered, List.forall_mem_singleton.2 new.registered⟩
  · exact List.forall_mem_append.2 ⟨kept.numbered,
      List.forall_mem_singleton.2 ⟨n, pos, id, le⟩⟩
  · refine List.pairwise_append.2 ⟨h.apart, List.pairwise_singleton .., fun j hj k hk same => ?_⟩
    cases List.mem_singleton.1 hk
    obtain ⟨m, hm, old, used⟩ := h.numbered j hj
    refine ⟨fun node => new.free (same ▸ h.registered j hj node), ?_⟩
    by_cases stems : (ws.builder b).stem j.name = (ws.builder b).stem i.name
    · rw [stems] at old used
      have numbers := numberedId_injective (old.symm.trans (same.trans id))
      omega
    · exact (looksLikeId_of_numberedId_eq hm pos (old.symm.trans (same.trans id)) stems).symm

/-- All requests are accounted for, by induction on them. -/
theorem Issues.accounts (run : ws.Issues b issues now) (h : ws.WellFormed)
    (hb : b.index < ws.builders.size) : ws.Accounts b now issues := by
  induction run with
  | refl =>
    exact ⟨.refl h, List.forall_mem_nil _, List.forall_mem_nil _, List.forall_mem_nil _, .nil⟩
  | generateId _ run ih =>
    have hb' := Nat.lt_of_lt_of_le hb ih.grows.builders
    exact ih.issue hb (handsOut_generateId ih.wellFormed hb' run)
  | call _ hv run ih =>
    have hb' := Nat.lt_of_lt_of_le hb ih.grows.builders
    exact ih.issue hb (handsOut_call ih.wellFormed hb' hv run)
  | failure _ hv run ih =>
    have hb' := Nat.lt_of_lt_of_le hb ih.grows.builders
    exact ih.keep (keepsIds_failure ih.wellFormed hb' hv run)

/-! ## Ids that are handed out twice -/

/-- To ask for ids of a stem again and again gets any free one that is left, in the end, by
induction on how far its number is. -/
theorem Issues.exists_of_free (run : ws.Issues b issues now) (hb : b.index < now.builders.size)
    {name stem : String} (hstem : (now.builder b).stem name = stem) {v : Nat}
    (above : (now.builder b).lastNumber stem < v)
    (free : numberedId stem v ∉ (now.builder b).nodes.keys) :
    ∃ more after, ws.Issues b (issues ++ more ++ [⟨name, numberedId stem v, false⟩]) after ∧
      (∀ i ∈ more, i.name = name) ∧ b.index < after.builders.size ∧
      after.builder b = (now.builder b).useUpTo stem v := by
  induction d : v - (now.builder b).lastNumber stem using Nat.strongRecOn
    generalizing issues now with
  | ind d ih =>
    let n := (now.builder b).nextNumber stem
    have next : (now.builder b).lastNumber stem < n := (now.builder b).lastNumber_lt_nextNumber stem
    have le : n ≤ v := ((now.builder b).isLeast_nextNumber stem).2 ⟨above, free⟩
    have asked : (Build.generateId b name).run now =
        (.ok (numberedId stem n), now.numbered b name) := by
      subst hstem
      rfl
    have used : (now.numbered b name).builder b = (now.builder b).useUpTo stem n := by
      subst hstem
      exact builder_numbered hb name
    have hb' : b.index < (now.numbered b name).builders.size := by
      show b.index < (now.builders.modify b.index _).size
      rwa [Arena.size_modify]
    have first := run.generateId asked
    rcases Nat.eq_or_lt_of_le le with same | lt
    · rw [same] at first used
      refine ⟨[], _, ?_, List.forall_mem_nil _, hb', used⟩
      rwa [List.append_nil]
    · have last : ((now.numbered b name).builder b).lastNumber stem = n := by
        rw [used, Builder.lastNumber_useUpTo]
      obtain ⟨more, after, requests, names, hb'', whole⟩ := ih _ (by rw [last]; omega) first hb'
        (by rw [used]; exact hstem) (by rw [last]; exact lt) (by rw [used]; exact free) rfl
      refine ⟨⟨name, numberedId stem n, false⟩ :: more, after, ?_, ?_, hb'', ?_⟩
      · rwa [List.append_cons issues]
      · exact List.forall_mem_cons.2 ⟨rfl, names⟩
      · rw [whole, used, Builder.useUpTo_useUpTo]

/-- If the stem of a name looks like an id of the stem of another one, then to ask for ids that are
called after the two gets one of them twice. -/
theorem exists_issues_twice (hb : b.index < ws.builders.size) {s t : String}
    (looks : LooksLikeId ((ws.builder b).stem t) ((ws.builder b).stem s)) :
    ∃ issues now, ws.Issues b issues now ∧ (∀ i ∈ issues, i.name = s ∨ i.name = t) ∧
      ¬ (issues.map Issue.id).Nodup := by
  generalize hσ : (ws.builder b).stem s = σ at looks
  generalize hτ : (ws.builder b).stem t = τ at looks
  -- A number that both stems have not come to yet.
  obtain ⟨c, above, free⟩ := (ws.builder b).exists_free σ
    (max ((ws.builder b).lastNumber σ) ((ws.builder b).lastNumber τ))
  obtain ⟨above, above'⟩ := Nat.max_lt.1 above
  obtain ⟨more, now, requests, names, hb', whole⟩ :=
    Issues.refl.exists_of_free hb hσ above free
  -- The other stem spells the id with a number that is no smaller.
  obtain ⟨v, le, spelled⟩ := looks.exists_number c
  have last : (now.builder b).lastNumber τ = (ws.builder b).lastNumber τ := by
    rw [whole, Builder.lastNumber_useUpTo_of_ne looks.ne.symm]
  have hτ' : (now.builder b).stem t = τ := by rw [whole]; exact hτ
  have free' : numberedId τ v ∉ (now.builder b).nodes.keys := by rw [whole, spelled]; exact free
  obtain ⟨more', after, requests', names', -, -⟩ :=
    requests.exists_of_free hb' hτ' (last ▸ Nat.lt_of_lt_of_le above' le) free'
  refine ⟨_, after, requests', ?_, fun different => ?_⟩
  · have first : ∀ i ∈ [] ++ more ++ [⟨s, numberedId σ c, false⟩], i.name = s :=
      List.forall_mem_append.2 ⟨names, List.forall_mem_singleton.2 rfl⟩
    have second : ∀ i ∈ more' ++ [⟨t, numberedId τ v, false⟩], i.name = t :=
      List.forall_mem_append.2 ⟨names', List.forall_mem_singleton.2 rfl⟩
    rw [List.append_assoc _ more']
    exact List.forall_mem_append.2 ⟨fun i hi => .inl (first i hi), fun i hi => .inr (second i hi)⟩
  · have apart := (List.pairwise_append.1 (List.pairwise_map.1 different)).2.2
    exact apart ⟨s, numberedId σ c, false⟩ (by simp) _ List.mem_cons_self spelled.symm

/-- **Ids that are handed out.** Ids of the nodes that there are, or that are made, are not handed
out again. Another id is handed out again only if the stem of one of the two requests looks like an
id of the stem of the other. So requests under certain names always get different ids if and only if
no stem of these names looks like an id of one of them. -/
theorem issued_ids (h : ws.Reachable) (hb : b.index < ws.builders.size) :
    (∀ issues now, ws.Issues b issues now →
      (∀ i ∈ issues, i.id ∉ (ws.builder b).nodes.keys) ∧
      issues.Pairwise fun i j => i.id = j.id → ¬ i.ofNode ∧
        (LooksLikeId ((ws.builder b).stem i.name) ((ws.builder b).stem j.name) ∨
          LooksLikeId ((ws.builder b).stem j.name) ((ws.builder b).stem i.name))) ∧
    ∀ names : Set String,
      (∀ issues now, ws.Issues b issues now → (∀ i ∈ issues, i.name ∈ names) →
        (issues.map Issue.id).Nodup) ↔
      ∀ s ∈ names, ∀ t ∈ names, ¬ LooksLikeId ((ws.builder b).stem t) ((ws.builder b).stem s) := by
  refine ⟨fun issues now run => ?_, fun names => ⟨fun different s hs t ht looks => ?_, ?_⟩⟩
  · have accounts := run.accounts h.wellFormed hb
    exact ⟨accounts.free, accounts.apart⟩
  · obtain ⟨issues, now, run, called, twice⟩ := exists_issues_twice hb looks
    refine twice (different issues now run fun i hi => ?_)
    obtain called | called := called i hi
    · exact called ▸ hs
    · exact called ▸ ht
  · intro apart issues now run called
    have accounts := run.accounts h.wellFormed hb
    refine List.pairwise_map.2 (accounts.apart.imp_of_mem fun {i j} hi hj different same => ?_)
    obtain ⟨-, looks | looks⟩ := different same
    · exact apart j.name (called j hj) i.name (called i hi) looks
    · exact apart i.name (called i hi) j.name (called j hj) looks

/-- A builder with the node `1 + 2`. -/
def summed : Workspace :=
  ((Build.invoke ⟨0⟩ "add" (.list [.int 1, .int 2])).run .arithmetic).2

/-- The id of the node is not handed out again. But whoever asks for ids that are called after `a1`
and `a` can get one twice. -/
theorem issued_ids_summed :
    (∀ issues now, summed.Issues ⟨0⟩ issues now → ∀ i ∈ issues, i.id ≠ "add1") ∧
    ∃ issues now, summed.Issues ⟨0⟩ issues now ∧
      (∀ i ∈ issues, i.name ∈ ({"a1", "a"} : Set String)) ∧ ¬ (issues.map Issue.id).Nodup := by
  have reachable : summed.Reachable := .operation Workspace.reachable_arithmetic
    (.invoke (by decide +kernel) "add" (Value.within_of_refs_eq_nil rfl) .null none)
  have nodes : (summed.builder ⟨0⟩).nodes.keys = ["add1"] := by decide +kernel
  obtain ⟨free, different⟩ := issued_ids reachable (b := ⟨0⟩) (by decide +kernel)
  refine ⟨fun issues now run i hi same => ?_, ?_⟩
  · exact (free issues now run).1 i hi (nodes ▸ same ▸ List.mem_cons_self)
  · by_contra none
    have looks : LooksLikeId ((summed.builder ⟨0⟩).stem "a") ((summed.builder ⟨0⟩).stem "a1") :=
      ⟨1, by decide, by decide +kernel⟩
    refine (different {"a1", "a"}).1 (fun issues now run called => ?_) "a1" (.inl rfl) "a"
      (.inr rfl) looks
    by_contra twice
    exact none ⟨issues, now, run, called, twice⟩

end Workspace

end ProcessGraph
