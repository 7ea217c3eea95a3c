import ProcessGraph.Graph.Shortcut
import ProcessGraph.Proofs.Dictionary
import ProcessGraph.Proofs.Graph.Contract

/-!
# Catalogs as ordered maps

Specifications are added one after the other, and what is no specification is refused
(`Catalog.Addition.Describes`). What is accepted are entries that are written one after the other,
from the value that the catalog is made of (`Catalog.ofValue_afterAdding`), so that the laws of
dictionaries say what a catalog holds.

Main statement: a catalog is an ordered map of what was accepted last for each key, with the keys
in the order in which something was first accepted for them (`additions_ordered`). A builder to
whose catalog specifications are added finds the same there, and an addition that is refused
changes nothing.
-/

set_option autoImplicit false

namespace ProcessGraph

open Dictionary

/-! ## Additions -/

/-- An attempt to add a value to a catalog. -/
structure Catalog.Addition where
  value : Value
  space : Option String

namespace Catalog.Addition

variable {a : Addition} {id : String} {spec : Specification}

/-- The value is a specification: an object with a non-empty text for an id. -/
structure Describes (a : Addition) (id : String) (spec : Specification) : Prop where
  object : a.value = .dict spec
  named : Value.field "id" spec = .str id
  nonempty : id ≠ ""

/-- The entry that is written, if the value is a specification. -/
def entry? (a : Addition) : Option (ProcessKey × Specification) :=
  match Catalog.checkedId a.value with
  | .ok (id, spec) => some ((a.space, id), spec)
  | .error _ => none

/-- The key of the process, if the value is a specification. -/
def key? (a : Addition) : Option ProcessKey := a.entry?.map (·.1)

theorem checkedId_eq_ok_iff : Catalog.checkedId a.value = .ok (id, spec) ↔ a.Describes id spec := by
  constructor
  · intro h
    unfold Catalog.checkedId at h
    split at h
    · rename_i entries object
      split at h
      · rename_i id' field
        split at h
        · cases h
        · rename_i nonempty
          cases h
          exact ⟨object, field, nonempty⟩
      · cases h
    · cases h
  · rintro ⟨object, field, nonempty⟩
    simp only [Catalog.checkedId, object, field, if_neg nonempty]

theorem entry?_eq_some_iff {key : ProcessKey} :
    a.entry? = some (key, spec) ↔ a.space = key.1 ∧ a.Describes key.2 spec := by
  rw [← checkedId_eq_ok_iff]
  unfold entry?
  constructor
  · intro h
    split at h
    · rename_i id spec' checked
      cases h
      exact ⟨rfl, checked⟩
    · cases h
  · rintro ⟨space, checked⟩
    rw [checked, space]

theorem key?_eq_some_iff {key : ProcessKey} :
    a.key? = some key ↔ a.space = key.1 ∧ ∃ spec, a.Describes key.2 spec := by
  simp only [key?, Option.map_eq_some_iff, Prod.exists, exists_and_right, exists_eq_right]
  exact ⟨fun ⟨spec, h⟩ => have h := entry?_eq_some_iff.1 h; ⟨h.1, spec, h.2⟩,
    fun ⟨space, spec, h⟩ => ⟨spec, entry?_eq_some_iff.2 ⟨space, h⟩⟩⟩

theorem mem_keys_entries_iff {additions : List Addition} {key : ProcessKey} :
    key ∈ keys (additions.filterMap entry?) ↔
      ∃ a ∈ additions, a.space = key.1 ∧ ∃ spec, a.Describes key.2 spec := by
  have same : keys (additions.filterMap entry?) = additions.filterMap key? := List.map_filterMap
  simp only [same, List.mem_filterMap, key?_eq_some_iff]

end Catalog.Addition

namespace Catalog

variable {c : Catalog} {a : Addition}

/-- The catalog after an attempt to add something. -/
def adding (c : Catalog) (a : Addition) : Catalog :=
  match c.add a.value a.space with
  | .ok (now, _) => now
  | .error _ => c

/-- The catalog after some attempts to add something, one after the other. -/
def afterAdding (c : Catalog) (additions : List Addition) : Catalog := additions.foldl adding c

/-- An addition is accepted exactly if its value is a specification. -/
theorem add_eq_ok_iff {now : Catalog} :
    (∃ records, c.add a.value a.space = .ok (now, records)) ↔
      ∃ id spec, a.Describes id spec ∧ now = insert (a.space, id) spec c := by
  constructor
  · rintro ⟨records, h⟩
    unfold add at h
    cases checked : checkedId a.value with
    | error e =>
      rw [checked] at h
      cases h
    | ok r =>
      rw [checked] at h
      cases h
      exact ⟨r.1, r.2, Addition.checkedId_eq_ok_iff.1 checked, rfl⟩
  · rintro ⟨id, spec, describes, rfl⟩
    unfold add
    rw [Addition.checkedId_eq_ok_iff.2 describes]
    exact ⟨_, rfl⟩

theorem adding_eq : c.adding a = insertAll c a.entry?.toList := by
  unfold adding
  cases checked : checkedId a.value with
  | error e =>
    have refused : c.add a.value a.space = .error e := by
      unfold add
      rw [checked]
      rfl
    rw [refused, Addition.entry?, checked]
    rfl
  | ok r =>
    obtain ⟨records, accepted⟩ := (add_eq_ok_iff (c := c)).2
      ⟨r.1, r.2, Addition.checkedId_eq_ok_iff.1 checked, rfl⟩
    rw [accepted, Addition.entry?, checked]
    rfl

theorem adding_of_refused (refused : ∀ id spec, ¬ a.Describes id spec) : c.adding a = c := by
  unfold adding
  split
  · rename_i now records accepted
    obtain ⟨id, spec, describes, -⟩ := add_eq_ok_iff.1 ⟨records, accepted⟩
    exact absurd describes (refused id spec)
  · rfl

/-- The entries of what is accepted are written one after the other. -/
theorem afterAdding_eq_insertAll (c : Catalog) (additions : List Addition) :
    c.afterAdding additions = insertAll c (additions.filterMap Addition.entry?) := by
  induction additions generalizing c with
  | nil => rfl
  | cons a additions ih =>
    show (c.adding a).afterAdding additions = _
    rw [ih, adding_eq, List.filterMap_cons]
    cases a.entry? <;> rfl

theorem addAll_eq_afterAdding {specs : List Value} {now : Catalog} {records more : List Log.Record}
    (h : addAll specs c records = (.ok now, more)) :
    now = c.afterAdding (specs.map (Addition.mk · none)) := by
  induction specs generalizing c records with
  | nil =>
    cases h
    rfl
  | cons v specs ih =>
    unfold addAll at h
    split at h
    · rename_i c' _ accepted
      have step : c.adding ⟨v, none⟩ = c' := by
        unfold adding
        rw [accepted]
      rw [ih h, ← step]
      rfl
    · cases h

/-- A catalog holds the entries of what has been added since it was made. -/
theorem ofValue_afterAdding {v : Value} (accepted : (ofValue v).1 = .ok c)
    (additions : List Addition) : ∃ specs, specifications v = .ok specs ∧
      c.afterAdding additions =
        ofEntries ((specs.map (Addition.mk · none) ++ additions).filterMap Addition.entry?) := by
  unfold ofValue at accepted
  split at accepted
  · rename_i specs found
    have made := addAll_eq_afterAdding (Prod.ext accepted rfl)
    refine ⟨specs, found, ?_⟩
    rw [made, afterAdding_eq_insertAll, afterAdding_eq_insertAll, List.filterMap_append]
    exact (insertAll_append [] _ _).symm
  · cases accepted

/-! ## Namespaces -/

theorem spaces_eq_eraseDups (c : Catalog) :
    c.spaces = ((Dictionary.keys c).map (·.1)).eraseDups := by
  unfold spaces Dictionary.keys
  rw [List.map_map]
  rfl

theorem mem_spaces {space : Option String} : space ∈ c.spaces ↔ ∃ p ∈ c, p.1.1 = space := by
  unfold spaces
  rw [List.mem_eraseDups, List.mem_map]

theorem mem_spaces_iff_all_ne_nil {space : Option String} :
    space ∈ c.spaces ↔ c.all space ≠ [] := by
  rw [mem_spaces, all, ne_eq, List.map_eq_nil_iff, List.filter_eq_nil_iff]
  simp only [decide_eq_true_eq, not_forall, not_not, exists_prop]

theorem forall₂_all (nodup : (Dictionary.keys c).Nodup) (space : Option String) :
    List.Forall₂ (fun key spec => c.get? key.2 key.1 = some spec)
      ((Dictionary.keys c).filter fun key => key.1 = space) (c.all space) := by
  have filtered : ((Dictionary.keys c).filter fun key => key.1 = space) =
      Dictionary.keys (c.filter fun p => p.1.1 = space) := List.filter_map
  rw [filtered]
  exact forall₂_keys_values nodup (List.filter_subset_self c)

theorem flatMap_filter_perm {α κ : Type} [DecidableEq κ] {key : α → κ} {ks : List κ}
    (hk : ks.Nodup) {xs : List α} (covered : ∀ x ∈ xs, key x ∈ ks) :
    (ks.flatMap fun k => xs.filter fun x => key x = k).Perm xs := by
  induction ks generalizing xs with
  | nil =>
    cases xs with
    | nil => exact .nil
    | cons x xs => cases covered x List.mem_cons_self
  | cons k ks ih =>
    obtain ⟨hkk, hk⟩ := List.nodup_cons.1 hk
    let others := xs.filter fun x => !decide (key x = k)
    have rest : (ks.flatMap fun k' => others.filter fun x => key x = k').Perm others := by
      refine ih hk fun x hx => ?_
      obtain ⟨hx, other⟩ := List.mem_filter.1 hx
      exact (List.mem_cons.1 (covered x hx)).resolve_left (by simpa using other)
    have same : (ks.flatMap fun k' => others.filter fun x => key x = k') =
        ks.flatMap fun k' => xs.filter fun x => key x = k' := by
      refine List.flatMap_congr fun k' hk' => ?_
      rw [List.filter_filter]
      refine List.filter_congr fun x _ => ?_
      have apart : key x = k' → key x ≠ k := by
        rintro rfl rfl
        exact hkk hk'
      by_cases h : key x = k' <;> simp [h]
      exact h ▸ apart h
    rw [List.flatMap_cons, ← same]
    exact (rest.append_left _).trans (List.filter_append_perm _ xs)

theorem flatMap_all_perm (c : Catalog) : (c.spaces.flatMap c.all).Perm c.toList := by
  show (c.spaces.flatMap fun space => (c.filter fun p => p.1.1 = space).map (·.2)).Perm _
  rw [← List.map_flatMap]
  exact (flatMap_filter_perm (nodup_eraseDups _) fun p hp => mem_spaces.2 ⟨p, hp, rfl⟩).map _

/-! ## What a catalog holds -/

/-- The catalog is an ordered map that has arisen by some additions. -/
structure IsOrdered (c : Catalog) (additions : List Addition) : Prop where
  /-- Found is what was accepted last. -/
  get?_iff {id : String} {space : Option String} {spec : Specification} :
    c.get? id space = some spec ↔ ∃ before a after, additions = before ++ a :: after ∧
      a.space = space ∧ a.Describes id spec ∧
      ∀ later ∈ after, later.space = space → ∀ spec', ¬ later.Describes id spec'
  has_iff {id : String} {space : Option String} :
    c.has id space ↔ ∃ spec, c.get? id space = some spec
  /-- The keys stand in the order in which they were first accepted. -/
  keys : c.keys = (additions.filterMap Addition.key?).eraseDups
  length : c.length = (additions.filterMap Addition.key?).eraseDups.length
  /-- The specifications stand in the order of their keys. -/
  toList : List.Forall₂ (fun key spec => c.get? key.2 key.1 = some spec) c.keys c.toList
  all (space : Option String) : List.Forall₂ (fun key spec => c.get? key.2 key.1 = some spec)
    (c.keys.filter fun key => key.1 = space) (c.all space)
  /-- Every namespace is listed once, in the order of their first keys. -/
  spaces : c.spaces = (c.keys.map (·.1)).eraseDups ∧ c.spaces.Nodup
  mem_spaces_iff {space : Option String} : space ∈ c.spaces ↔ c.all space ≠ []
  /-- The namespaces share the specifications among them. -/
  partition : (c.spaces.flatMap c.all).Perm c.toList
  ids : ∀ p ∈ c, p.1.2 ≠ "" ∧ Value.field "id" p.2 = .str p.1.2

/-- Among the entries that are written, the last one for a key is the last one that is accepted. -/
theorem get?_ofEntries_iff {additions : List Addition} {id : String} {space : Option String}
    {spec : Specification} :
    Catalog.get? id space (ofEntries (additions.filterMap Addition.entry?)) = some spec ↔
      ∃ before a after, additions = before ++ a :: after ∧ a.space = space ∧ a.Describes id spec ∧
        ∀ later ∈ after, later.space = space → ∀ spec', ¬ later.Describes id spec' := by
  have none_later {after : List Addition} :
      (space, id) ∉ Dictionary.keys (after.filterMap Addition.entry?) ↔
        ∀ later ∈ after, later.space = space → ∀ spec', ¬ later.Describes id spec' := by
    simp only [Addition.mem_keys_entries_iff, not_exists, not_and]
  unfold Catalog.get?
  rw [get?_ofEntries_eq_some_iff]
  constructor
  · rintro ⟨before, after, split, last⟩
    obtain ⟨_, _, rfl, -, split⟩ := List.filterMap_eq_append_iff.1 split
    obtain ⟨refused, a, after, rfl, -, entry, rfl⟩ := List.filterMap_eq_cons_iff.1 split
    obtain ⟨same, describes⟩ := Addition.entry?_eq_some_iff.1 entry
    exact ⟨_ ++ refused, a, after, (List.append_assoc ..).symm, same, describes,
      none_later.1 last⟩
  · rintro ⟨before, a, after, rfl, same, describes, last⟩
    have entry : a.entry? = some ((space, id), spec) :=
      Addition.entry?_eq_some_iff.2 ⟨same, describes⟩
    refine ⟨before.filterMap Addition.entry?, after.filterMap Addition.entry?, ?_,
      none_later.2 last⟩
    rw [List.filterMap_append, List.filterMap_cons, entry]

/-- Entries that are written one after the other make an ordered map. -/
theorem isOrdered_ofEntries (additions : List Addition) :
    IsOrdered (ofEntries (additions.filterMap Addition.entry?)) additions := by
  have nodup := nodup_keys_ofEntries (additions.filterMap Addition.entry?)
  have keys : (ofEntries (additions.filterMap Addition.entry?)).keys =
      (additions.filterMap Addition.key?).eraseDups := by
    rw [keys_ofEntries, Dictionary.keys, List.map_filterMap]
    rfl
  refine
    { get?_iff := get?_ofEntries_iff
      has_iff := Option.isSome_iff_exists
      keys := keys
      length := by rw [← keys, Dictionary.keys, List.length_map]
      toList := forall₂_keys_values nodup (List.Subset.refl _)
      all := forall₂_all nodup
      spaces := ⟨spaces_eq_eraseDups _, nodup_eraseDups _⟩
      mem_spaces_iff := mem_spaces_iff_all_ne_nil
      partition := flatMap_all_perm _
      ids := fun p hp => ?_ }
  obtain ⟨before, a, after, -, -, describes, -⟩ :=
    get?_ofEntries_iff.1 ((get?_eq_some_iff nodup).2 hp)
  exact ⟨describes.nonempty, describes.named⟩

end Catalog

/-! ## Catalogs of builders -/

/-- The workspace after some attempts to add something to the catalog of a builder. -/
def Workspace.adding (b : BuilderRef) (ws : Workspace) (additions : List Catalog.Addition) :
    Workspace :=
  additions.foldl (fun ws a => ((Build.addSpecification b a.value a.space).run ws).2) ws

namespace Build

variable {ws now : Workspace} {b : BuilderRef} {a : Catalog.Addition}

/-- An addition to the catalog of a builder changes the catalog and the log if it is accepted, and
nothing otherwise. -/
theorem run_addSpecification :
    (∃ log, (addSpecification b a.value a.space).run ws = (.ok (),
      { ws.modifyCatalog (ws.builder b).catalog fun _ => (ws.catalogOf b).adding a with log }) ∧
      ∃ id spec, a.Describes id spec) ∨
    (∃ e, (addSpecification b a.value a.space).run ws = (.error e, ws)) ∧
      ∀ id spec, ¬ a.Describes id spec := by
  cases checked : Catalog.checkedId a.value with
  | error e =>
    have refused : (ws.catalogOf b).add a.value a.space = .error e := by
      unfold Catalog.add
      rw [checked]
      rfl
    refine .inr ⟨⟨e, ?_⟩, fun id spec describes => ?_⟩
    · unfold addSpecification
      rw [run_get_bind, refused]
      rfl
    · rw [Catalog.Addition.checkedId_eq_ok_iff.2 describes] at checked
      cases checked
  | ok r =>
    have describes := Catalog.Addition.checkedId_eq_ok_iff.1 checked
    obtain ⟨records, accepted⟩ := (Catalog.add_eq_ok_iff (c := ws.catalogOf b)).2
      ⟨r.1, r.2, describes, rfl⟩
    have now : (ws.catalogOf b).adding a = insert (a.space, r.1) r.2 (ws.catalogOf b) := by
      unfold Catalog.adding
      rw [accepted]
    have written : ∃ log, (addSpecification b a.value a.space).run ws = (.ok (), { ws.modifyCatalog
        (ws.builder b).catalog fun _ => (ws.catalogOf b).adding a with log }) := by
      unfold addSpecification
      rw [run_get_bind, run_bind_of_ok (by rw [run_ofExcept, accepted])]
      dsimp only
      rw [run_bind_of_ok (run_change _ _), checked, now]
      -- A name that a builder has itself is reported.
      by_cases hidden : a.space = none ∧ hidesProcess r.1
      · exact ⟨_, by dsimp only; rw [if_pos hidden]; rfl⟩
      · exact ⟨_, by dsimp only; rw [if_neg hidden]; rfl⟩
    obtain ⟨log, written⟩ := written
    exact .inl ⟨log, written, r.1, r.2, describes⟩

theorem catalogOf_adding {additions : List Catalog.Addition}
    (exist : (ws.builder b).catalog.index < ws.catalogs.size) :
    (ws.adding b additions).catalogOf b = (ws.catalogOf b).afterAdding additions := by
  induction additions generalizing ws with
  | nil => rfl
  | cons a additions ih =>
    show (((addSpecification b a.value a.space).run ws).2.adding b additions).catalogOf b =
      ((ws.catalogOf b).adding a).afterAdding additions
    rcases @run_addSpecification ws b a with
      ⟨log, accepted, -⟩ | ⟨⟨e, refused⟩, nothing⟩
    · rw [accepted]
      refine (ih ?_).trans ?_
      · exact Nat.lt_of_lt_of_eq exist (Arena.size_modify ..).symm
      · exact congrArg (Catalog.afterAdding · additions) (Arena.get_modify_self exist _)
    · rw [refused, Catalog.adding_of_refused nothing]
      exact ih exist

end Build

/-! ## Main statement -/

/-- **A catalog is an ordered map** of what has been added to it, through a builder or not, and what
is refused changes nothing. -/
theorem additions_ordered {v : Value} {c : Catalog} (accepted : (Catalog.ofValue v).1 = .ok c)
    (additions : List Catalog.Addition) :
    (∃ specs, Catalog.specifications v = .ok specs ∧
      (c.afterAdding additions).IsOrdered (specs.map (Catalog.Addition.mk · none) ++ additions)) ∧
    ∀ {ws : Workspace} {b : BuilderRef}, (ws.builder b).catalog.index < ws.catalogs.size →
      ws.catalogOf b = c →
      (ws.adding b additions).catalogOf b = c.afterAdding additions ∧
      ∀ a : Catalog.Addition, (∀ id spec, ¬ a.Describes id spec) →
        ∃ e, (Build.addSpecification b a.value a.space).run ws = (.error e, ws) := by
  constructor
  · obtain ⟨specs, found, entries⟩ := Catalog.ofValue_afterAdding accepted additions
    exact ⟨specs, found, entries ▸ Catalog.isOrdered_ofEntries _⟩
  · rintro ws b exist rfl
    refine ⟨Build.catalogOf_adding exist, fun a nothing => ?_⟩
    rcases @Build.run_addSpecification ws b a with
      ⟨-, -, id, spec, describes⟩ | ⟨refused, -⟩
    · exact absurd describes (nothing id spec)
    · exact refused

/-! ## A catalog to which something is added -/

/-- A list with addition as the only process. -/
def sumProcesses : Value := .list [.object [("id", .str "add")]]

def Workspace.plainSums : Workspace :=
  ((Build.createBuilder sumProcesses .null none none []).run {}).2

/-- Another description of addition, between two processes of a namespace, after a value that is
none. -/
def moreProcesses : List Catalog.Addition :=
  [⟨.null, none⟩, ⟨.object [("id", .str "ndvi")], some "vito"⟩,
   ⟨.object [("id", .str "add"), ("summary", .str "Sum")], none⟩,
   ⟨.object [("id", .str "add")], some "vito"⟩]

/-- Addition keeps its place, and the last description that has no namespace is found. -/
theorem additions_ordered_sums :
    ((Workspace.plainSums.adding ⟨0⟩ moreProcesses).catalogOf ⟨0⟩).keys =
      [(none, "add"), (some "vito", "ndvi"), (some "vito", "add")] ∧
    ((Workspace.plainSums.adding ⟨0⟩ moreProcesses).catalogOf ⟨0⟩).get? "add" none =
      some [(.str "id", .str "add"), (.str "summary", .str "Sum")] := by
  have exist :
      (Workspace.plainSums.builder ⟨0⟩).catalog.index < Workspace.plainSums.catalogs.size := by
    decide +kernel
  have accepted : (Catalog.ofValue sumProcesses).1 = .ok (Workspace.plainSums.catalogOf ⟨0⟩) := by
    rfl
  obtain ⟨⟨specs, found, ordered⟩, builders⟩ := additions_ordered accepted moreProcesses
  cases found
  rw [(builders exist rfl).1]
  refine ⟨ordered.keys.trans (by decide +kernel), ordered.get?_iff.2 ?_⟩
  refine ⟨[_, _, _], _, [_], rfl, rfl, ⟨rfl, rfl, by decide⟩, fun later last space => ?_⟩
  cases List.mem_singleton.1 last
  cases space

end ProcessGraph
