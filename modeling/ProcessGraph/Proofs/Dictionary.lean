import Mathlib.Data.List.Forall2
import Mathlib.Data.List.Induction
import Mathlib.Data.List.Nodup
import Mathlib.Data.List.Perm.Subperm
import ProcessGraph.Value.Basic

/-!
# Laws of dictionaries

Entries that are written one after the other: the value that is written last stays
(`get?_ofEntries_eq_some_iff`), the keys stand in the order in which they were written first
(`keys_ofEntries`), and writing the same entries again changes nothing (`insertAll_insertAll`).
Equal keys that are spelled alike are one key, and others are not (`Scalar.nodup_spellAlike_iff`).
-/

set_option autoImplicit false

universe u v

namespace ProcessGraph.Dictionary

variable {κ α : Type} [DecidableEq κ] {k k' : κ} {a : α} {d e : Dictionary κ α}

/-! ## Entries that are found -/

theorem mem_of_get? (h : get? k d = some a) : (k, a) ∈ d := by
  induction d with
  | nil => cases h
  | cons p d ih =>
    obtain ⟨k', a'⟩ := p
    by_cases hk : k' = k
    · simp only [get?, hk, if_true, Option.some.injEq] at h
      simp [hk, h]
    · simp only [get?, hk, if_false] at h
      exact List.mem_cons_of_mem _ (ih h)

/-- The value under a key is that of the first entry for it. -/
theorem get?_eq_some_iff_append : get? k d = some a ↔
    ∃ before after, d = before ++ (k, a) :: after ∧ k ∉ keys before := by
  induction d with
  | nil => simp
  | cons p d ih =>
    by_cases h : p.1 = k
    · constructor
      · intro found
        have value : p.2 = a := by simpa [get?, h] using found
        exact ⟨[], d, by rw [← h, ← value]; rfl, List.not_mem_nil⟩
      · rintro ⟨before, after, whole, first⟩
        cases before with
        | nil =>
          obtain ⟨rfl, rfl⟩ := List.cons.inj whole
          simp [get?]
        | cons q before =>
          obtain ⟨rfl, -⟩ := List.cons.inj whole
          exact absurd (h ▸ List.mem_cons_self) first
    · rw [show get? k (p :: d) = get? k d by simp [get?, h], ih]
      constructor
      · rintro ⟨before, after, rfl, first⟩
        exact ⟨p :: before, after, rfl, List.not_mem_cons_of_ne_of_not_mem (Ne.symm h) first⟩
      · rintro ⟨before, after, whole, first⟩
        cases before with
        | nil => exact absurd (congrArg Prod.fst (List.cons.inj whole).1) h
        | cons q before =>
          exact ⟨before, after, (List.cons.inj whole).2,
            fun hk => first (List.mem_cons_of_mem _ hk)⟩

theorem get?_eq_some_iff (hd : d.keys.Nodup) : get? k d = some a ↔ (k, a) ∈ d := by
  refine ⟨mem_of_get?, fun h => ?_⟩
  induction d with
  | nil => cases h
  | cons p d ih =>
    obtain ⟨hp, hd⟩ := List.nodup_cons.1 hd
    rcases List.mem_cons.1 h with rfl | h
    · simp [get?]
    · have other : p.1 ≠ k := fun same => hp (List.mem_map.2 ⟨(k, a), h, same.symm⟩)
      simpa [get?, other] using ih hd h

/-- Keys and values of entries, in their order: under each key stands its value. -/
theorem forall₂_keys_values (hd : d.keys.Nodup) (he : e ⊆ d) :
    List.Forall₂ (fun k a => get? k d = some a) e.keys e.values := by
  rw [keys, values, List.forall₂_map_left_iff, List.forall₂_map_right_iff, List.forall₂_same]
  exact fun p hp => (get?_eq_some_iff hd).2 (he hp)

theorem get?_append_of_eq_some (h : get? k d = some a) (e : Dictionary κ α) :
    get? k (d ++ e) = some a := by
  induction d with
  | nil => cases h
  | cons p d ih =>
    simp only [List.cons_append, get?] at h ⊢
    split
    · rwa [if_pos ‹_›] at h
    · rw [if_neg ‹_›] at h
      exact ih h

theorem get?_filter {p : κ × α → Bool} (h : get? k d = some a) (hp : p (k, a)) :
    get? k (d.filter p) = some a := by
  induction d with
  | nil => cases h
  | cons q d ih =>
    obtain ⟨k', b⟩ := q
    by_cases hk : k' = k
    · subst hk
      have hb : b = a := by simpa [get?] using h
      simp [hb, hp, get?]
    · have h : get? k d = some a := by simpa [get?, hk] using h
      cases hb : p (k', b) <;> simp [hb, get?, hk, ih h]

/-! ## Entries that are written -/

theorem mem_insert {p : κ × α} (h : p ∈ insert k a d) :
    p = (k, a) ∨ p ∈ d := by
  induction d with
  | nil => simpa [insert] using h
  | cons q d ih =>
    obtain ⟨k', a'⟩ := q
    by_cases hk : k' = k
    · simp only [insert, hk, if_true, List.mem_cons] at h
      exact h.imp_right (List.mem_cons_of_mem _)
    · simp only [insert, hk, if_false, List.mem_cons] at h
      rcases h with rfl | h
      · exact .inr List.mem_cons_self
      · exact (ih h).imp_right (List.mem_cons_of_mem _)

theorem mem_insertAll {p : κ × α} (h : p ∈ insertAll d e) :
    p ∈ e ∨ p ∈ d := by
  induction e generalizing d with
  | nil => exact .inr h
  | cons q e ih =>
    rcases ih (d := insert q.1 q.2 d) h with h | h
    · exact .inl (List.mem_cons_of_mem _ h)
    · rcases mem_insert h with rfl | h
      · exact .inl List.mem_cons_self
      · exact .inr h

theorem insert_insert (k : κ) (a b : α) (d : Dictionary κ α) :
    insert k a (insert k b d) = insert k a d := by
  induction d with
  | nil => simp [insert]
  | cons p d ih => by_cases h : p.1 = k <;> simp [insert, h, ih]

/-- A key that is there keeps its place, whatever else is written. -/
theorem insert_comm (h : k' ≠ k) (hk : k ∈ d.keys) (a b : α) :
    insert k' b (insert k a d) = insert k a (insert k' b d) := by
  induction d with
  | nil => cases hk
  | cons p d ih =>
    obtain ⟨k₀, c⟩ := p
    by_cases h₁ : k₀ = k
    · subst h₁
      simp [insert, Ne.symm h]
    · have hk' : k ∈ keys d := (List.mem_cons.1 hk).resolve_left (Ne.symm h₁)
      by_cases h₂ : k₀ = k'
      · subst h₂
        simp [insert, h]
      · simp [insert, h₁, h₂, ih hk']

theorem insert_append (hk : k ∈ d.keys) (a : α) (e : Dictionary κ α) :
    insert k a (d ++ e) = insert k a d ++ e := by
  induction d with
  | nil => cases hk
  | cons p d ih =>
    by_cases h : p.1 = k
    · simp [insert, h]
    · have hk' : k ∈ keys d := (List.mem_cons.1 hk).resolve_left (Ne.symm h)
      simp [insert, h, ih hk']

theorem mem_keys_insert {a : α} : k' ∈ (insert k a d).keys ↔ k' = k ∨ k' ∈ d.keys := by
  rw [keys_insert]
  split
  · rename_i hk
    exact ⟨.inr, fun h => h.elim (fun e => e ▸ hk) id⟩
  · rw [List.mem_append, List.mem_singleton, or_comm]

theorem insertAll_append (d e f : Dictionary κ α) :
    insertAll d (e ++ f) = insertAll (insertAll d e) f := List.foldl_append

theorem mem_keys_insertAll : k ∈ (insertAll d e).keys ↔ k ∈ d.keys ∨ k ∈ e.keys := by
  induction e generalizing d with
  | nil => simp [keys]
  | cons p e ih =>
    rw [insertAll_cons, ih, mem_keys_insert, keys, keys, keys, List.map_cons, List.mem_cons]
    tauto

theorem insertAll_append_left (h : ∀ k ∈ keys e, k ∈ keys d) (more : Dictionary κ α) :
    insertAll (d ++ more) e = insertAll d e ++ more := by
  induction e generalizing d with
  | nil => rfl
  | cons p e ih =>
    rw [insertAll_cons, insertAll_cons, insert_append (h _ List.mem_cons_self)]
    exact ih fun k hk => mem_keys_insert.2 (.inr (h k (List.mem_cons_of_mem _ hk)))

/-- What was written under a key before does not matter in the end. -/
theorem insert_insertAll_insert (hk : k ∈ d.keys) (a b : α) (e : Dictionary κ α) :
    insert k a (insertAll (insert k b d) e) = insert k a (insertAll d e) := by
  induction e generalizing d with
  | nil => exact insert_insert k a b d
  | cons p e ih =>
    rw [insertAll_cons, insertAll_cons]
    by_cases h : p.1 = k
    · rw [h, insert_insert]
    · rw [insert_comm h hk]
      exact ih (mem_keys_insert.2 (.inr hk))

/-- Entries that are written a second time change nothing. -/
theorem insertAll_insertAll (d e : Dictionary κ α) :
    insertAll (insertAll d e) e = insertAll d e := by
  induction e using List.reverseRecOn with
  | nil => rfl
  | append_singleton e p ih =>
    obtain ⟨k, a⟩ := p
    have last : ∀ f : Dictionary κ α, insertAll f (e ++ [(k, a)]) = insert k a (insertAll f e) :=
      fun f => insertAll_append f e [(k, a)]
    rw [last, last]
    by_cases hk : k ∈ (insertAll d e).keys
    · rw [insert_insertAll_insert hk, ih]
    · -- The key is a new one and stands behind all others.
      have old : ∀ k' ∈ keys e, k' ∈ (insertAll d e).keys := fun k' hk' =>
        mem_keys_insertAll.2 (.inr hk')
      rw [insert_of_not_mem a hk, insertAll_append_left old, ih, ← insert_of_not_mem a hk,
        insert_insert]

theorem insertAll_self (hd : d.keys.Nodup) : insertAll d d = d := by
  have all : insertAll [] d = d := ofEntries_of_nodup hd
  calc insertAll d d = insertAll (insertAll [] d) d := by rw [all]
    _ = insertAll [] d := insertAll_insertAll [] d
    _ = d := all

theorem get?_insertAll (he : e.keys.Nodup) (k : κ) :
    get? k (insertAll d e) = (get? k e).or (get? k d) := by
  induction e generalizing d with
  | nil => rfl
  | cons p e ih =>
    obtain ⟨hp, he'⟩ := List.nodup_cons.1 he
    rw [insertAll_cons, ih he']
    by_cases h : p.1 = k
    · subst h
      have none : get? p.1 e = none := Option.not_isSome_iff_eq_none.1 fun hs =>
        hp (get?_isSome_iff.1 hs)
      simp [get?, none]
    · simp [get?, h, get?_insert_of_ne (Ne.symm h)]

/-! ## Keys that are written more than once -/

theorem nodup_keys_insert (hd : d.keys.Nodup) (k : κ) (a : α) : (insert k a d).keys.Nodup := by
  rw [keys_insert]
  split
  · exact hd
  · rename_i hk
    exact List.nodup_append.2 ⟨hd, List.nodup_singleton k, fun x hx y hy e =>
      hk (List.mem_singleton.1 hy ▸ e ▸ hx)⟩

theorem nodup_keys_insertAll (hd : d.keys.Nodup) (e : Dictionary κ α) :
    (insertAll d e).keys.Nodup := by
  induction e generalizing d with
  | nil => exact hd
  | cons p e ih => exact ih (nodup_keys_insert hd p.1 p.2)

theorem nodup_keys_ofEntries (e : List (κ × α)) : (ofEntries e).keys.Nodup :=
  nodup_keys_insertAll (d := []) List.nodup_nil e

theorem ofEntries_concat (e : List (κ × α)) (p : κ × α) :
    ofEntries (e ++ [p]) = insert p.1 p.2 (ofEntries e) := insertAll_append [] e [p]

/-- The keys stand in the order in which they were written first. -/
theorem keys_ofEntries [BEq κ] [LawfulBEq κ] (e : List (κ × α)) :
    (ofEntries e).keys = (keys e).eraseDups := by
  induction e using List.reverseRecOn with
  | nil => rfl
  | append_singleton e p ih =>
    have split : keys (e ++ [p]) = keys e ++ [p.1] := List.map_append
    rw [ofEntries_concat, keys_insert, ih, split, List.eraseDups_append]
    by_cases h : p.1 ∈ keys e
    · simp [h, List.mem_eraseDups, List.removeAll]
    · simp [h, List.mem_eraseDups, List.removeAll, List.eraseDups_cons]

theorem nodup_eraseDups [BEq κ] [LawfulBEq κ] (ks : List κ) : ks.eraseDups.Nodup := by
  have same : keys (ks.map fun k => (k, ())) = ks := by simp [keys, Function.comp_def]
  exact same ▸ keys_ofEntries (ks.map fun k => (k, ())) ▸ nodup_keys_ofEntries _

/-- The value that is written last stays. -/
theorem get?_ofEntries (e : List (κ × α)) (k : κ) :
    get? k (ofEntries e) = get? k e.reverse := by
  induction e using List.reverseRecOn with
  | nil => rfl
  | append_singleton e p ih =>
    rw [ofEntries_concat, List.reverse_append, List.reverse_singleton, List.singleton_append]
    by_cases h : p.1 = k
    · subst h
      simp [get?]
    · simp [h, get?, get?_insert_of_ne (Ne.symm h), ih]

/-- The value under a key is the one that is written last. -/
theorem get?_ofEntries_eq_some_iff {e : List (κ × α)} : get? k (ofEntries e) = some a ↔
    ∃ before after, e = before ++ (k, a) :: after ∧ k ∉ keys after := by
  have reversed {ks : List (κ × α)} : k ∉ keys ks.reverse ↔ k ∉ keys ks := by simp [keys]
  rw [get?_ofEntries, get?_eq_some_iff_append]
  constructor
  · rintro ⟨before, after, whole, first⟩
    refine ⟨after.reverse, before.reverse, ?_, reversed.2 first⟩
    rw [← List.reverse_reverse e, whole]
    simp
  · rintro ⟨before, after, rfl, last⟩
    exact ⟨after.reverse, before.reverse, by simp, reversed.2 last⟩

/-- The values are all there if no key is written twice; otherwise there are fewer. -/
theorem values_prefix_ofEntries_iff {e : Dictionary κ α} :
    e.values <+: (ofEntries e).values ↔ e.keys.Nodup := by
  constructor
  · intro h
    have subset : (ofEntries e).keys ⊆ e.keys := fun k hk =>
      (mem_keys_insertAll.1 hk).resolve_left List.not_mem_nil
    have length : e.keys.length ≤ (ofEntries e).keys.length := by
      simpa [keys, values] using h.length_le
    have nodup := nodup_keys_ofEntries e
    exact ((List.subperm_of_subset nodup subset).perm_of_length_le length).nodup_iff.1 nodup
  · intro h
    have whole : (ofEntries e).values = e.values := congrArg values (ofEntries_of_nodup h)
    exact whole ▸ List.prefix_rfl

end ProcessGraph.Dictionary

/-! ## Equal keys -/

namespace ProcessGraph.Scalar

theorem compared_spelledIn (keys : List Scalar) (k : Scalar) :
    (k.spelledIn keys).compared = k.compared := by
  unfold spelledIn
  cases found : keys.find? fun k' => k'.compared = k.compared with
  | none => rfl
  | some k' => simpa using List.find?_some found

/-- Keys of a list are spelled in the same way exactly if they are equal. -/
theorem spelledIn_eq_iff {keys : List Scalar} {k l : Scalar} (hk : k ∈ keys) :
    k.spelledIn keys = l.spelledIn keys ↔ k.compared = l.compared := by
  constructor
  · intro same
    rw [← compared_spelledIn keys k, same, compared_spelledIn]
  · intro same
    unfold spelledIn
    rw [← same]
    cases found : keys.find? fun k' => k'.compared = k.compared with
    | none => exact absurd (List.find?_eq_none.1 found k hk) (by simp)
    | some k' => rfl

section
variable {α : Type u} {β : Type v} (e : List (Scalar × α))

theorem map_fst_spellAlike :
    (spellAlike e).map (·.1) = (e.map (·.1)).map (spelledIn (e.map (·.1))) := by
  simp [spellAlike]

theorem map_snd_spellAlike : (spellAlike e).map (·.2) = e.map (·.2) := by
  simp [spellAlike]

theorem exists_of_mem_spellAlike {e : List (Scalar × α)} {p : Scalar × α}
    (hp : p ∈ spellAlike e) : ∃ q ∈ e, q.2 = p.2 := by
  obtain ⟨q, hq, rfl⟩ := List.mem_map.1 hp
  exact ⟨q, hq, rfl⟩

theorem spellAlike_map (f : α → β) :
    spellAlike (e.map fun p => (p.1, f p.2)) = (spellAlike e).map fun p => (p.1, f p.2) := by
  simp [spellAlike, Function.comp_def]

/-- No two keys are spelled in the same way if no two keys are equal, and only then. -/
theorem nodup_spellAlike_iff :
    ((spellAlike e).map (·.1)).Nodup ↔ ((e.map (·.1)).map compared).Nodup := by
  rw [map_fst_spellAlike]
  refine List.pairwise_map.trans (Iff.trans ?_ List.pairwise_map.symm)
  exact List.Pairwise.iff_of_mem fun hk _ => not_congr (spelledIn_eq_iff hk)

end

end ProcessGraph.Scalar
