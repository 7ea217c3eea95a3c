/-!
# Dictionaries

A dictionary is a list of entries in the order in which their keys were first written. Writing a
key again replaces its value and keeps its place.
-/

set_option autoImplicit false

namespace ProcessGraph

/-- Entries in the order of the first writing of their keys. -/
abbrev Dictionary (κ α : Type) := List (κ × α)

namespace Dictionary

variable {κ α : Type} [DecidableEq κ]

/-- The value of the first entry for `k`. -/
def get? (k : κ) : Dictionary κ α → Option α
  | [] => none
  | (k', a) :: d => if k' = k then some a else get? k d

def contains (k : κ) (d : Dictionary κ α) : Bool := (get? k d).isSome

/-- Replaces the value of `k` in its place, or appends a new entry. -/
def insert (k : κ) (a : α) : Dictionary κ α → Dictionary κ α
  | [] => [(k, a)]
  | (k', b) :: d => if k' = k then (k, a) :: d else (k', b) :: insert k a d

/-- Writes the entries of `e` one after the other. -/
def insertAll (d e : Dictionary κ α) : Dictionary κ α :=
  e.foldl (fun d p => insert p.1 p.2 d) d

/-- The dictionary that arises by writing entries one after the other. -/
def ofEntries (e : List (κ × α)) : Dictionary κ α := insertAll [] e

omit [DecidableEq κ] in
def keys (d : Dictionary κ α) : List κ := d.map (·.1)

omit [DecidableEq κ] in
def values (d : Dictionary κ α) : List α := d.map (·.2)

/-! ## Laws -/

@[simp] theorem get?_nil (k : κ) : get? k ([] : Dictionary κ α) = none := rfl

@[simp] theorem get?_insert_self (k : κ) (a : α) (d : Dictionary κ α) :
    get? k (insert k a d) = some a := by
  induction d with
  | nil => simp [insert, get?]
  | cons p d ih => by_cases h : p.1 = k <;> simp [insert, get?, h, ih]

theorem get?_insert_of_ne {k k' : κ} (h : k' ≠ k) (a : α) (d : Dictionary κ α) :
    get? k' (insert k a d) = get? k' d := by
  induction d with
  | nil => simp [insert, get?, Ne.symm h]
  | cons p d ih =>
    by_cases hp : p.1 = k
    · simp [insert, get?, hp, Ne.symm h]
    · simp [insert, get?, hp, ih]

theorem get?_insert (k k' : κ) (a : α) (d : Dictionary κ α) :
    get? k' (insert k a d) = if k' = k then some a else get? k' d := by
  split
  · rename_i same
    rw [same, get?_insert_self]
  · rename_i other
    exact get?_insert_of_ne other a d

theorem get?_isSome_iff {k : κ} {d : Dictionary κ α} : (get? k d).isSome ↔ k ∈ d.keys := by
  induction d with
  | nil => simp [keys]
  | cons p d ih =>
    by_cases h : p.1 = k
    · simp [get?, h, keys]
    · simp only [get?, h, if_false, ih, keys, List.map_cons, List.mem_cons]
      exact ⟨Or.inr, fun o => o.resolve_left (Ne.symm h)⟩

/-- A new key goes to the end; a known key keeps its place. -/
theorem keys_insert (k : κ) (a : α) (d : Dictionary κ α) :
    (insert k a d).keys = if k ∈ d.keys then d.keys else d.keys ++ [k] := by
  induction d with
  | nil => simp [insert, keys]
  | cons p d ih =>
    by_cases h : p.1 = k
    · simp [insert, keys, h]
    · have h' : k ≠ p.1 := Ne.symm h
      by_cases hk : k ∈ keys d
      · rw [if_pos hk] at ih
        rw [if_pos (by simp [keys] at hk ⊢; exact Or.inr hk)]
        simpa [insert, h, keys] using ih
      · rw [if_neg hk] at ih
        rw [if_neg (by simp [keys, h'] at hk ⊢; exact hk)]
        simpa [insert, h, keys] using ih

theorem insert_append_of_not_mem {k : κ} {d : Dictionary κ α} (h : k ∉ d.keys) (a : α)
    (e : Dictionary κ α) : insert k a (d ++ e) = d ++ insert k a e := by
  induction d with
  | nil => rfl
  | cons p d ih =>
    simp only [keys, List.map_cons, List.mem_cons, not_or] at h
    simp [insert, Ne.symm h.1, ih h.2]

theorem insert_of_not_mem {k : κ} (a : α) {d : Dictionary κ α} (h : k ∉ d.keys) :
    insert k a d = d ++ [(k, a)] := by
  simpa [insert] using insert_append_of_not_mem h a []

@[simp] theorem insertAll_nil (d : Dictionary κ α) : insertAll d [] = d := rfl

theorem insertAll_cons (d : Dictionary κ α) (p : κ × α) (e : Dictionary κ α) :
    insertAll d (p :: e) = insertAll (insert p.1 p.2 d) e := rfl

/-- Entries with other keys are written behind those that are there. -/
theorem insertAll_append_of_disjoint {d e : Dictionary κ α} (h : ∀ k ∈ e.keys, k ∉ d.keys)
    (f : Dictionary κ α) : insertAll (d ++ f) e = d ++ insertAll f e := by
  induction e generalizing f with
  | nil => rfl
  | cons p e ih =>
    rw [insertAll_cons, insertAll_cons, insert_append_of_not_mem (h _ List.mem_cons_self)]
    exact ih (fun k hk => h k (List.mem_cons_of_mem _ hk)) _

theorem ofEntries_of_nodup {e : Dictionary κ α} (h : e.keys.Nodup) : ofEntries e = e := by
  induction e with
  | nil => rfl
  | cons p e ih =>
    obtain ⟨hp, he⟩ := List.nodup_cons.1 h
    have apart : ∀ k ∈ keys e, k ∉ keys [p] := fun k hk hk' => hp (List.mem_singleton.1 hk' ▸ hk)
    exact (insertAll_append_of_disjoint apart []).trans (congrArg (p :: ·) (ih he))

end Dictionary

end ProcessGraph
