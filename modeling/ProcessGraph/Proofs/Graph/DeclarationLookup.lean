import ProcessGraph.Proofs.Graph.ScopedOperations

/-!
# The declaration of a name

`v.declaration? s` is the declaration of a name among the parameters `v` of a process, the first one
if there are several. A declaration is merged into that of its own name, or becomes it, and leaves
those of other names as they are (`declaration?_declare`). So what becomes of the declaration of a
name depends only on those that are called so, which are merged one after the other
(`declaration?_declareEach`).
-/

set_option autoImplicit false

namespace ProcessGraph

/-! ## Entries that are there -/

namespace Dictionary

variable {κ α : Type} [DecidableEq κ] {k : κ} {a : α} {d e : Dictionary κ α}

theorem get?_of_mem (hd : d.keys.Nodup) {p : κ × α} (hp : p ∈ d) : get? p.1 d = some p.2 := by
  induction d with
  | nil => cases hp
  | cons q d ih =>
    obtain ⟨hq, hd⟩ := List.nodup_cons.1 hd
    rcases List.mem_cons.1 hp with rfl | hp
    · simp [get?]
    · have hne : q.1 ≠ p.1 := fun e => hq (List.mem_map.2 ⟨p, hp, e.symm⟩)
      rw [get?, if_neg hne]
      exact ih hd hp

theorem insert_eq_self (h : get? k d = some a) : insert k a d = d := by
  induction d with
  | nil => cases h
  | cons p d ih =>
    by_cases hp : p.1 = k
    · rw [get?, if_pos hp] at h
      obtain rfl := Option.some.inj h
      rw [insert, if_pos hp, ← hp]
    · rw [get?, if_neg hp] at h
      rw [insert, if_neg hp, ih h]

/-- Writing entries changes nothing exactly if they are there already. -/
theorem insertAll_eq_self_iff (he : e.keys.Nodup) :
    insertAll d e = d ↔ ∀ p ∈ e, get? p.1 d = some p.2 := by
  constructor
  · intro h p hp
    have found := get?_insertAll (d := d) he p.1
    rwa [h, get?_of_mem he hp] at found
  · intro h
    induction e with
    | nil => rfl
    | cons p e ih =>
      rw [insertAll_cons, insert_eq_self (h p List.mem_cons_self)]
      exact ih (List.nodup_cons.1 he).2 fun q hq => h q (List.mem_cons_of_mem _ hq)

end Dictionary

/-! ## Declarations by name -/

namespace Value

/-- The declaration is one of the name. -/
def IsCalled (s : String) (d : Entries) : Prop := field "name" d = .str s

theorem same_str_iff {v : Value} {s : String} : v.same (.str s) ↔ v = .str s :=
  ⟨eq_str_of_same_str, fun h => by rw [h, same_str, beq_self_eq_true]⟩

instance (s : String) (d : Entries) : Decidable (IsCalled s d) :=
  decidable_of_iff ((field "name" d).same (.str s)) same_str_iff

/-- The first declaration of a name. -/
def declarationIn (s : String) : List Value → Option Entries
  | [] => none
  | .dict d :: vs => if IsCalled s d then some d else declarationIn s vs
  | _ :: vs => declarationIn s vs

/-- The declaration of a name among the parameters of a process. -/
def declaration? (parameters : Value) (s : String) : Option Entries :=
  match parameters with
  | .list items => declarationIn s items
  | .tuple items => declarationIn s items
  | _ => none

theorem HasItems.declaration?_eq {v : Value} {items : List Value} {whole : List Value → Value}
    {extend : Bool} (h : v.HasItems items whole extend) (s : String) :
    v.declaration? s = declarationIn s items := by
  cases h <;> rfl

/-- The declaration of a name is called so. -/
theorem isCalled_of_declaration? {parameters : Value} {s : String} {d : Value.Entries}
    (h : parameters.declaration? s = some d) : IsCalled s d := by
  have items : ∀ {vs : List Value}, declarationIn s vs = some d → IsCalled s d := by
    intro vs
    induction vs with
    | nil => exact nofun
    | cons v vs ih =>
      intro h
      cases v with
      | dict e =>
        unfold declarationIn at h
        split at h
        · cases h
          assumption
        · exact ih h
      | _ => exact ih h
  cases parameters with
  | list vs => exact items h
  | tuple vs => exact items h
  | _ => cases h

end Value

open Value

section
variable {d e : Value.Entries} {s : String}

/-- Declarations of one name are both called so, or both not. -/
theorem isCalled_of_sameName (h : sameName e d) : IsCalled s e ↔ IsCalled s d := by
  unfold sameName at h
  unfold IsCalled
  constructor
  · intro he
    rw [he] at h
    exact eq_str_of_same h
  · intro hd
    rw [hd] at h
    exact eq_str_of_same_str h

variable (hd : d.keys.Nodup)
include hd

/-- What a declaration is merged into gets its name. -/
theorem isCalled_insertAll (h : sameName e d) :
    IsCalled s (Dictionary.insertAll e d) ↔ IsCalled s d := by
  by_cases hs : IsCalled s d
  · exact iff_of_true (field_insertAll_of_name hd hs e) hs
  · refine iff_of_false (fun merged => hs ?_) hs
    unfold IsCalled at *
    have found := Dictionary.get?_insertAll (d := e) hd (.str "name")
    unfold field field? at merged ⊢
    rw [found] at merged
    cases hn : Dictionary.get? (Scalar.str "name") d with
    | some v => rwa [hn] at merged
    | none =>
      rw [hn, Option.none_or] at merged
      have he : IsCalled s e := merged
      exact absurd ((isCalled_of_sameName h).1 he) hs

theorem declarationIn_mergeOrExtend {extend : Bool} {items items' : List Value}
    (h : mergeOrExtend extend d items = .ok items') :
    declarationIn s items' =
      if IsCalled s d then some (Dictionary.insertAll ((declarationIn s items).getD []) d)
      else declarationIn s items := by
  induction items generalizing items' with
  | nil =>
    have whole : Dictionary.insertAll [] d = d := Dictionary.ofEntries_of_nodup hd
    cases extend <;> cases h
    simp only [List.nil_append, declarationIn, Option.getD_none, whole]
  | cons v rest ih =>
    by_cases hv : ∃ e, v = .dict e
    · obtain ⟨e, rfl⟩ := hv
      by_cases same : sameName e d
      · rw [mergeOrExtend_cons_same same] at h
        cases h
        simp only [declarationIn, isCalled_insertAll hd same, isCalled_of_sameName same]
        split <;> rfl
      · rw [mergeOrExtend_cons_other same] at h
        obtain ⟨items, hr, rfl⟩ := exists_of_map_eq_ok h
        simp only [declarationIn]
        by_cases he : IsCalled s e
        · have other : ¬ IsCalled s d := fun hs => same (by
            rw [sameName, show field "name" e = .str s from he,
              show field "name" d = .str s from hs, same_str, beq_self_eq_true])
          simp only [he, other, if_true, if_false]
        · simp only [he, if_false]
          exact ih hr
    · rw [mergeOrExtend_cons_of_ne fun e he => hv ⟨e, he⟩] at h
      cases h

/-- **What a declaration does.** It is merged into the declaration of its name, if there is one. -/
theorem declaration?_declare {v w : Value} (h : declare v d = .ok w) (s : String) :
    w.declaration? s =
      if IsCalled s d then some (Dictionary.insertAll ((v.declaration? s).getD []) d)
      else v.declaration? s := by
  obtain ⟨items, whole, extend, has⟩ := exists_hasItems h
  rw [has.declare_eq] at h
  obtain ⟨items', merged, rfl⟩ := exists_of_map_eq_ok h
  rw [has.declaration?_eq, (has.hasItems items').declaration?_eq]
  exact declarationIn_mergeOrExtend hd merged

end

/-- The declaration of a name after declarations have been merged one after the other, those of
other names left out. -/
def Value.merged (s : String) (old : Option Value.Entries) (ds : List Value.Entries) :
    Option Value.Entries :=
  ds.foldl (fun old d =>
    if Value.IsCalled s d then some (Dictionary.insertAll (old.getD []) d) else old) old

/-- What declarations do to that of a name. -/
theorem declaration?_declareEach {ds : List Value.Entries} {v w : Value}
    (hds : ∀ d ∈ ds, d.keys.Nodup) (h : declareEach ds v = .ok w) (s : String) :
    w.declaration? s = Value.merged s (v.declaration? s) ds := by
  induction ds generalizing v with
  | nil =>
    cases h
    rfl
  | cons d ds ih =>
    rw [declareEach_cons] at h
    cases hu : declare v d with
    | error e =>
      rw [hu] at h
      cases h
    | ok u =>
      rw [hu] at h
      rw [ih (fun d hd => hds d (List.mem_cons_of_mem _ hd)) h,
        declaration?_declare (hds d List.mem_cons_self) hu s]
      rfl

namespace Value

section
variable {s : String} {d : Entries} {ds : List Entries}

/-- Declarations of other names leave the declaration of a name as it is. -/
theorem merged_of_ne (old : Option Entries) (other : ∀ d ∈ ds, ¬ IsCalled s d) :
    merged s old ds = old := by
  unfold merged
  induction ds with
  | nil => rfl
  | cons d ds ih =>
    rw [List.foldl_cons, if_neg (other d List.mem_cons_self)]
    exact ih fun d hd => other d (List.mem_cons_of_mem _ hd)

/-- Declarations that add nothing. -/
theorem merged_eq_self (h : ∀ e ∈ ds, IsCalled s e → Dictionary.insertAll d e = d) :
    merged s (some d) ds = some d := by
  unfold merged
  induction ds with
  | nil => rfl
  | cons e ds ih =>
    have first : (if IsCalled s e then some (Dictionary.insertAll d e) else some d) = some d := by
      split
      · rw [h e List.mem_cons_self ‹_›]
      · rfl
    rw [List.foldl_cons, Option.getD_some, first]
    exact ih fun e he => h e (List.mem_cons_of_mem _ he)

/-- If all declarations of a name are the same one, it does not matter how often it is merged. -/
theorem merged_of_eq (old : Option Entries) (hd : d ∈ ds) (hs : IsCalled s d)
    (only : ∀ e ∈ ds, IsCalled s e → e = d) :
    merged s old ds = some (Dictionary.insertAll (old.getD []) d) := by
  induction ds generalizing old with
  | nil => cases hd
  | cons e ds ih =>
    have only' : ∀ e ∈ ds, IsCalled s e → e = d := fun e he => only e (List.mem_cons_of_mem _ he)
    show merged s (if IsCalled s e then some (Dictionary.insertAll (old.getD []) e) else old) ds = _
    by_cases he : IsCalled s e
    · obtain rfl := only e List.mem_cons_self he
      rw [if_pos he]
      -- The others are the same declaration, which is there by now.
      exact merged_eq_self fun e' he' called => by
        rw [only' e' he' called, Dictionary.insertAll_insertAll]
    · rw [if_neg he]
      exact ih old ((List.mem_cons.1 hd).resolve_left fun eq => he (eq ▸ hs)) only'

end

end Value

end ProcessGraph
