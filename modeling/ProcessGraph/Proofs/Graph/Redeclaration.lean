import ProcessGraph.Proofs.Graph.Related

/-!
# Declaring parameters again

Making a document declares parameters, and making it again declares the same ones in the same order.
Entries that are written once more change nothing (`Dictionary.insertAll_insertAll`), a declaration
only ever touches the one of the same name (`mergeEach_cons`), and so a whole sequence of
declarations has no effect the second time (`declareEach_idempotent`).

Whether a declaration is refused does not depend on those before it (`declareEach_refuses`).
-/

set_option autoImplicit false

namespace ProcessGraph

/-! ## Declarations one after the other -/

/-- The declaration has a text for a name, or no name at all. -/
structure WellNamed (d : Value.Entries) : Prop where
  keys : d.keys.Nodup
  name : Value.field "name" d = .null ∨ ∃ s, Value.field "name" d = .str s

/-- Do the declarations have the same name? -/
def sameName (e d : Value.Entries) : Bool := (Value.field "name" e).same (Value.field "name" d)

theorem sameName_congr {e e' : Value.Entries} (h : Value.field "name" e' = Value.field "name" e) :
    sameName e' = sameName e := by
  funext d
  unfold sameName
  rw [h]

section
variable {d : Value.Entries} (hd : WellNamed d)
include hd

theorem WellNamed.same_iff {v : Value} :
    v.same (Value.field "name" d) ↔ v = Value.field "name" d := by
  rcases hd.name with h | ⟨s, h⟩ <;> rw [h] <;> cases v <;>
    simp [Value.same, Value.sameNumber, Value.integral?] <;> split <;> simp_all

theorem WellNamed.sameName_iff {e : Value.Entries} :
    sameName e d ↔ Value.field "name" e = Value.field "name" d := hd.same_iff

/-- A declaration that is merged into one of the same name leaves it that name. -/
theorem WellNamed.field_insertAll {e : Value.Entries} (h : sameName e d) :
    Value.field "name" (Dictionary.insertAll e d) = Value.field "name" e := by
  have he := hd.sameName_iff.1 h
  have found := Dictionary.get?_insertAll (d := e) hd.keys (.str "name")
  unfold Value.field Value.field? at *
  rw [found]
  cases hn : Dictionary.get? (.str "name") d with
  | none => rfl
  | some v =>
    rw [hn] at he
    exact he.symm

end

/-- Parameters that are called by a text have declarations that are. -/
theorem Parameter.wellNamed_declaration (p : Parameter) (h : p.name = .null ∨ ∃ s, p.name = .str s) :
    WellNamed p.declaration := by
  refine ⟨?_, h⟩
  unfold declaration
  cases p.default? <;> simp [Dictionary.keys]

/-- Adds a declaration to a list of them, at its end if there is none of the same name and the list
can be extended. -/
def mergeOrExtend (extend : Bool) (d : Value.Entries) (items : List Value) :
    Except Failure (List Value) := do
  match ← mergeDeclaration d (Value.field "name" d) items with
  | some items => return items
  | none => if extend then return items ++ [.dict d] else throw .noOperation

/-- The parameters of a process after a declaration. -/
def declare (parameters : Value) (d : Value.Entries) : Except Failure Value :=
  (declareIn d (Value.field "name" d) parameters).map (·.1)

/-- The parameters of a process after several declarations. -/
def declareEach (ds : List Value.Entries) (parameters : Value) : Except Failure Value :=
  ds.foldlM declare parameters

def mergeEach (extend : Bool) (ds : List Value.Entries) (items : List Value) :
    Except Failure (List Value) := ds.foldlM (fun items d => mergeOrExtend extend d items) items

section
variable {d : Value.Entries} {ds : List Value.Entries} {extend : Bool} {items rest : List Value}

theorem mergeEach_cons_left : mergeEach extend (d :: ds) items =
    (mergeOrExtend extend d items).bind (mergeEach extend ds) := List.foldlM_cons

theorem declareEach_cons (v : Value) :
    declareEach (d :: ds) v = (declare v d).bind (declareEach ds) := List.foldlM_cons

theorem declareEach_concat (v : Value) :
    declareEach (ds ++ [d]) v = (declareEach ds v).bind fun w => declare w d := by
  unfold declareEach
  rw [List.foldlM_append]
  cases ds.foldlM declare v with
  | error e => rfl
  | ok w => simp [bind, Except.bind, pure, Except.pure]; cases declare w d <;> rfl

theorem mergeOrExtend_cons_same {e : Value.Entries} (h : sameName e d) :
    mergeOrExtend extend d (.dict e :: rest) =
      .ok (.dict (Dictionary.insertAll e d) :: rest) := by
  have h' : (Value.field "name" e).same (Value.field "name" d) := h
  simp only [mergeOrExtend, mergeDeclaration, h', if_true]
  rfl

theorem mergeOrExtend_cons_other {e : Value.Entries} (h : ¬ sameName e d) :
    mergeOrExtend extend d (.dict e :: rest) =
      (mergeOrExtend extend d rest).map (.dict e :: ·) := by
  have h' : ¬ (Value.field "name" e).same (Value.field "name" d) := h
  simp only [mergeOrExtend, mergeDeclaration, h']
  rcases mergeDeclaration d (Value.field "name" d) rest with e | (_ | items)
  · rfl
  · cases extend <;> rfl
  · rfl

/-- Only objects can be declarations. -/
theorem mergeOrExtend_cons_of_ne {v : Value} (h : ∀ e, v ≠ .dict e) :
    mergeOrExtend extend d (v :: rest) = .error .noOperation := by
  cases v with
  | dict e => exact absurd rfl (h e)
  | _ => rfl

/-- Declarations with the name of the first item are merged into it, and the others pass it by. -/
theorem mergeEach_cons (hds : ∀ d ∈ ds, WellNamed d) (e : Value.Entries) :
    mergeEach extend ds (.dict e :: rest) =
      (mergeEach extend (ds.filter (!sameName e ·)) rest).map
        (.dict (Dictionary.insertAll e (ds.filter (sameName e ·)).flatten) :: ·) := by
  induction ds generalizing e rest with
  | nil => rfl
  | cons d ds ih =>
    have hd := hds d List.mem_cons_self
    have ih' {rest : List Value} := @ih rest fun d hd => hds d (List.mem_cons_of_mem _ hd)
    rw [mergeEach_cons_left]
    by_cases h : sameName e d
    · rw [mergeOrExtend_cons_same h, Except.bind, ih', sameName_congr (hd.field_insertAll h),
        List.filter_cons_of_pos (by simpa using h), List.filter_cons_of_neg (by simpa using h),
        List.flatten_cons, Dictionary.insertAll_append]
    · rw [mergeOrExtend_cons_other h, List.filter_cons_of_neg (by simpa using h),
        List.filter_cons_of_pos (by simpa using h), mergeEach_cons_left]
      cases mergeOrExtend extend d rest with
      | error e => rfl
      | ok items => exact ih' e

/-! ## The second time -/

/-- What has been merged into a declaration has not changed its name. -/
theorem field_insertAll_flatten {e : Value.Entries}
    (hds : ∀ d ∈ ds, WellNamed d ∧ sameName e d) :
    Value.field "name" (Dictionary.insertAll e ds.flatten) = Value.field "name" e := by
  induction ds generalizing e with
  | nil => rfl
  | cons d ds ih =>
    obtain ⟨hd, same⟩ := hds d List.mem_cons_self
    have name := hd.field_insertAll same
    rw [List.flatten_cons, Dictionary.insertAll_append, ih, name]
    rw [sameName_congr name]
    exact fun d' hd' => hds d' (List.mem_cons_of_mem _ hd')

/-- If merging into the rest of a list has no effect the second time, merging into the list has
none. -/
theorem mergeEach_cons_again (hds : ∀ d ∈ ds, WellNamed d) {e : Value.Entries}
    {items' : List Value} (h : mergeEach extend ds (.dict e :: rest) = .ok items')
    (hrest : ∀ rest', mergeEach extend (ds.filter (!sameName e ·)) rest = .ok rest' →
      mergeEach extend (ds.filter (!sameName e ·)) rest' = .ok rest') :
    mergeEach extend ds items' = .ok items' := by
  rw [mergeEach_cons hds] at h
  cases hr : mergeEach extend (ds.filter (!sameName e ·)) rest with
  | error e => rw [hr] at h; cases h
  | ok rest' =>
    rw [hr] at h
    cases h
    have name : Value.field "name" (Dictionary.insertAll e (ds.filter (sameName e ·)).flatten) =
        Value.field "name" e := field_insertAll_flatten fun d hd => by
      obtain ⟨hd, same⟩ := List.mem_filter.1 hd
      exact ⟨hds d hd, same⟩
    rw [mergeEach_cons hds, sameName_congr name, hrest rest' hr, Dictionary.insertAll_insertAll]
    rfl

/-- Declarations that have been merged into a list once change nothing any more. The induction is on
the list; at its end, where the first declaration is added, on the number of declarations. -/
theorem mergeEach_idempotent (n : Nat) : ∀ (items : List Value) (ds : List Value.Entries),
    ds.length ≤ n → (∀ d ∈ ds, WellNamed d) → ∀ items', mergeEach extend ds items = .ok items' →
      mergeEach extend ds items' = .ok items' := by
  have filtered : ∀ {ds : List Value.Entries} (p : Value.Entries → Bool),
      (∀ d ∈ ds, WellNamed d) → ∀ d ∈ ds.filter p, WellNamed d :=
    fun p hds d hd => hds d (List.mem_filter.1 hd).1
  induction n with
  | zero =>
    intro items ds hn hds items' h
    obtain rfl := List.length_eq_zero_iff.1 (Nat.le_zero.1 hn)
    rfl
  | succ n ih =>
    intro items
    induction items with
    | nil =>
      intro ds hn hds items' h
      cases ds with
      | nil => rfl
      | cons d ds =>
        have hd := hds d List.mem_cons_self
        have own : sameName d d := hd.sameName_iff.2 rfl
        cases extend with
        | false => cases h
        | true =>
          -- The first declaration may just as well have been there.
          have start : mergeEach true (d :: ds) [.dict d] = .ok items' := by
            rw [mergeEach_cons_left, mergeOrExtend_cons_same own, Dictionary.insertAll_self hd.keys]
            exact h
          refine mergeEach_cons_again hds start (ih [] _ ?_ (filtered _ hds))
          rw [List.filter_cons_of_neg (by simpa using own)]
          exact Nat.le_trans (List.length_filter_le ..) (Nat.le_of_succ_le_succ hn)
    | cons v rest ihRest =>
      intro ds hn hds items' h
      by_cases hv : ∃ e, v = .dict e
      · obtain ⟨e, rfl⟩ := hv
        exact mergeEach_cons_again hds h
          (ihRest _ (Nat.le_trans (List.length_filter_le ..) hn) (filtered _ hds))
      · cases ds with
        | nil => rfl
        | cons d ds =>
          rw [mergeEach_cons_left, mergeOrExtend_cons_of_ne fun e he => hv ⟨e, he⟩] at h
          cases h

end

/-! ## Parameters of a process -/

/-- The items among which declarations are made: those of a list, which can be extended, or those of
a tuple, which cannot. No parameters are as good as an empty list. -/
inductive Value.HasItems : Value → List Value → (List Value → Value) → Bool → Prop
  | null : HasItems .null [] .list true
  | list (items : List Value) : HasItems (.list items) items .list true
  | tuple (items : List Value) : HasItems (.tuple items) items .tuple false

/-- Declarations are made nowhere else. -/
theorem exists_hasItems {v w : Value} {d : Value.Entries} (h : declare v d = .ok w) :
    ∃ items whole extend, v.HasItems items whole extend := by
  cases v with
  | null => exact ⟨_, _, _, .null⟩
  | list items => exact ⟨_, _, _, .list items⟩
  | tuple items => exact ⟨_, _, _, .tuple items⟩
  | _ => cases h

namespace Value.HasItems

variable {v : Value} {items : List Value} {whole : List Value → Value} {extend : Bool}

theorem hasItems (h : v.HasItems items whole extend) (items' : List Value) :
    (whole items').HasItems items' whole extend := by
  cases h with
  | null | list => exact .list items'
  | tuple => exact .tuple items'

theorem declare_eq (h : v.HasItems items whole extend) (d : Entries) :
    declare v d = (mergeOrExtend extend d items).map whole := by
  cases h with
  | null => rfl
  | list | tuple =>
    simp only [declare, declareIn, mergeOrExtend]
    rcases mergeDeclaration d (field "name" d) items with e | (_ | items) <;> rfl

/-- Declarations one after the other are made among the same items. -/
theorem declareEach_whole (h : v.HasItems items whole extend) (ds : List Entries)
    (items' : List Value) :
    declareEach ds (whole items') = (mergeEach extend ds items').map whole := by
  induction ds generalizing items' with
  | nil => rfl
  | cons d ds ih =>
    rw [declareEach_cons, (h.hasItems items').declare_eq, mergeEach_cons_left]
    cases mergeOrExtend extend d items' with
    | error e => rfl
    | ok items => exact ih items

theorem declareEach_eq (h : v.HasItems items whole extend) (d : Entries) (ds : List Entries) :
    declareEach (d :: ds) v = (mergeEach extend (d :: ds) items).map whole := by
  rw [← h.declareEach_whole, declareEach_cons, declareEach_cons, h.declare_eq,
    (h.hasItems items).declare_eq]

end Value.HasItems

/-- Declarations have no effect the second time. -/
theorem declareEach_idempotent {ds : List Value.Entries} (hds : ∀ d ∈ ds, WellNamed d)
    {v w : Value} (h : declareEach ds v = .ok w) : declareEach ds w = .ok w := by
  cases ds with
  | nil => rfl
  | cons d ds =>
    obtain ⟨u, first⟩ : ∃ u, declare v d = .ok u := by
      rw [declareEach_cons] at h
      cases hu : declare v d with
      | error e => rw [hu] at h; cases h
      | ok u => exact ⟨u, rfl⟩
    obtain ⟨items, whole, extend, has⟩ := exists_hasItems first
    rw [has.declareEach_eq] at h
    obtain ⟨items', merged, rfl⟩ := exists_of_map_eq_ok h
    rw [has.declareEach_whole, mergeEach_idempotent _ items _ (Nat.le_refl _) hds items' merged]
    rfl

/-! ## Refusals -/

/-- The same declarations are refused, for the same reason. -/
def RefuseAlike (v w : Value) : Prop :=
  ∀ d, Outcome (fun _ _ => True) (declare v d) (declare w d)

theorem RefuseAlike.refl (v : Value) : RefuseAlike v v := fun _ => .refl fun _ _ => trivial

theorem RefuseAlike.symm {v w : Value} (h : RefuseAlike v w) : RefuseAlike w v := by
  intro d
  have := h d
  revert this
  generalize declare v d = x
  generalize declare w d = y
  rintro (_ | e)
  · exact .ok trivial
  · exact .error e

theorem RefuseAlike.trans {u v w : Value} (h : RefuseAlike u v) (h' : RefuseAlike v w) :
    RefuseAlike u w := by
  intro d
  have h₁ := h d
  have h₂ := h' d
  revert h₁ h₂
  generalize declare u d = x
  generalize declare v d = y
  generalize declare w d = z
  rintro (_ | e) (_ | _)
  · exact .ok trivial
  · exact .error e

section
variable {d₁ : Value.Entries} (h₁ : WellNamed d₁)
include h₁

theorem refuses_mergeOrExtend (extend : Bool) (d : Value.Entries) {items items' : List Value}
    (h : mergeOrExtend extend d₁ items = .ok items') :
    Outcome (fun _ _ => True) (mergeOrExtend extend d items) (mergeOrExtend extend d items') := by
  induction items generalizing items' with
  | nil =>
    cases extend with
    | false => cases h
    | true =>
      cases h
      by_cases hs : sameName d₁ d
      · rw [List.nil_append, mergeOrExtend_cons_same hs]
        exact .ok trivial
      · rw [List.nil_append, mergeOrExtend_cons_other hs]
        exact .ok trivial
  | cons v rest ih =>
    by_cases hv : ∃ e, v = .dict e
    · obtain ⟨e, rfl⟩ := hv
      by_cases hs₁ : sameName e d₁
      · rw [mergeOrExtend_cons_same hs₁] at h
        cases h
        have same := sameName_congr (h₁.field_insertAll hs₁)
        by_cases hs : sameName e d
        · rw [mergeOrExtend_cons_same hs, mergeOrExtend_cons_same (same ▸ hs)]
          exact .ok trivial
        · rw [mergeOrExtend_cons_other hs, mergeOrExtend_cons_other (same ▸ hs)]
          cases mergeOrExtend extend d rest with
          | error e => exact .error e
          | ok _ => exact .ok trivial
      · rw [mergeOrExtend_cons_other hs₁] at h
        cases hr : mergeOrExtend extend d₁ rest with
        | error e => rw [hr] at h; cases h
        | ok rest' =>
          rw [hr] at h
          cases h
          by_cases hs : sameName e d
          · rw [mergeOrExtend_cons_same hs, mergeOrExtend_cons_same hs]
            exact .ok trivial
          · rw [mergeOrExtend_cons_other hs, mergeOrExtend_cons_other hs]
            exact (ih hr).map fun _ _ _ => trivial
    · rw [mergeOrExtend_cons_of_ne fun e he => hv ⟨e, he⟩] at h
      cases h

theorem declare_refuses {v w : Value} (h : declare v d₁ = .ok w) : RefuseAlike v w := by
  obtain ⟨items, whole, extend, has⟩ := exists_hasItems h
  rw [has.declare_eq] at h
  obtain ⟨items', merged, rfl⟩ := exists_of_map_eq_ok h
  intro d
  rw [has.declare_eq, (has.hasItems items').declare_eq]
  exact (refuses_mergeOrExtend h₁ extend d merged).map fun _ _ _ => trivial

end

/-- What is refused does not depend on what has been declared before. -/
theorem declareEach_refuses {ds : List Value.Entries} (hds : ∀ d ∈ ds, WellNamed d)
    {v w : Value} (h : declareEach ds v = .ok w) : RefuseAlike v w := by
  induction ds generalizing v with
  | nil =>
    cases h
    exact .refl _
  | cons d ds ih =>
    rw [declareEach_cons] at h
    cases hd : declare v d with
    | error e => rw [hd] at h; cases h
    | ok u =>
      rw [hd] at h
      exact (declare_refuses (hds d List.mem_cons_self) hd).trans
        (ih (fun d hd => hds d (List.mem_cons_of_mem _ hd)) h)

end ProcessGraph
