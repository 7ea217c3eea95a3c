import Mathlib.Order.Bounds.Defs
import ProcessGraph.Proofs.Graph.FailedCalls

/-!
# New ids

A new id is found by trying: the next number of the stem is used up, and if its id is taken, the
next one, and so on (`Builder.Searches`). No bound is put on this. It ends because different numbers
make different ids, of which only finitely many are taken, so that one of the next numbers is free
(`Builder.searches_nextNumber`), and it ends in one way only (`Builder.Searches.unique`).

The stem is the name without its first underscore, cut to a length (`IsStem`).

Main statement: a new id has the least number that has not been used up for its stem and whose id is
free (`generateId_least`).
-/

set_option autoImplicit false

namespace ProcessGraph

/-! ## Stems -/

/-- Characters without the first underscore among them. -/
def IsWithoutUnderscore (cs ds : List Char) : Prop :=
  (∃ before after, cs = before ++ '_' :: after ∧ '_' ∉ before ∧ ds = before ++ after) ∨
    '_' ∉ cs ∧ ds = cs

/-- The first characters, as many as a length says; a negative length says how many there are behind
them. If there are too few, then these are all or none. -/
def IsCut (length : Int) (ds es : List Char) : Prop :=
  ∃ rest, ds = es ++ rest ∧
    (0 ≤ length → (es.length : Int) = min length ds.length) ∧
    (length < 0 → (rest.length : Int) = min (-length) ds.length)

/-- The text is the stem of the ids that are called after a name. -/
def IsStem (length : Int) (name stem : String) : Prop :=
  ∃ cs, IsWithoutUnderscore name.toList cs ∧ IsCut length cs stem.toList

theorem isWithoutUnderscore_erase (cs : List Char) : IsWithoutUnderscore cs (cs.erase '_') := by
  by_cases h : '_' ∈ cs
  · obtain ⟨before, after, first, rfl, erased⟩ := List.exists_erase_eq h
    exact .inl ⟨before, after, rfl, first, erased⟩
  · exact .inr ⟨h, List.erase_of_not_mem h⟩

theorem isStem_idStem (length : Int) (name : String) : IsStem length name (idStem length name) := by
  refine ⟨name.toList.erase '_', isWithoutUnderscore_erase _, ?_⟩
  unfold idStem
  rw [String.toList_ofList]
  refine ⟨_, (List.take_append_drop _ _).symm, fun nonneg => ?_, fun neg => ?_⟩
  · rw [if_pos nonneg, List.length_take]
    omega
  · rw [if_neg (by omega), List.length_drop]
    omega

theorem IsWithoutUnderscore.unique {cs ds ds' : List Char} (h : IsWithoutUnderscore cs ds)
    (h' : IsWithoutUnderscore cs ds') : ds = ds' := by
  have erased {es : List Char} (h : IsWithoutUnderscore cs es) : cs.erase '_' = es := by
    obtain ⟨before, after, rfl, first, rfl⟩ | ⟨missing, rfl⟩ := h
    · rw [List.erase_append_right _ first, List.erase_cons_head]
    · exact List.erase_of_not_mem missing
  rw [← erased h, ← erased h']

theorem IsCut.unique {length : Int} {ds es es' : List Char} (h : IsCut length ds es)
    (h' : IsCut length ds es') : es = es' := by
  obtain ⟨rest, rfl, nonneg, neg⟩ := h
  obtain ⟨rest', whole, nonneg', neg'⟩ := h'
  have total := congrArg List.length whole
  simp only [List.length_append] at total nonneg neg nonneg' neg'
  have same : es.length = es'.length := by omega
  exact List.append_inj_left whole same

/-- A name has one stem. -/
theorem isStem_iff {length : Int} {name stem : String} :
    IsStem length name stem ↔ stem = idStem length name := by
  refine ⟨?_, fun h => h ▸ isStem_idStem length name⟩
  rintro ⟨cs, without, cut⟩
  obtain ⟨cs', without', cut'⟩ := isStem_idStem length name
  cases without.unique without'
  exact String.toList_inj.1 (cut.unique cut')

/-! ## Searching -/

namespace Builder

/-- The number that has been used up last for a stem. They start behind zero. -/
def lastNumber (b : Builder) (stem : String) : Nat := (Dictionary.get? stem b.counters).getD 0

/-- The numbers up to `n` have been used up for a stem. -/
def useUpTo (b : Builder) (stem : String) (n : Nat) : Builder :=
  { b with counters := Dictionary.insert stem n b.counters }

/-- The next number is used up. -/
def useNext (b : Builder) (stem : String) : Builder := b.useUpTo stem (b.lastNumber stem + 1)

/-- Numbers are used up, `k` of them, until one makes an id that is free. -/
inductive Searches (stem : String) : Builder → Nat → Builder → Prop where
  | free {b : Builder}
      (h : numberedId stem ((b.useNext stem).lastNumber stem) ∉ b.nodes.keys) :
      Searches stem b 1 (b.useNext stem)
  | taken {b now : Builder} {k : Nat}
      (h : numberedId stem ((b.useNext stem).lastNumber stem) ∈ b.nodes.keys)
      (later : Searches stem (b.useNext stem) k now) : Searches stem b (k + 1) now

section
variable {b now now' : Builder} {stem : String} {k k' n : Nat}

@[simp] theorem lastNumber_useUpTo (b : Builder) (stem : String) (n : Nat) :
    (b.useUpTo stem n).lastNumber stem = n := by
  unfold lastNumber useUpTo
  rw [Dictionary.get?_insert_self, Option.getD_some]

theorem useUpTo_useUpTo (b : Builder) (stem : String) (m n : Nat) :
    (b.useUpTo stem m).useUpTo stem n = b.useUpTo stem n := by
  unfold useUpTo
  rw [Dictionary.insert_insert]

/-- The search ends in one way. -/
theorem Searches.unique (h : Searches stem b k now) (h' : Searches stem b k' now') :
    k' = k ∧ now' = now := by
  induction h generalizing k' with
  | free free =>
    cases h' with
    | free => exact ⟨rfl, rfl⟩
    | taken taken => exact absurd taken free
  | taken taken _ ih =>
    cases h' with
    | free free => exact absurd taken free
    | taken _ later =>
      obtain ⟨rfl, rfl⟩ := ih later
      exact ⟨rfl, rfl⟩

/-- It ends at the first number that makes a free id. -/
theorem searches_of_free (free : numberedId stem (b.lastNumber stem + k + 1) ∉ b.nodes.keys)
    (taken : ∀ i < k, numberedId stem (b.lastNumber stem + i + 1) ∈ b.nodes.keys) :
    Searches stem b (k + 1) (b.useUpTo stem (b.lastNumber stem + k + 1)) := by
  induction k generalizing b with
  | zero =>
    refine .free ?_
    rw [useNext, lastNumber_useUpTo]
    exact free
  | succ k ih =>
    refine .taken ?_ ?_
    · rw [useNext, lastNumber_useUpTo]
      exact taken 0 (Nat.succ_pos k)
    · have next : (b.useNext stem).lastNumber stem = b.lastNumber stem + 1 :=
        b.lastNumber_useUpTo stem _
      have shift (i : Nat) : b.lastNumber stem + 1 + i + 1 = b.lastNumber stem + (i + 1) + 1 := by
        omega
      have later := ih (b := b.useNext stem) (by rw [next, shift]; exact free) fun i hi => by
        rw [next, shift]
        exact taken (i + 1) (Nat.succ_lt_succ hi)
      rw [next, shift] at later
      unfold useNext at later ⊢
      rwa [useUpTo_useUpTo] at later

end

end Builder

/-- The numbers before the one that is found make ids that are taken. -/
theorem taken_of_lt_firstFree {taken : List String} {stem : String} {fuel n m : Nat} (le : n ≤ m)
    (before : m < firstFree taken stem fuel n) : numberedId stem m ∈ taken := by
  induction fuel generalizing n with
  | zero => exact absurd before (Nat.not_lt.2 le)
  | succ fuel ih =>
    unfold firstFree at before
    split at before
    · rename_i first
      rcases Nat.eq_or_lt_of_le le with rfl | later
      · exact first
      · exact ih later before
    · exact absurd before (Nat.not_lt.2 le)

theorem firstFree_le (taken : List String) (stem : String) (fuel n : Nat) :
    firstFree taken stem fuel n ≤ n + fuel := by
  induction fuel generalizing n with
  | zero => exact Nat.le_refl n
  | succ fuel ih =>
    unfold firstFree
    split
    · have := ih (n + 1)
      omega
    · omega

namespace Builder

theorem lastNumber_lt_nextNumber (b : Builder) (stem : String) :
    b.lastNumber stem < b.nextNumber stem :=
  le_firstFree b.nodes.keys stem b.nodes.length (b.lastNumber stem + 1)

theorem taken_of_lt_nextNumber {b : Builder} {stem : String} {m : Nat}
    (above : b.lastNumber stem < m) (below : m < b.nextNumber stem) :
    numberedId stem m ∈ b.nodes.keys := taken_of_lt_firstFree above below

theorem isLeast_nextNumber (b : Builder) (stem : String) :
    IsLeast {n | b.lastNumber stem < n ∧ numberedId stem n ∉ b.nodes.keys} (b.nextNumber stem) := by
  refine ⟨⟨b.lastNumber_lt_nextNumber stem, b.numberedId_nextNumber_not_mem stem⟩, ?_⟩
  rintro n ⟨above, free⟩
  by_contra below
  exact free (taken_of_lt_nextNumber above (Nat.not_le.1 below))

/-- One more number is used up than there are nodes, at most. -/
theorem searches_nextNumber (b : Builder) (stem : String) :
    ∃ k ≤ b.nodes.length + 1, Searches stem b k (b.useUpTo stem (b.nextNumber stem)) := by
  have above := b.lastNumber_lt_nextNumber stem
  have bound : b.nextNumber stem ≤ b.lastNumber stem + 1 + b.nodes.length := firstFree_le ..
  obtain ⟨k, hk⟩ : ∃ k, b.nextNumber stem = b.lastNumber stem + k + 1 :=
    ⟨b.nextNumber stem - b.lastNumber stem - 1, by omega⟩
  refine ⟨k + 1, by omega, ?_⟩
  rw [hk]
  refine searches_of_free (hk ▸ b.numberedId_nextNumber_not_mem stem) fun i hi => ?_
  exact taken_of_lt_nextNumber (by omega) (by omega)

end Builder

/-! ## New ids -/

/-- The number `n` has been used up for a stem in a builder, and nothing else has changed. -/
structure Workspace.Numbers (ws now : Workspace) (b : BuilderRef) (stem : String) (n : Nat) :
    Prop where
  counters : ∀ s, Dictionary.get? s (now.builder b).counters =
    if s = stem then some n else Dictionary.get? s (ws.builder b).counters
  builder : now.builder b = { ws.builder b with counters := (now.builder b).counters }
  builders : ∀ c, c ≠ b → now.builder c = ws.builder c
  others : now = { ws with builders := now.builders }

theorem Build.run_generateId (b : BuilderRef) (name : String) (ws : Workspace) :
    let stem := idStem (ws.builder b).settings.idStemLength name
    let n := (ws.builder b).nextNumber stem
    (generateId b name).run ws =
      (.ok (numberedId stem n), ws.modifyBuilder b fun builder => builder.useUpTo stem n) := rfl

theorem Workspace.numbers_useUpTo {ws : Workspace} {b : BuilderRef}
    (hb : b.index < ws.builders.size) (stem : String) (n : Nat) :
    ws.Numbers (ws.modifyBuilder b fun builder => builder.useUpTo stem n) b stem n := by
  have changed := ws.builder_modifyBuilder b b fun builder => builder.useUpTo stem n
  rw [if_pos ⟨rfl, hb⟩] at changed
  refine ⟨fun s => ?_, ?_, fun c other => ?_, rfl⟩
  · rw [changed]
    exact Dictionary.get?_insert ..
  · rw [changed]
    rfl
  · rw [builder_modifyBuilder, if_neg fun same => other same.1]

/-- **New ids.** The search for a new id ends, with one number more than there are nodes at most.
The id is made of the stem of the name and of the least number that has not been used up for it
before and whose id is free. This number is used up then, and nothing else changes. -/
theorem generateId_least {ws : Workspace} {b : BuilderRef} (hb : b.index < ws.builders.size)
    (name : String) :
    ∃ stem n k now, (Build.generateId b name).run ws = (.ok (stem ++ toString n), now) ∧
      IsStem (ws.builder b).settings.idStemLength name stem ∧
      IsLeast {m | (ws.builder b).lastNumber stem < m ∧
        stem ++ toString m ∉ (ws.builder b).nodes.keys} n ∧
      k ≤ (ws.builder b).nodes.length + 1 ∧
      Builder.Searches stem (ws.builder b) k (now.builder b) ∧
      (∀ k' after, Builder.Searches stem (ws.builder b) k' after →
        k' = k ∧ after = now.builder b) ∧
      ws.Numbers now b stem n := by
  let stem := idStem (ws.builder b).settings.idStemLength name
  let n := (ws.builder b).nextNumber stem
  have found : (ws.modifyBuilder b fun builder => builder.useUpTo stem n).builder b =
      (ws.builder b).useUpTo stem n := by
    rw [Workspace.builder_modifyBuilder, if_pos ⟨rfl, hb⟩]
  obtain ⟨k, bound, search⟩ := (ws.builder b).searches_nextNumber stem
  refine ⟨stem, n, k, _, Build.run_generateId b name ws, isStem_idStem _ name,
    (ws.builder b).isLeast_nextNumber stem, bound, found ▸ search, fun k' after other => ?_,
    Workspace.numbers_useUpTo hb stem n⟩
  rw [found]
  exact search.unique other

/-- Stems are cut to one character. The stem `a` goes on behind 10, and the next two ids are
taken. -/
def Workspace.crowded : Workspace where
  builders := ⟨#[{
    catalog := ⟨0⟩
    settings := { Settings.standard with idStemLength := 1 }
    nodes := [("a11", ⟨0⟩), ("a12", ⟨1⟩)]
    counters := [("a", 10)] }]⟩

theorem generateId_least_crowded :
    ∃ now, (Build.generateId ⟨0⟩ "_ab").run .crowded = (.ok "a13", now) ∧
      (∃ k ≤ 3, Builder.Searches "a" (Workspace.crowded.builder ⟨0⟩) k (now.builder ⟨0⟩)) ∧
      Workspace.crowded.Numbers now ⟨0⟩ "a" 13 := by
  have hb : (⟨0⟩ : BuilderRef).index < Workspace.crowded.builders.size := by decide
  obtain ⟨stem, n, k, now, run, isStem, -, bound, search, -, numbers⟩ := generateId_least hb "_ab"
  obtain rfl : stem = "a" := (isStem_iff.1 isStem).trans (by decide +kernel)
  have id : ((Build.generateId ⟨0⟩ "_ab").run .crowded).1.toOption = some "a13" := by
    decide +kernel
  rw [run] at id
  have same : numberedId "a" n = numberedId "a" 13 := Option.some.inj id
  obtain rfl := numberedId_injective same
  exact ⟨now, run, ⟨k, bound, search⟩, numbers⟩

end ProcessGraph
