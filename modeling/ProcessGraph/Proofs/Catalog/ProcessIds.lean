import Mathlib.Data.List.TakeDrop
import Mathlib.Data.List.TakeWhile
import ProcessGraph.Catalog.Basic

/-!
# Process ids with a namespace

A namespace is written behind the id of a process, with an `@` between them. Ids are split at the
first `@`, so that the namespace may contain others but the name before it does not. This says all
about splitting (`splitProcessId_eq_iff`): the parts are the only ones with such a name that give
the id when they are joined again.
-/

set_option autoImplicit false

namespace ProcessGraph

theorem forall_ne_of_not_mem {cs : List Char} (h : '@' ∉ cs) :
    ∀ c ∈ cs, decide (c ≠ '@') = true := fun _ hc => decide_eq_true fun e => h (e ▸ hc)

/-- An id in which no `@` occurs has no namespace. -/
theorem splitProcessId_of_not_mem {id : String} (h : '@' ∉ id.toList) :
    splitProcessId id = (id, none) := by
  have all := forall_ne_of_not_mem h
  unfold splitProcessId
  rw [List.span_eq_takeWhile_dropWhile, List.dropWhile_eq_nil_iff.2 all]

theorem splitProcessId_append {name : String} (h : '@' ∉ name.toList) (space : String) :
    splitProcessId (name ++ "@" ++ space) = (name, some space) := by
  have all := forall_ne_of_not_mem h
  have chars : (name ++ "@" ++ space).toList = name.toList ++ '@' :: space.toList := by
    simp [String.toList_append]
  unfold splitProcessId
  rw [chars, List.span_eq_takeWhile_dropWhile, List.takeWhile_append_of_pos all,
    List.dropWhile_append_of_pos all]
  simp

/-- Every id is a name or a name with a namespace. -/
theorem exists_qualified (id : String) :
    ∃ name space, '@' ∉ name.toList ∧ Failure.qualified name space = id := by
  by_cases h : '@' ∈ id.toList
  · obtain ⟨before, after, chars, first⟩ := List.eq_append_cons_of_mem h
    refine ⟨String.ofList before, some (String.ofList after), by simpa using first, ?_⟩
    apply String.toList_injective
    simp [Failure.qualified, chars]
  · exact ⟨id, none, h, rfl⟩

theorem splitProcessId_eq_iff {id name : String} {space : Option String} :
    splitProcessId id = (name, space) ↔
      '@' ∉ name.toList ∧ Failure.qualified name space = id := by
  have joined {name : String} {space : Option String} (h : '@' ∉ name.toList) :
      splitProcessId (Failure.qualified name space) = (name, space) := by
    cases space with
    | none => exact splitProcessId_of_not_mem h
    | some space => exact splitProcessId_append h space
  constructor
  · intro split
    obtain ⟨name', space', h, rfl⟩ := exists_qualified id
    rw [joined h] at split
    cases split
    exact ⟨h, rfl⟩
  · rintro ⟨h, rfl⟩
    exact joined h

end ProcessGraph
