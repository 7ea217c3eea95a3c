/-!
# Arenas

An arena holds objects that are created one after the other and never removed. An object keeps its
index; what is stored under an index can be changed.
-/

set_option autoImplicit false

namespace ProcessGraph

structure Arena (α : Type) where
  items : Array α
deriving Inhabited

namespace Arena

variable {α : Type}

def empty : Arena α := ⟨#[]⟩

def size (a : Arena α) : Nat := a.items.size

/-- The object under an index. -/
def get [Inhabited α] (a : Arena α) (i : Nat) : α := (a.items[i]?).getD default

/-- Stores a new object; its index is the size before. -/
def push (a : Arena α) (x : α) : Arena α := ⟨a.items.push x⟩

/-- Changes the object under an index. -/
def modify (a : Arena α) (i : Nat) (f : α → α) : Arena α := ⟨a.items.modify i f⟩

/-! ## Laws -/

@[simp] theorem size_push (a : Arena α) (x : α) : (a.push x).size = a.size + 1 := by
  simp [size, push]

@[simp] theorem size_modify (a : Arena α) (i : Nat) (f : α → α) :
    (a.modify i f).size = a.size := by
  simp [size, modify]

variable [Inhabited α]

@[simp] theorem get_push_size (a : Arena α) (x : α) : (a.push x).get a.size = x := by
  simp [get, push, size]

theorem get_push_of_lt {a : Arena α} {i : Nat} (h : i < a.size) (x : α) :
    (a.push x).get i = a.get i := by
  simp only [size] at h
  simp [get, push, Array.getElem?_push, Nat.ne_of_lt h]

theorem get_modify_self {a : Arena α} {i : Nat} (h : i < a.size) (f : α → α) :
    (a.modify i f).get i = f (a.get i) := by
  simp only [size] at h
  simp [get, modify, Array.getElem_modify, h]

theorem get_modify_of_ne {i j : Nat} (h : i ≠ j) (a : Arena α) (f : α → α) :
    (a.modify i f).get j = a.get j := by
  simp [get, modify, Array.getElem?_modify, h]

end Arena

end ProcessGraph
