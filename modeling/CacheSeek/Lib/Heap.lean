namespace CacheSeek.Lib

/-- Mutable objects by identity: an object is named by its number, numbers are
handed out in order and never reused. Cells at or above `size` mean nothing. -/
structure Heap (α : Type) where
  size : Nat
  get : Nat → α

namespace Heap

variable {α : Type}

def empty [Inhabited α] : Heap α := ⟨0, fun _ => default⟩

/-- The object allocated gets the number `h.size`. -/
def alloc (h : Heap α) (a : α) : Heap α :=
  ⟨h.size + 1, fun i => if i = h.size then a else h.get i⟩

def modify (h : Heap α) (i : Nat) (f : α → α) : Heap α :=
  ⟨h.size, fun j => if j = i then f (h.get i) else h.get j⟩

@[simp] theorem size_empty [Inhabited α] : (empty : Heap α).size = 0 := rfl

@[simp] theorem size_alloc (h : Heap α) (a : α) : (h.alloc a).size = h.size + 1 := rfl

@[simp] theorem size_modify (h : Heap α) (i : Nat) (f : α → α) : (h.modify i f).size = h.size := rfl

@[simp] theorem get_alloc_self (h : Heap α) (a : α) : (h.alloc a).get h.size = a := by
  simp [alloc]

theorem get_alloc_ne (h : Heap α) (a : α) {i : Nat} (hi : i ≠ h.size) :
    (h.alloc a).get i = h.get i := by
  simp [alloc, hi]

theorem get_alloc_lt (h : Heap α) (a : α) {i : Nat} (hi : i < h.size) :
    (h.alloc a).get i = h.get i :=
  h.get_alloc_ne a (Nat.ne_of_lt hi)

@[simp] theorem get_modify_self (h : Heap α) (i : Nat) (f : α → α) :
    (h.modify i f).get i = f (h.get i) := by
  simp [modify]

theorem get_modify_ne (h : Heap α) {i j : Nat} (f : α → α) (hij : j ≠ i) :
    (h.modify i f).get j = h.get j := by
  simp [modify, hij]

/-- A projection that the update leaves alone is unchanged at every object. -/
theorem get_modify_frame {β : Type} (h : Heap α) (i : Nat) (f : α → α) (π : α → β)
    (hf : π (f (h.get i)) = π (h.get i)) (j : Nat) : π ((h.modify i f).get j) = π (h.get j) := by
  by_cases hj : j = i
  · subst j
    rw [get_modify_self, hf]
  · rw [h.get_modify_ne f hj]

end Heap

end CacheSeek.Lib
