import Mathlib.Data.List.Basic

set_option autoImplicit false

namespace Didux.Heap

variable {α : Type}

structure Frame (base : Nat) (heap next : List α) : Prop where
  grown : heap.length ≤ next.length
  cells : ∀ p < base, next[p]? = heap[p]?

variable (base p : Nat) (heap : List α)

theorem frame_refl : Frame base heap heap := ⟨Nat.le_refl _, fun _ _ => rfl⟩

theorem frame_trans (middle next : List α) (first : Frame base heap middle) (second : Frame base middle next) :
    Frame base heap next where
  grown := Nat.le_trans first.grown second.grown
  cells p below := (second.cells p below).trans (first.cells p below)

theorem frame_alloc (fresh : List α) (bound : base ≤ heap.length) : Frame base heap (heap ++ fresh) where
  grown := by simp
  cells p below := List.getElem?_append_left (Nat.lt_of_lt_of_le below bound)

theorem frame_write (cell : α) (above : base ≤ p) : Frame base heap (heap.set p cell) where
  grown := by simp
  cells q below := List.getElem?_set_ne (Nat.ne_of_gt (Nat.lt_of_lt_of_le below above))

theorem read_bound (p : Nat) (cell : α) (read : heap[p]? = some cell) : p < heap.length :=
  (List.getElem?_eq_some_iff.mp read).1

theorem write_here (p : Nat) (old cell : α) (read : heap[p]? = some old) : (heap.set p cell)[p]? = some cell :=
  List.getElem?_set_self (read_bound heap p old read)

theorem write_elsewhere (p q : Nat) (here there cell : α) (read : heap[p]? = some here)
    (other : heap[q]? = some there) (different : here ≠ there) : (heap.set p cell)[q]? = some there := by
  have distinct : p ≠ q := by
    rintro rfl
    exact different (Option.some.inj (read.symm.trans other))
  rw [List.getElem?_set_ne distinct, other]

end Didux.Heap
