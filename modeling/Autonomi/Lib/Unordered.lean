/-
  Futures that complete in any order.
-/
import Mathlib

namespace Lib

variable {α : Type*}

/-- An order of completion: some rearrangement of the futures. -/
structure Unordered (α : Type*) where
  order : List α → List α
  perm : ∀ l, (order l).Perm l

namespace Unordered

instance : CoeFun (Unordered α) fun _ => List α → List α := ⟨order⟩

/-- As they were started. -/
def asStarted : Unordered α := ⟨id, fun _ => .rfl⟩

/-- The last one first. -/
def lastFirst : Unordered α := ⟨List.reverse, List.reverse_perm⟩

variable (o : Unordered α) {l : List α} {a : α}

@[simp] theorem length_order : (o l).length = l.length := (o.perm l).length_eq

@[simp] theorem mem_order : a ∈ o l ↔ a ∈ l := (o.perm l).mem_iff

@[simp] theorem countP_order (p : α → Bool) : (o l).countP p = l.countP p := (o.perm l).countP_eq p

@[simp] theorem order_eq_nil : o l = [] ↔ l = [] := by
  rw [← List.length_eq_zero_iff, length_order, List.length_eq_zero_iff]

/-- Any rearrangement of the futures is an order of completion. -/
theorem exists_order_eq {l' : List α} (h : l'.Perm l) : ∃ o : Unordered α, o l = l' := by
  classical
  refine ⟨⟨fun k => if k = l then l' else k, fun k => ?_⟩, if_pos rfl⟩
  split_ifs with hk
  · rwa [hk]
  · exact .rfl

/-- Some of the futures may be the first to complete. -/
theorem exists_order_append {s : List α} (h : s.Sublist l) :
    ∃ (o : Unordered α) (rest : List α), o l = s ++ rest := by
  obtain ⟨rest, hperm⟩ := h.exists_perm_append
  obtain ⟨o, ho⟩ := exists_order_eq hperm.symm
  exact ⟨o, rest, ho⟩

end Unordered

end Lib
