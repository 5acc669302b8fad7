/-
  Lists given by a function of the position, `(List.range n).map f`.
-/
import Autonomi.Lib.Slice

namespace Lib

variable {α : Type*} (f : ℕ → α)

theorem getElem?_map_range (n i : ℕ) :
    ((List.range n).map f)[i]? = if i < n then some (f i) else none := by
  rw [List.getElem?_map]
  split_ifs with h
  · rw [List.getElem?_range h]; rfl
  · rw [List.getElem?_eq_none (by simpa using h)]; rfl

theorem zipIdx_map_range (n : ℕ) :
    ((List.range n).map f).zipIdx = (List.range n).map fun i => (f i, i) := by
  apply List.ext_getElem
  · simp
  · intro i _ _; simp

theorem set_map_range (n i : ℕ) (a : α) :
    ((List.range n).map f).set i a = (List.range n).map fun j => if j = i then a else f j := by
  apply List.ext_getElem
  · simp
  · intro j _ _
    simp only [List.getElem_set, List.getElem_map, List.getElem_range, eq_comm]

theorem modify_map_range (n i : ℕ) (g : α → α) :
    ((List.range n).map f).modify i g =
      (List.range n).map fun j => if j = i then g (f j) else f j := by
  apply List.ext_getElem
  · simp
  · intro j _ _
    rw [List.getElem_modify]
    simp only [List.getElem_map, List.getElem_range, eq_comm]

theorem slice_map_range {n a b : ℕ} (hb : b ≤ n) :
    slice ((List.range n).map f) a b = (List.range' a (b - a)).map f := by
  apply List.ext_getElem?
  intro i
  rw [getElem?_slice, getElem?_map_range, List.getElem?_map]
  by_cases hi : i < b - a
  · rw [if_pos (by omega), if_pos (by omega), List.getElem?_range' hi, one_mul]; rfl
  · rw [if_neg (by omega), List.getElem?_eq_none (by simpa using hi)]; rfl

theorem filter_range_between {n a c : ℕ} (hc : c ≤ n) :
    (List.range n).filter (fun i => decide (a ≤ i ∧ i < c)) = List.range' a (c - a) := by
  refine List.Perm.eq_of_pairwise (fun _ _ _ _ h h' => le_antisymm h h')
    (List.pairwise_le_range.filter _) (List.pairwise_le_range' 1) ?_
  refine (List.perm_ext_iff_of_nodup (List.nodup_range.filter _) List.nodup_range').2 fun i => ?_
  rw [List.mem_filter, List.mem_range, decide_eq_true_iff, List.mem_range'_1]
  omega

/-- The first two entries, put in after the others. -/
theorem insertIdx_map_range {n : ℕ} (hn : 2 ≤ n) :
    (((List.range' 2 (n - 2)).map f).insertIdx 0 (f 0)).insertIdx 1 (f 1) =
      (List.range n).map f := by
  obtain ⟨n, rfl⟩ := Nat.exists_eq_add_of_le' hn
  rw [Nat.add_sub_cancel, List.range_eq_range', List.range'_succ, List.range'_succ]; rfl

end Lib
