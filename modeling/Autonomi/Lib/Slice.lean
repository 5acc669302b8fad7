/-
  Ranges of a list, and a list cut into consecutive ranges.
-/
import Mathlib

namespace Lib

variable {α : Type*}

/-- The elements of `l` at the positions `a ≤ p < b`. -/
def slice (l : List α) (a b : ℕ) : List α := (l.drop a).take (b - a)

@[simp] theorem slice_self (l : List α) (a : ℕ) : slice l a a = [] := by simp [slice]

@[simp] theorem slice_full (l : List α) : slice l 0 l.length = l := by simp [slice]

theorem slice_of_le (l : List α) {a b : ℕ} (h : b ≤ a) : slice l a b = [] := by
  simp [slice, Nat.sub_eq_zero_of_le h]

theorem slice_of_length_le (l : List α) {a : ℕ} (b : ℕ) (h : l.length ≤ a) : slice l a b = [] := by
  simp [slice, List.drop_eq_nil_of_le h]

theorem length_slice (l : List α) (a b : ℕ) : (slice l a b).length = min b l.length - a := by
  simp only [slice, List.length_take, List.length_drop]; omega

theorem slice_append (l : List α) {a b c : ℕ} (hab : a ≤ b) (hbc : b ≤ c) :
    slice l a b ++ slice l b c = slice l a c := by
  have hb : l.drop b = (l.drop a).drop (b - a) := by rw [List.drop_drop]; congr 1; omega
  have hc : c - a = b - a + (c - b) := by omega
  rw [slice, slice, slice, hb, hc, List.take_add]

theorem slice_append_right {l l' : List α} {a : ℕ} (b : ℕ) (h : l.length ≤ a) :
    slice (l ++ l') a b = slice l' (a - l.length) (b - l.length) := by
  have hsub : b - a = b - l.length - (a - l.length) := by omega
  rw [slice, slice, List.drop_append, List.drop_eq_nil_of_le h, List.nil_append, hsub]

theorem slice_min_length (l : List α) (a b : ℕ) : slice l a (min b l.length) = slice l a b := by
  rcases Nat.le_total b l.length with h | h
  · rw [min_eq_left h]
  · rw [min_eq_right h, slice, slice, List.take_of_length_le (by simp),
      List.take_of_length_le (by simp only [List.length_drop]; omega)]

theorem drop_slice (l : List α) (a b k : ℕ) : (slice l a b).drop k = slice l (a + k) b := by
  rw [slice, slice, List.drop_take, List.drop_drop]; congr 1; omega

theorem slice_slice (l : List α) (a b c d : ℕ) :
    slice (slice l a b) c d = slice l (a + c) (min (a + d) b) := by
  simp only [slice, List.drop_take, List.drop_drop, List.take_take]
  congr 1; omega

theorem getElem?_slice (l : List α) (a b i : ℕ) :
    (slice l a b)[i]? = if a + i < b then l[a + i]? else none := by
  simp only [slice, List.getElem?_take, List.getElem?_drop]
  split_ifs <;> first | rfl | omega

/-- Ranges are equal where every position is. -/
theorem slice_eq_slice_iff {l l' : List α} {a b : ℕ} :
    slice l a b = slice l' a b ↔ ∀ p, a ≤ p → p < b → l[p]? = l'[p]? := by
  constructor
  · intro h p ha hb
    have hp := congrArg (fun l => l[p - a]?) h
    simpa only [getElem?_slice, Nat.add_sub_cancel' ha, if_pos hb] using hp
  · intro h
    ext1 i
    rw [getElem?_slice, getElem?_slice]
    split_ifs with hi
    · exact h (a + i) (Nat.le_add_right a i) hi
    · rfl

/-- When the positions from `c` to `d` are cut out of a list, what comes after them moves to the
    front. -/
theorem getElem?_cutOut (l : List α) {c d : ℕ} (hc : c ≤ d) (hd : d ≤ l.length) (p : ℕ) :
    (slice l 0 c ++ slice l d l.length)[p]? = if p < c then l[p]? else l[p + (d - c)]? := by
  have hlen : (slice l 0 c).length = c := by rw [length_slice]; omega
  rw [List.getElem?_append, hlen]
  split_ifs with hp
  · rw [getElem?_slice, Nat.zero_add, if_pos hp]
  · have hpos : d + (p - c) = p + (d - c) := by omega
    rw [getElem?_slice, hpos]
    split_ifs with hlt
    · rfl
    · exact (List.getElem?_eq_none (Nat.le_of_not_lt hlt)).symm

/-- Nothing is seen of the cut where the list repeats itself. -/
theorem slice_cutOut_iff (l : List α) {c d : ℕ} (hc : c ≤ d) (hd : d ≤ l.length) (a b : ℕ) :
    slice (slice l 0 c ++ slice l d l.length) a (min b l.length) = slice l a (min b l.length) ↔
      ∀ p, a ≤ p → c ≤ p → p < b → l[p]? = l[p + (d - c)]? := by
  rw [slice_eq_slice_iff]
  simp only [getElem?_cutOut l hc hd]
  constructor
  · intro h p ha hp hb
    rcases Nat.lt_or_ge p l.length with hlt | hge
    · have hpos := h p ha (lt_min hb hlt)
      rw [if_neg (Nat.not_lt_of_le hp)] at hpos
      exact hpos.symm
    · rw [List.getElem?_eq_none hge, List.getElem?_eq_none (hge.trans (Nat.le_add_right _ _))]
  · intro h p ha hb
    split_ifs with hp
    · rfl
    · exact (h p ha (Nat.le_of_not_lt hp) (hb.trans_le (min_le_left _ _))).symm

/-- Consecutive ranges put together: the cut points `cut i, …, cut (i + k)`. -/
theorem flatten_slices (l : List α) {cut : ℕ → ℕ} (hc : Monotone cut) (i : ℕ) :
    ∀ k, ((List.range' i k).map fun j => slice l (cut j) (cut (j + 1))).flatten =
      slice l (cut i) (cut (i + k))
  | 0 => by simp
  | k + 1 => by
    rw [← List.range'_append_1 (s := i) (m := k) (n := 1), List.map_append, List.flatten_append,
      flatten_slices l hc i k]
    simp only [List.range'_one, List.map_cons, List.map_nil, List.flatten_cons, List.flatten_nil,
      List.append_nil]
    rw [slice_append l (hc (by omega)) (hc (by omega))]; rfl

/-- `chunks(n)`: ranges of `n` elements, and one of what is left. -/
def chunked (n : ℕ) (l : List α) : List (List α) :=
  (List.range ((l.length + n - 1) / n)).map fun i => slice l (n * i) (n * (i + 1))

theorem flatten_chunked {n : ℕ} (hn : 0 < n) (l : List α) : (chunked n l).flatten = l := by
  have hmono : Monotone fun i => n * i := fun _ _ h => Nat.mul_le_mul_left _ h
  have hlast : l.length ≤ n * ((l.length + n - 1) / n) := by
    have hmod := Nat.div_add_mod (l.length + n - 1) n
    have := Nat.mod_lt (l.length + n - 1) hn
    omega
  rw [chunked, List.range_eq_range', flatten_slices l hmono, Nat.zero_add, ← slice_min_length,
    min_eq_right hlast, Nat.mul_zero, slice_full]

theorem chunked_cons {n : ℕ} (hn : 0 < n) (a : α) (l : List α) :
    ∃ rest, chunked n (a :: l) = (a :: l.take (n - 1)) :: rest := by
  obtain ⟨m, rfl⟩ := Nat.exists_eq_succ_of_ne_zero hn.ne'
  have hpos : 0 < ((a :: l).length + (m + 1) - 1) / (m + 1) := Nat.div_pos (by simp) hn
  obtain ⟨k, hk⟩ := Nat.exists_eq_succ_of_ne_zero hpos.ne'
  have hslice : slice (a :: l) ((m + 1) * 0) ((m + 1) * (0 + 1)) = a :: l.take m := by simp [slice]
  rw [chunked, hk, List.range_succ_eq_map, List.map_cons, hslice]
  exact ⟨_, rfl⟩

theorem chunked_of_length_le {n : ℕ} {l : List α} (hl : l ≠ []) (h : l.length ≤ n) :
    chunked n l = [l] := by
  have hpos : 0 < l.length := List.length_pos_iff.2 hl
  have hcount : (l.length + n - 1) / n = 1 := by
    refine Nat.div_eq_of_lt_le ?_ ?_ <;> omega
  rw [chunked, hcount]
  simp [slice, h]

theorem length_of_mem_chunked {n : ℕ} {l c : List α} (h : c ∈ chunked n l) : c.length ≤ n := by
  obtain ⟨i, -, rfl⟩ := List.mem_map.1 h
  have hsucc : n * (i + 1) = n * i + n := Nat.mul_succ n i
  rw [length_slice]
  omega

/-- A single element is left over exactly where the length says so. -/
theorem two_le_length_chunked_iff {n : ℕ} (hn : 1 < n) (l : List α) :
    (∀ c ∈ chunked n l, 2 ≤ c.length) ↔ l.length % n ≠ 1 := by
  have hdiv := Nat.div_add_mod l.length n
  have hlt := Nat.mod_lt l.length (show 0 < n by omega)
  constructor
  · intro h hone
    have hcount : l.length / n < (l.length + n - 1) / n := by
      rw [Nat.lt_div_iff_mul_lt (by omega), mul_comm]
      omega
    have hlast := h _ (List.mem_map.2 ⟨l.length / n, List.mem_range.2 hcount, rfl⟩)
    have hsucc : n * (l.length / n + 1) = n * (l.length / n) + n := Nat.mul_succ n _
    rw [length_slice] at hlast
    omega
  · intro hone c hc
    obtain ⟨i, hi, rfl⟩ := List.mem_map.1 hc
    have hsucc : n * (i + 1) = n * i + n := Nat.mul_succ n i
    have hstart : n * i < l.length := by
      have hmul := (Nat.le_div_iff_mul_le (show 0 < n by omega)).1 (List.mem_range.1 hi)
      rw [Nat.succ_mul, mul_comm] at hmul
      omega
    rw [length_slice]
    rcases Nat.lt_or_ge l.length (n * (i + 1)) with hshort | hfull
    · have hi : l.length / n = i := by
        refine Nat.div_eq_of_lt_le ?_ ?_
        · rw [mul_comm]
          exact hstart.le
        · rwa [mul_comm]
      rw [hi] at hdiv
      omega
    · omega

/-- Elements of positive weight: none is left out if nothing of the weight is. -/
theorem eq_of_sum_eq {l l' : List α} {w : α → ℕ} (h : l.Sublist l') (hw : ∀ a ∈ l', 0 < w a)
    (hsum : (l.map w).sum = (l'.map w).sum) : l = l' := by
  induction h with
  | slnil => rfl
  | @cons l l' a h ih =>
    have hle : (l.map w).sum ≤ (l'.map w).sum :=
      (h.map w).sum_le_sum fun _ _ => Nat.zero_le _
    have ha := hw a List.mem_cons_self
    rw [List.map_cons, List.sum_cons] at hsum; omega
  | @cons_cons l l' a h ih =>
    rw [List.map_cons, List.sum_cons, List.map_cons, List.sum_cons] at hsum
    rw [ih (fun b hb => hw b (List.mem_cons_of_mem _ hb)) (by omega)]

end Lib
