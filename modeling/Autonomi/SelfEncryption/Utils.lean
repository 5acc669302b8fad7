/-
  The partition of a file into chunks (`self_encryption/src/utils.rs`).

  `MAX_CHUNK_SIZE` is fixed when the crate is compiled; here it is the
  parameter `m` of every function, with the default `maxChunkSize`.  The
  `_with_variable_max` functions of the source are the same functions.
-/
import Autonomi.Lib.Slice
import Autonomi.SelfEncryption.DataMap

namespace Autonomi

open Lib

/-- The default `MAX_CHUNK_SIZE`. -/
def maxChunkSize : ℕ := 4190208

def minChunkSize : ℕ := 1

def minEncryptableBytes : ℕ := 3 * minChunkSize

variable (m : ℕ)

def getNumChunks (fileSize : ℕ) : ℕ :=
  if fileSize < 3 * minChunkSize then 0
  else if fileSize < 3 * m then 3
  else if fileSize % m = 0 then fileSize / m
  else fileSize / m + 1

def getChunkSize (fileSize chunkIndex : ℕ) : ℕ :=
  if fileSize < 3 * minChunkSize then 0
  else if fileSize < 3 * m then
    if chunkIndex < 2 then fileSize / 3
    -- the third chunk takes the remainder
    else fileSize - 2 * (fileSize / 3)
  else
    let totalChunks := getNumChunks m fileSize
    if chunkIndex < totalChunks - 2 then m
    else
      let remainder := fileSize % m
      let penultimate := totalChunks - 2 = chunkIndex
      if remainder = 0 then m
      else if remainder < minChunkSize then
        if penultimate then m - minChunkSize else minChunkSize + remainder
      else if penultimate then m
      else remainder

def getStartPosition (fileSize chunkIndex : ℕ) : ℕ :=
  let totalChunks := getNumChunks m fileSize
  if totalChunks = 0 then 0
  else
    let last := totalChunks - 1 = chunkIndex
    let firstChunkSize := getChunkSize m fileSize 0
    if last then firstChunkSize * (chunkIndex - 1) + getChunkSize m fileSize (chunkIndex - 1)
    else firstChunkSize * chunkIndex

def getStartEndPositions (fileSize chunkIndex : ℕ) : ℕ × ℕ :=
  if getNumChunks m fileSize = 0 then (0, 0)
  else
    let start := getStartPosition m fileSize chunkIndex
    (start, start + getChunkSize m fileSize chunkIndex)

/-! ## The cut points -/

variable {m}

@[simp] theorem minChunkSize_eq : minChunkSize = 1 := rfl

theorem getNumChunks_small {n : ℕ} (h3 : 3 ≤ n) (h : n < 3 * m) : getNumChunks m n = 3 := by
  have h1 := minChunkSize_eq
  unfold getNumChunks; rw [if_neg (by omega), if_pos h]

theorem getNumChunks_div {n : ℕ} (h3 : 3 ≤ n) (h : 3 * m ≤ n) :
    getNumChunks m n = if n % m = 0 then n / m else n / m + 1 := by
  have h1 := minChunkSize_eq
  unfold getNumChunks; rw [if_neg (by omega), if_neg (by omega)]

/-- A large file has `⌈n / m⌉` chunks. -/
theorem getNumChunks_large {n : ℕ} (hm : 0 < m) (h3 : 3 ≤ n) (h : 3 * m ≤ n) :
    m * (getNumChunks m n - 1) < n ∧ n ≤ m * getNumChunks m n ∧ 3 ≤ getNumChunks m n := by
  have hq : 3 ≤ n / m := (Nat.le_div_iff_mul_le hm).2 h
  have hdm := Nat.div_add_mod n m
  have hlt := Nat.mod_lt n hm
  have hpred : m * (n / m - 1) + m = m * (n / m) := by
    rw [← Nat.mul_succ, Nat.succ_eq_add_one, Nat.sub_add_cancel (by omega)]
  rw [getNumChunks_div h3 h]
  split_ifs with hr
  · omega
  · rw [Nat.add_sub_cancel, Nat.mul_succ]; omega

theorem three_le_getNumChunks {n : ℕ} (hm : 0 < m) (h3 : 3 ≤ n) : 3 ≤ getNumChunks m n := by
  rcases Nat.lt_or_ge n (3 * m) with h | h
  · rw [getNumChunks_small h3 h]
  · exact (getNumChunks_large hm h3 h).2.2

theorem le_of_getNumChunks {n : ℕ} (h : 3 ≤ getNumChunks m n) : 3 ≤ n := by
  by_contra h3
  have h1 := minChunkSize_eq
  unfold getNumChunks at h; rw [if_pos (by omega)] at h; omega

theorem pos_of_getNumChunks {n : ℕ} (h : 3 ≤ getNumChunks m n) : 0 < m := by
  have h3 := le_of_getNumChunks h
  refine Nat.pos_of_ne_zero fun hm => ?_
  subst hm
  rw [getNumChunks_div h3 (by omega), if_neg (by rw [Nat.mod_zero]; omega), Nat.div_zero] at h
  omega

/-- The size of every chunk but the last. -/
def chunkWidth (m n : ℕ) : ℕ := if n < 3 * m then n / 3 else m

/-- Where chunk `i` starts; past the last chunk, the end of the file. -/
def cut (m n i : ℕ) : ℕ := if i < getNumChunks m n then min n (chunkWidth m n * i) else n

theorem chunkWidth_mul_lt {n : ℕ} (hm : 0 < m) (h3 : 3 ≤ n) :
    chunkWidth m n * (getNumChunks m n - 1) < n := by
  unfold chunkWidth
  split_ifs with h
  · rw [getNumChunks_small h3 h]; omega
  · exact (getNumChunks_large hm h3 (by omega)).1

theorem chunkWidth_pos {n : ℕ} (hm : 0 < m) (h3 : 3 ≤ n) : 0 < chunkWidth m n := by
  unfold chunkWidth; split_ifs <;> omega

theorem cut_le (m n i : ℕ) : cut m n i ≤ n := by
  unfold cut; split_ifs
  · exact min_le_left _ _
  · exact le_rfl

theorem cut_of_lt {n i : ℕ} (hm : 0 < m) (h3 : 3 ≤ n) (hi : i < getNumChunks m n) :
    cut m n i = chunkWidth m n * i := by
  have h : chunkWidth m n * i ≤ chunkWidth m n * (getNumChunks m n - 1) :=
    Nat.mul_le_mul_left _ (by omega)
  rw [cut, if_pos hi, min_eq_right (h.trans (chunkWidth_mul_lt hm h3).le)]

theorem cut_of_le {n i : ℕ} (hi : getNumChunks m n ≤ i) : cut m n i = n := by
  rw [cut, if_neg (by omega)]

theorem cut_zero {n : ℕ} (hm : 0 < m) (h3 : 3 ≤ n) : cut m n 0 = 0 := by
  rw [cut_of_lt hm h3 (by have := three_le_getNumChunks hm h3; omega), mul_zero]

theorem cut_mono (m n : ℕ) : Monotone (cut m n) := by
  intro i j hij
  by_cases hj : j < getNumChunks m n
  · rw [cut, cut, if_pos hj, if_pos (by omega)]
    exact min_le_min_left _ (Nat.mul_le_mul_left _ hij)
  · rw [cut_of_le (Nat.le_of_not_lt hj)]; exact cut_le m n i

theorem cut_lt_cut_succ {n i : ℕ} (hm : 0 < m) (h3 : 3 ≤ n) (hi : i < getNumChunks m n) :
    cut m n i < cut m n (i + 1) := by
  rw [cut_of_lt hm h3 hi]
  rcases Nat.lt_or_ge (i + 1) (getNumChunks m n) with h | h
  · rw [cut_of_lt hm h3 h, Nat.mul_succ]
    have := chunkWidth_pos hm h3; omega
  · rw [cut_of_le h, show i = getNumChunks m n - 1 by omega]
    exact chunkWidth_mul_lt hm h3

theorem getChunkSize_inner {n i : ℕ} (hm : 0 < m) (h3 : 3 ≤ n) (hi : i + 1 < getNumChunks m n) :
    getChunkSize m n i = chunkWidth m n := by
  have h1 := minChunkSize_eq
  have hN := three_le_getNumChunks hm h3
  unfold getChunkSize chunkWidth
  rw [if_neg (by omega)]
  split_ifs with h hi'
  · rfl
  · rw [getNumChunks_small h3 h] at hi; omega
  · simp only; split_ifs <;> omega

theorem getChunkSize_last {n i : ℕ} (hm : 0 < m) (h3 : 3 ≤ n) (hi : i + 1 = getNumChunks m n) :
    getChunkSize m n i = n - chunkWidth m n * i := by
  have h1 := minChunkSize_eq
  have hN := three_le_getNumChunks hm h3
  unfold getChunkSize chunkWidth
  rw [if_neg (by omega)]
  split_ifs with h hi'
  · rw [getNumChunks_small h3 h] at hi; omega
  · rw [getNumChunks_small h3 h] at hi
    obtain rfl : i = 2 := by omega
    rw [mul_comm]
  · have hd := getNumChunks_div (m := m) h3 (by omega)
    have hdm := Nat.div_add_mod n m
    have hlt := Nat.mod_lt n hm
    rw [if_neg (by omega)]
    simp only
    by_cases hr : n % m = 0
    · rw [if_pos hr] at hd ⊢
      have hmul : m * i + m = m * (n / m) := by
        rw [← Nat.mul_succ, Nat.succ_eq_add_one, hi, hd]
      omega
    · rw [if_neg hr] at hd
      rw [if_neg hr, if_neg (by omega), if_neg (by omega), show i = n / m by omega]; omega

theorem getChunkSize_eq {n i : ℕ} (hm : 0 < m) (h3 : 3 ≤ n) (hi : i < getNumChunks m n) :
    getChunkSize m n i = cut m n (i + 1) - cut m n i := by
  rw [cut_of_lt hm h3 hi]
  rcases Nat.lt_or_ge (i + 1) (getNumChunks m n) with h | h
  · rw [cut_of_lt hm h3 h, Nat.mul_succ, Nat.add_sub_cancel_left, getChunkSize_inner hm h3 h]
  · rw [cut_of_le h, getChunkSize_last hm h3 (by omega)]

theorem getStartPosition_eq {n i : ℕ} (hm : 0 < m) (h3 : 3 ≤ n) (hi : i < getNumChunks m n) :
    getStartPosition m n i = cut m n i := by
  have hN := three_le_getNumChunks hm h3
  rw [cut_of_lt hm h3 hi]
  unfold getStartPosition
  simp only
  rw [if_neg (by omega), getChunkSize_inner hm h3 (by omega)]
  split_ifs with hl
  · rw [getChunkSize_inner hm h3 (by omega), ← Nat.mul_succ]; congr 1; omega
  · rfl

/-- **The partition**: chunk `i` is the range between two neighbouring cut points. -/
theorem getStartEndPositions_eq {n i : ℕ} (hm : 0 < m) (h3 : 3 ≤ n) (hi : i < getNumChunks m n) :
    getStartEndPositions m n i = (cut m n i, cut m n (i + 1)) := by
  have hN := three_le_getNumChunks hm h3
  unfold getStartEndPositions
  rw [if_neg (by omega), getStartPosition_eq hm h3 hi, getChunkSize_eq hm h3 hi]
  simp only
  rw [Nat.add_sub_cancel' (cut_mono m n (Nat.le_succ i))]

/-- The chunks put together are the file. -/
theorem flatten_chunks (data : Bytes) (hm : 0 < m) (h3 : 3 ≤ data.length) :
    ((List.range (getNumChunks m data.length)).map fun i =>
      slice data (cut m data.length i) (cut m data.length (i + 1))).flatten = data := by
  rw [List.range_eq_range', flatten_slices data (cut_mono m data.length), Nat.zero_add,
    cut_zero hm h3, cut_of_le le_rfl, slice_full]

end Autonomi
