/-
  The partition with the arithmetic of the machine
  (`self_encryption/src/utils.rs`): the functions of `Utils` once more, with an
  overflow as `none`, and `get_chunk_index`, which goes the other way.
-/
import Autonomi.Lib.Word
import Autonomi.SelfEncryption.Utils

namespace Autonomi

open Lib

namespace Checked

variable (W m : ℕ)

def getNumChunks (fileSize : ℕ) : Option ℕ :=
  if fileSize < 3 * minChunkSize then pure 0
  else do
    let small ← Word.mul W 3 m
    if fileSize < small then pure 3
    else if fileSize % m = 0 then Word.div fileSize m
    else do
      let whole ← Word.div fileSize m
      Word.add W whole 1

def getChunkSize (fileSize chunkIndex : ℕ) : Option ℕ :=
  if fileSize < 3 * minChunkSize then pure 0
  else do
    let small ← Word.mul W 3 m
    if fileSize < small then
      if chunkIndex < 2 then pure (fileSize / 3)
      else do
        let firstTwo ← Word.mul W 2 (fileSize / 3)
        Word.sub fileSize firstTwo
    else do
      let totalChunks ← getNumChunks W m fileSize
      let penultimate ← Word.sub totalChunks 2
      if chunkIndex < penultimate then pure m
      else do
        let remainder ← Word.mod fileSize m
        if remainder = 0 then pure m
        else if remainder < minChunkSize then
          if penultimate = chunkIndex then Word.sub m minChunkSize
          else Word.add W minChunkSize remainder
        else if penultimate = chunkIndex then pure m
        else pure remainder

def getStartPosition (fileSize chunkIndex : ℕ) : Option ℕ := do
  let totalChunks ← getNumChunks W m fileSize
  if totalChunks = 0 then pure 0
  else do
    let last ← Word.sub totalChunks 1
    let firstChunkSize ← getChunkSize W m fileSize 0
    if last = chunkIndex then do
      let before ← Word.sub chunkIndex 1
      let start ← Word.mul W firstChunkSize before
      let size ← getChunkSize W m fileSize before
      Word.add W start size
    else Word.mul W firstChunkSize chunkIndex

def getStartEndPositions (fileSize chunkIndex : ℕ) : Option (ℕ × ℕ) := do
  let numChunks ← getNumChunks W m fileSize
  if numChunks = 0 then pure (0, 0)
  else do
    let start ← getStartPosition W m fileSize chunkIndex
    let size ← getChunkSize W m fileSize chunkIndex
    let stop ← Word.add W start size
    pure (start, stop)

/-- The last comparison is made only if the others fail. -/
def getChunkIndex (fileSize position : ℕ) : Option ℕ := do
  let numChunks ← getNumChunks W m fileSize
  if numChunks = 0 then pure 0
  else do
    let chunkSize ← getChunkSize W m fileSize 0
    let remainder ← Word.mod fileSize chunkSize
    let regular ← (if remainder = 0 ∨ minChunkSize ≤ remainder then pure true
      else do
        let whole ← Word.sub fileSize remainder
        let limit ← Word.sub whole minChunkSize
        pure (decide (position < limit)) : Option Bool)
    let last ← Word.sub numChunks 1
    if regular then do
      let index ← Word.div position chunkSize
      pure (min index last)
    else pure last

/-! ## Nothing overflows -/

variable {W m} {n i : ℕ}

theorem getNumChunks_eq (hm : 0 < m) (h3 : 3 ≤ n) (hn : n < W) (hW : 3 * m < W) :
    getNumChunks W m n = some (Autonomi.getNumChunks m n) := by
  have h1 := minChunkSize_eq
  rw [getNumChunks, if_neg (by omega), Word.mul_of_lt hW, Option.bind_eq_bind, Option.bind_some]
  by_cases hsmall : n < 3 * m
  · rw [if_pos hsmall, getNumChunks_small h3 hsmall]
    rfl
  rw [if_neg hsmall, Word.div_of_pos hm, getNumChunks_div h3 (Nat.le_of_not_lt hsmall)]
  split_ifs with hmod
  · rfl
  · -- a remainder needs chunks of two bytes or more
    have hm2 : 2 ≤ m := by
      by_contra h
      obtain rfl : m = 1 := by omega
      exact hmod (Nat.mod_one n)
    have hdiv : n / m ≤ n / 2 := Nat.div_le_div_left hm2 (by omega)
    rw [Option.bind_some, Word.add_of_lt (by omega)]

theorem getChunkSize_eq (hm : 0 < m) (h3 : 3 ≤ n) (hn : n < W) (hW : 3 * m < W) :
    getChunkSize W m n i = some (Autonomi.getChunkSize m n i) := by
  have h1 := minChunkSize_eq
  have hN := three_le_getNumChunks hm h3
  have hsize : ¬ n < 3 * minChunkSize := by omega
  have hlast : 2 ≤ Autonomi.getNumChunks m n := by omega
  unfold getChunkSize Autonomi.getChunkSize
  simp only [if_neg hsize, Word.mul_of_lt hW, Option.bind_eq_bind, Option.bind_some]
  by_cases hsmall : n < 3 * m
  · simp only [if_pos hsmall]
    have htwo : 2 * (n / 3) < W := by omega
    split_ifs
    · rfl
    · rw [Word.mul_of_lt htwo, Option.bind_some, Word.sub_of_le (by omega)]
  · simp only [if_neg hsmall, getNumChunks_eq hm h3 hn hW, Option.bind_some, Word.sub_of_le hlast,
      Word.mod_of_pos hm]
    split_ifs <;> first | rfl | omega

theorem getStartPosition_eq (hm : 0 < m) (h3 : 3 ≤ n) (hn : n < W) (hW : 3 * m < W)
    (hi : i < Autonomi.getNumChunks m n) :
    getStartPosition W m n i = some (cut m n i) := by
  have hN := three_le_getNumChunks hm h3
  have hle := cut_le m n i
  rw [getStartPosition, getNumChunks_eq hm h3 hn hW, Option.bind_eq_bind, Option.bind_some,
    if_neg (by omega), Word.sub_of_le (by omega), Option.bind_some,
    getChunkSize_eq hm h3 hn hW, Option.bind_some,
    getChunkSize_inner hm h3 (by omega)]
  have hcut := cut_of_lt hm h3 hi
  split_ifs with hlast
  · have hbefore : chunkWidth m n * (i - 1) + chunkWidth m n = cut m n i := by
      rw [hcut, ← Nat.mul_succ, Nat.succ_eq_add_one, Nat.sub_add_cancel (by omega)]
    rw [Word.sub_of_le (by omega), Option.bind_some,
      Word.mul_of_lt (by omega), Option.bind_some, getChunkSize_eq hm h3 hn hW,
      Option.bind_some, getChunkSize_inner hm h3 (by omega),
      Word.add_of_lt (by omega), hbefore]
  · rw [Word.mul_of_lt (by omega), hcut]

theorem getStartEndPositions_eq (hm : 0 < m) (h3 : 3 ≤ n) (hn : n < W) (hW : 3 * m < W)
    (hi : i < Autonomi.getNumChunks m n) :
    getStartEndPositions W m n i = some (cut m n i, cut m n (i + 1)) := by
  have hN := three_le_getNumChunks hm h3
  have hmono := cut_mono m n (Nat.le_succ i)
  have hle := cut_le m n (i + 1)
  have hsum : cut m n i + Autonomi.getChunkSize m n i = cut m n (i + 1) := by
    rw [Autonomi.getChunkSize_eq hm h3 hi, Nat.add_sub_cancel' hmono]
  rw [getStartEndPositions, getNumChunks_eq hm h3 hn hW, Option.bind_eq_bind, Option.bind_some,
    if_neg (by omega), getStartPosition_eq hm h3 hn hW hi, Option.bind_some,
    getChunkSize_eq hm h3 hn hW, Option.bind_some,
    Word.add_of_lt (by omega), hsum]
  rfl

theorem getChunkIndex_eq (hm : 0 < m) (h3 : 3 ≤ n) (hn : n < W) (hW : 3 * m < W) (position : ℕ) :
    getChunkIndex W m n position =
      some (min (position / chunkWidth m n) (Autonomi.getNumChunks m n - 1)) := by
  have h1 := minChunkSize_eq
  have hN := three_le_getNumChunks hm h3
  have hpos := chunkWidth_pos hm h3
  have hregular : n % chunkWidth m n = 0 ∨ minChunkSize ≤ n % chunkWidth m n := by omega
  rw [getChunkIndex, getNumChunks_eq hm h3 hn hW, Option.bind_eq_bind, Option.bind_some,
    if_neg (by omega), getChunkSize_eq hm h3 hn hW, Option.bind_some,
    getChunkSize_inner hm h3 (by omega), Word.mod_of_pos hpos, Option.bind_some, if_pos hregular, Word.sub_of_le (by omega), Word.div_of_pos hpos]
  rfl

/-! ## The index of a position -/

/-- The chunk of a position, counted in widths. -/
theorem cut_index (hm : 0 < m) (h3 : 3 ≤ n) {position : ℕ} (hp : position < n) :
    min (position / chunkWidth m n) (Autonomi.getNumChunks m n - 1) < Autonomi.getNumChunks m n ∧
      cut m n (min (position / chunkWidth m n) (Autonomi.getNumChunks m n - 1)) ≤ position ∧
      position < cut m n (min (position / chunkWidth m n) (Autonomi.getNumChunks m n - 1) + 1) := by
  have hN := three_le_getNumChunks hm h3
  have hpos := chunkWidth_pos hm h3
  generalize hi : min (position / chunkWidth m n) (Autonomi.getNumChunks m n - 1) = i
  have hlt : i < Autonomi.getNumChunks m n := by omega
  refine ⟨hlt, ?_, ?_⟩
  · rw [cut_of_lt hm h3 hlt]
    have hle : chunkWidth m n * i ≤ chunkWidth m n * (position / chunkWidth m n) :=
      Nat.mul_le_mul_left _ (by omega)
    exact hle.trans (Nat.mul_div_le _ _)
  · rcases Nat.lt_or_ge (i + 1) (Autonomi.getNumChunks m n) with h | h
    · obtain rfl : i = position / chunkWidth m n := by omega
      rw [cut_of_lt hm h3 h]
      exact Nat.lt_mul_div_succ position hpos
    · rwa [cut_of_le h]

theorem index_unique {position i j : ℕ} (hi : cut m n i ≤ position ∧ position < cut m n (i + 1))
    (hj : cut m n j ≤ position ∧ position < cut m n (j + 1)) : i = j := by
  rcases Nat.lt_trichotomy i j with h | h | h
  · have := cut_mono m n (show i + 1 ≤ j from h)
    omega
  · exact h
  · have := cut_mono m n (show j + 1 ≤ i from h)
    omega

/-- **The partition is exact**: the ranges are not empty, follow each other from the start of the
    file to its end, and every position is in the one of its index. -/
theorem partition_exact (hm : 0 < m) (h3 : 3 ≤ n) (hn : n < W) (hW : 3 * m < W) :
    ∃ numChunks, getNumChunks W m n = some numChunks ∧ 3 ≤ numChunks ∧
      ∃ bound : ℕ → ℕ, bound 0 = 0 ∧ bound numChunks = n ∧
        (∀ i < numChunks, bound i < bound (i + 1) ∧
          getStartPosition W m n i = some (bound i) ∧
          getChunkSize W m n i = some (bound (i + 1) - bound i) ∧
          getStartEndPositions W m n i = some (bound i, bound (i + 1))) ∧
        ∀ p < n, ∃ i < numChunks, getChunkIndex W m n p = some i ∧
          (bound i ≤ p ∧ p < bound (i + 1)) ∧
          ∀ j < numChunks, bound j ≤ p ∧ p < bound (j + 1) → j = i := by
  refine ⟨_, getNumChunks_eq hm h3 hn hW, three_le_getNumChunks hm h3, cut m n, cut_zero hm h3,
    cut_of_le le_rfl, fun i hi => ⟨cut_lt_cut_succ hm h3 hi, getStartPosition_eq hm h3 hn hW hi, ?_,
      getStartEndPositions_eq hm h3 hn hW hi⟩, fun p hp => ?_⟩
  · rw [getChunkSize_eq hm h3 hn hW, Autonomi.getChunkSize_eq hm h3 hi]
  · obtain ⟨hlt, hle, hlt'⟩ := cut_index hm h3 hp
    exact ⟨_, hlt, getChunkIndex_eq hm h3 hn hW p, ⟨hle, hlt'⟩,
      fun j _ hj => index_unique hj ⟨hle, hlt'⟩⟩

/-- Just below the size from which chunks are cut at the maximum. -/
theorem partition_exact_329 : ∃ numChunks, getNumChunks (2 ^ 64) 110 329 = some numChunks ∧
    3 ≤ numChunks := by
  obtain ⟨numChunks, h, h3, -⟩ := partition_exact (W := 2 ^ 64) (m := 110) (n := 329) (by decide)
    (by decide) (by decide) (by decide)
  exact ⟨numChunks, h, h3⟩

end Checked

end Autonomi
