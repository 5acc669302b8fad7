/-
  How far a data map is shrunk: the depth of the recursion between
  `encrypt_with_child_level` and `shrink_data_map`, the map that comes out, and
  the lengths and chunk sizes of the levels on the way.
-/
import Autonomi.Lib.Word
import Autonomi.SelfEncryption.StreamRefine

namespace Autonomi

open Lib

variable {P : Primitives} {m : ℕ} {data : Bytes} {level : ℕ} {map : DataMap}
  {chunks : List EncryptedChunk}

/-! ## The loop -/

/-- **The loop runs at most once**: its condition fails the second time. -/
theorem shrinkLoop_once {σ : Type} (storeChunk : σ → XorName → Bytes → Except Error σ)
    (fuel k : ℕ) (s : σ) (map : DataMap) (acc : List EncryptedChunk) :
    shrinkLoop P (encryptWithChildLevel P m fuel) storeChunk (k + 2) s map acc =
      shrinkLoop P (encryptWithChildLevel P m fuel) storeChunk 2 s map acc := by
  rw [shrinkLoop, shrinkLoop]
  split_ifs with hlen
  · refine Run.bind_congr fun bytes _ => Run.bind_congr fun r henc => Run.bind_congr fun s' _ => ?_
    obtain ⟨hle, hindexed⟩ := (encrypts_of_eq_ok henc).infos
    have hsmall : ∀ child, (DataMap.withChild r.1.infos child).len ≤ 3 := by
      intro child
      rwa [DataMap.withChild_eq hindexed]
    rw [shrinkLoop_small (hsmall _), shrinkLoop_small (hsmall _)]
  · rfl

/-! ## The depth -/

/-- A map of more than three infos is smaller than its file by a factor. -/
theorem mul_length_encode_le {b n : ℕ} (hb : 0 < b) (hm : 110 * b ≤ m)
    (hN : 3 < getNumChunks m n) : (10 + 80 * getNumChunks m n) * b ≤ n := by
  have h3 := le_of_getNumChunks hN.le
  have hpos : 0 < m := by omega
  have hlarge : 3 * m ≤ n := by
    by_contra h
    rw [getNumChunks_small h3 (by omega)] at hN
    omega
  have hlt := (getNumChunks_large hpos h3 hlarge).1
  calc (10 + 80 * getNumChunks m n) * b
      ≤ 110 * (getNumChunks m n - 1) * b := Nat.mul_le_mul_right _ (by omega)
    _ = 110 * b * (getNumChunks m n - 1) := by ring
    _ ≤ m * (getNumChunks m n - 1) := Nat.mul_le_mul_right _ hm
    _ ≤ n := hlt.le

/-- **The depth of the recursion** is at most logarithmic in the length of the file. -/
theorem encryptWithChildLevel_returns {b : ℕ} (hb : 1 < b) (hm : 110 * b ≤ m) {fuel : ℕ}
    (hd : data.length ≤ isizeMax) (hfuel : Nat.log b data.length < fuel) :
    Run.Returns (encryptWithChildLevel P m fuel data level) := by
  induction fuel generalizing data level with
  | zero => exact absurd hfuel (Nat.not_lt_zero _)
  | succ fuel ih =>
    rw [encryptWithChildLevel]
    by_cases h3 : data.length < minEncryptableBytes
    · rw [if_pos h3]
      exact .throw _
    rw [if_neg h3]
    by_cases hN : getNumChunks m data.length < 3
    · rw [if_pos hN]
      exact .throw _
    rw [if_neg hN]
    have hN := Nat.le_of_not_lt hN
    refine .bind (.lift _) fun pass hpass => ?_
    obtain ⟨hs, rfl⟩ := (encryptAll_eq_ok hN (pos_of_getNumChunks hN)).1 (Run.lift_eq_ok.1 hpass)
    refine .bind ?_ fun r _ => .pure _
    rw [shrinkLoop_once, shrinkLoop, new_passEnd]
    split_ifs with hlen
    · rw [DataMap.len_mk, length_infosOf] at hlen
      have hle := mul_length_encode_le (by omega) hm hlen
      have hlength := length_encode_infosOf P m level data
      have hlog : Nat.log b (10 + 80 * getNumChunks m data.length) < fuel := by
        have hmul := Nat.log_mul_base hb (show 10 + 80 * getNumChunks m data.length ≠ 0 by omega)
        have hmono := Nat.log_mono_right (b := b) hle
        omega
      have hlt : 10 + 80 * getNumChunks m data.length ≤ data.length :=
        (Nat.le_mul_of_pos_right _ (by omega)).trans hle
      refine .bind ?_ fun bytes hbytes => ?_
      · change Run.Returns (liftM (DataMap.toBytes _) : Run Error Bytes)
        rw [DataMap.toBytes, if_pos (by rw [← hlength] at hlt; exact hlt.trans hd)]
        exact Option.some_ne_none _
      · obtain ⟨rfl, -⟩ := DataMap.toBytes_eq_some (Run.liftOption_eq_ok.1 hbytes)
        rw [← hlength] at hlog hlt
        refine .bind (ih (hlt.trans hd) hlog) fun r henc => ?_
        obtain ⟨hle3, hindexed⟩ := (encrypts_of_eq_ok henc).infos
        refine .bind (.lift _) fun s _ => ?_
        rw [DataMap.withChild_eq hindexed, shrinkLoop_small (by exact hle3)]
        exact Option.some_ne_none _
    · exact .pure _

/-! ## The map that comes out -/

theorem Encrypts.len_eq (h : Encrypts P m data level map chunks) : map.len = 3 := by
  induction h with
  | root hs hN => rw [DataMap.len_mk, length_infosOf]; exact le_antisymm hN hs.three_le
  | shrink _ _ _ _ ih => exact ih

/-- The map is untagged exactly if it is the root map. -/
theorem Encrypts.child_eq_none (h : Encrypts P m data level map chunks) :
    map.child = none ↔ getNumChunks m data.length = 3 := by
  cases h with
  | root hs hN => exact ⟨fun _ => le_antisymm hN hs.three_le, fun _ => rfl⟩
  | shrink hs hN => exact ⟨nofun, fun h => absurd h (by omega)⟩

/-- **Shrinking ends** with a map of three infos, at a depth below five for any file, and the loop
    is never run twice. -/
theorem shrinking_terminates (P : Primitives) (hd : data.length ≤ isizeMax) :
    (∀ fuel, Nat.log 38092 data.length < fuel → Run.Returns (encrypt P maxChunkSize fuel data)) ∧
      (∀ (σ : Type) (storeChunk : σ → XorName → Bytes → Except Error σ) (fuel k : ℕ) (s : σ)
        (map : DataMap), shrinkLoop P (encryptWithChildLevel P maxChunkSize fuel) storeChunk (k + 2)
          s map [] = shrinkLoop P (encryptWithChildLevel P maxChunkSize fuel) storeChunk 2 s map []) ∧
      ∀ (fuel : ℕ) (map : DataMap) (chunks : List EncryptedChunk),
        encrypt P maxChunkSize fuel data = some (.ok (map, chunks)) → map.len = 3 ∧
          ∃ pass, encryptAll P maxChunkSize data 0 = .ok pass ∧
            (map.child = none ↔ (DataMap.new pass.chunkInfos).len = 3) := by
  refine ⟨fun fuel => encryptWithChildLevel_returns (by decide) (by decide) hd,
    fun σ storeChunk fuel k s map => shrinkLoop_once storeChunk fuel k s map [],
    fun fuel map chunks henc => ?_⟩
  have h := encrypts_of_eq_ok henc
  have hs := h.sealed
  refine ⟨h.len_eq, passEnd P maxChunkSize data 0, (encryptAll_eq_ok hs.three_le hs.pos.1).2 ⟨hs, rfl⟩, ?_⟩
  rw [new_passEnd, DataMap.len_mk, length_infosOf]
  exact h.child_eq_none

/-- A file of one byte more than three full chunks, at a depth of two: its map is shrunk. -/
theorem shrinking_terminates_four :
    Run.Returns (encrypt clear maxChunkSize 2 (List.replicate 12570625 7)) ∧
      ∃ fuel map chunks,
        encrypt clear maxChunkSize fuel (List.replicate 12570625 7) = some (.ok (map, chunks)) ∧
          map.len = 3 ∧ map.child ≠ none := by
  have hlen : (List.replicate 12570625 (7 : UInt8)).length = 12570625 := List.length_replicate
  have hd : (List.replicate 12570625 (7 : UInt8)).length ≤ isizeMax := by
    rw [hlen]
    decide
  have hN : getNumChunks maxChunkSize 12570625 = 4 := by decide
  obtain ⟨hdepth, -, hmap⟩ := shrinking_terminates clear hd
  obtain ⟨map, chunks, h⟩ := exists_encrypts clear_total (by omega) hd
    (show 0 < maxChunkSize by decide) (.inr (by decide))
  obtain ⟨fuel, henc⟩ := h.eq_ok
  obtain ⟨hthree, pass, hpass, hchild⟩ := hmap fuel map chunks henc
  refine ⟨hdepth 2 (by rw [hlen]; decide), fuel, map, chunks, henc, hthree, ?_⟩
  obtain ⟨-, rfl⟩ := (encryptAll_eq_ok (by rw [hlen, hN]; decide) (by decide)).1 hpass
  rw [ne_eq, hchild, new_passEnd, DataMap.len_mk, length_infosOf, hlen, hN]
  decide

/-! ## The sizes of the chunks -/

/-- Only the third of three chunks can be larger than the maximum, where the file falls one byte
    short of three full ones. -/
theorem getChunkSize_le_iff {n : ℕ} (hm : 0 < m) (h3 : 3 ≤ n) :
    (∀ i < getNumChunks m n, getChunkSize m n i ≤ m) ↔ n + 1 ≠ 3 * m := by
  have hN := three_le_getNumChunks hm h3
  have hlast := getChunkSize_last hm h3 (show getNumChunks m n - 1 + 1 = _ by omega)
  rcases Nat.lt_or_ge n (3 * m) with hsmall | hlarge
  · have hwidth : chunkWidth m n = n / 3 := if_pos hsmall
    rw [getNumChunks_small h3 hsmall, hwidth] at hlast
    constructor
    · intro hle hn
      have := hle (3 - 1) (by rw [getNumChunks_small h3 hsmall]; decide)
      omega
    · intro hn i hi
      rw [getNumChunks_small h3 hsmall] at hi
      rcases Nat.lt_or_ge i 2 with h | h
      · rw [getChunkSize_inner hm h3 (by rw [getNumChunks_small h3 hsmall]; omega), hwidth]
        omega
      · obtain rfl : i = 3 - 1 := by omega
        omega
  · refine iff_of_true (fun i hi => ?_) (by omega)
    have hwidth : chunkWidth m n = m := if_neg (by omega)
    rw [hwidth] at hlast
    rcases Nat.lt_or_ge (i + 1) (getNumChunks m n) with h | h
    · rw [getChunkSize_inner hm h3 h, hwidth]
    · obtain rfl : i = getNumChunks m n - 1 := by omega
      have hle := (getNumChunks_large hm h3 hlarge).2.1
      rw [hlast, Nat.sub_le_iff_le_add', ← Nat.mul_succ, Nat.succ_eq_add_one,
        Nat.sub_add_cancel (by omega)]
      exact hle

theorem srcSize_infosOf_le_iff (hs : Sealed P m level data) :
    (∀ info ∈ infosOf P m level data, info.srcSize ≤ m) ↔ data.length + 1 ≠ 3 * m := by
  obtain ⟨hm, h3⟩ := hs.pos
  rw [← getChunkSize_le_iff hm h3]
  constructor
  · intro h i hi
    rw [getChunkSize_eq hm h3 hi]
    exact h _ (mem_infosOf.2 ⟨i, hi, rfl⟩)
  · intro h info hinfo
    obtain ⟨i, hi, rfl⟩ := mem_infosOf.1 hinfo
    have := h i hi
    rwa [getChunkSize_eq hm h3 hi] at this

/-- How many bytes are encrypted at each level, the file first. -/
def levelLength (m : ℕ) : ℕ → ℕ → ℕ
  | 0, n => n
  | k + 1, n => if 3 < getNumChunks m n then levelLength m k (10 + 80 * getNumChunks m n) else n

theorem levelLength_root {n : ℕ} (hN : getNumChunks m n ≤ 3) (k : ℕ) : levelLength m k n = n := by
  cases k with
  | zero => rfl
  | succ k => exact if_neg (Nat.not_lt_of_le hN)

theorem levelLength_shrink {n : ℕ} (hN : 3 < getNumChunks m n) (k : ℕ) :
    levelLength m (k + 1) n = levelLength m k (10 + 80 * getNumChunks m n) := if_pos hN

/-- Where a file has more than three chunks it does not fall one byte short of three. -/
theorem ne_of_getNumChunks {n : ℕ} (hN : 3 < getNumChunks m n) : n + 1 ≠ 3 * m := by
  have h3 := le_of_getNumChunks hN.le
  intro hn
  rw [getNumChunks_small h3 (by omega)] at hN
  omega

/-- Maps that are shrunk have at least 330 bytes. -/
theorem le_levelLength {k n : ℕ} (h : 330 ≤ n) : 330 ≤ levelLength m k n := by
  induction k generalizing n with
  | zero => exact h
  | succ k ih =>
    rw [levelLength]
    split_ifs with hN
    · exact ih (by omega)
    · exact h

/-- The sizes in the map that comes out, by the lengths of the levels. -/
theorem Encrypts.srcSize_le_iff (h : Encrypts P m data level map chunks) :
    (∀ info ∈ map.infos, info.srcSize ≤ m) ↔ ∀ k, levelLength m k data.length + 1 ≠ 3 * m := by
  induction h with
  | root hs hN =>
    simp only [levelLength_root hN, forall_const]
    exact srcSize_infosOf_le_iff hs
  | @shrink data bytes level map extra hs hN hb h ih =>
    obtain ⟨rfl, -⟩ := DataMap.toBytes_eq_some hb
    rw [length_encode_infosOf] at ih
    refine ih.trans ⟨fun h k => ?_, fun h k => ?_⟩
    · cases k with
      | zero => exact ne_of_getNumChunks hN
      | succ k => rw [levelLength_shrink hN]; exact h k
    · rw [← levelLength_shrink hN]
      exact h (k + 1)

/-- The stream of a file ends with the map of `encrypt`. -/
theorem Encrypts.exists_datamap (h : Encrypts P m data 0 map chunks) {pieces : List Bytes}
    (hp : pieces.flatten = data) : ∃ fuel stream items stream',
      streamEncrypt m data.length pieces = .ok stream ∧
        Drains (chunksNext P m fuel) stream items stream' ∧ stream'.datamap = some map := by
  have hs := h.sealed
  obtain ⟨fuel, extra, hshrink, rfl, hlen⟩ := h.shrinkDataMap
  obtain ⟨stream, hstream, h0⟩ := streamEncrypt_eq_ok (P := P) hs.pos.1 hs.pos.2 hp
  exact ⟨fuel, stream, _, _, hstream, h0.drains hs hshrink hlen, rfl⟩

/-- **When no chunk is too large**: exactly if neither the file nor a data map that is encrypted on
    the way falls one byte short of three full chunks. -/
theorem chunk_sizes_le_iff (hP : P.Total) (hm : 0 < m) (h3 : 3 ≤ data.length)
    (hd : data.length ≤ isizeMax) :
    ((∀ i < getNumChunks m data.length, getChunkSize m data.length i ≤ m) ∧
      ∀ (fuel : ℕ) (map : DataMap) (chunks : List EncryptedChunk),
        encrypt P m fuel data = some (.ok (map, chunks)) →
          (∀ info ∈ map.infos, info.srcSize ≤ m) ∧
          ∀ pieces : List Bytes, pieces.flatten = data → ∃ fuel' stream items stream' streamed,
            streamEncrypt m data.length pieces = .ok stream ∧
              Drains (chunksNext P m fuel') stream items stream' ∧
              stream'.datamap = some streamed ∧ ∀ info ∈ streamed.infos, info.srcSize ≤ m) ↔
      ∀ k, levelLength m k data.length + 1 ≠ 3 * m := by
  constructor
  · rintro ⟨hsizes, hmaps⟩ k
    by_cases hreturns : getNumChunks m data.length ≤ 3 ∨ 110 ≤ m
    · obtain ⟨map, chunks, h⟩ := exists_encrypts hP h3 hd hm hreturns
      obtain ⟨fuel, henc⟩ := h.eq_ok
      exact h.srcSize_le_iff.1 (hmaps fuel map chunks henc).1 k
    · have hN : 3 < getNumChunks m data.length := by omega
      cases k with
      | zero => exact ne_of_getNumChunks hN
      | succ k =>
        have hlen := le_levelLength (m := m) (k := k)
          (show 330 ≤ 10 + 80 * getNumChunks m data.length by omega)
        rw [levelLength_shrink hN]
        omega
  · intro hlengths
    refine ⟨(getChunkSize_le_iff hm h3).2 (hlengths 0), fun fuel map chunks henc => ?_⟩
    have h := encrypts_of_eq_ok henc
    have hmap := h.srcSize_le_iff.2 hlengths
    refine ⟨hmap, fun pieces hp => ?_⟩
    obtain ⟨fuel', stream, items, stream', hstream, hdrains, hdatamap⟩ := h.exists_datamap hp
    exact ⟨fuel', stream, items, stream', map, hstream, hdrains, hdatamap, hmap⟩

theorem chunk_sizes_le_300 :
    getNumChunks 110 300 = 3 ∧ ∀ i < getNumChunks 110 300, getChunkSize 110 300 i ≤ 110 := by
  have h3 : 3 ≤ (List.replicate 300 (7 : UInt8)).length := by
    rw [List.length_replicate]
    decide
  have hd : (List.replicate 300 (7 : UInt8)).length ≤ isizeMax := by
    rw [List.length_replicate]
    decide
  have h := chunk_sizes_le_iff clear_total (by decide : 0 < 110) h3 hd
  rw [List.length_replicate] at h
  exact ⟨by decide, (h.2 fun k => by rw [levelLength_root (by decide)]; decide).1⟩

/-- Three chunks of the default size but for one byte. -/
theorem not_chunk_sizes_le : ¬ ∀ i < getNumChunks maxChunkSize 12570623,
    getChunkSize maxChunkSize 12570623 i ≤ maxChunkSize :=
  fun h => absurd (h 2 (by decide)) (by decide)

end Autonomi
