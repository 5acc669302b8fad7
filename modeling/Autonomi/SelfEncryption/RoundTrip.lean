/-
  `decrypt` after `encrypt` (`self_encryption/src/lib.rs`).

  A data map carries the level its chunks were encrypted at, and
  `get_root_data_map` goes down until it meets a map without one.  But every
  map that `shrink_data_map` encrypts is still without one, so the map below
  the returned one is taken for the root whether it is or not.
-/
import Autonomi.SelfEncryption.Decrypt
import Autonomi.SelfEncryption.Levels

namespace Autonomi

open Lib

variable {P : Primitives} {m : ℕ} {data : Bytes} {map : DataMap} {chunks : List EncryptedChunk}

/-- At most one level of shrinking. -/
def OneLevel (m n : ℕ) : Prop :=
  getNumChunks m n ≤ 3 ∨ getNumChunks m (10 + 80 * getNumChunks m n) ≤ 3

instance (m n : ℕ) : Decidable (OneLevel m n) := by unfold OneLevel; infer_instance

theorem LastLevels.mono {level : ℕ} {chunks' : List EncryptedChunk}
    (h : LastLevels P m map chunks level data) (hsub : chunks ⊆ chunks') :
    LastLevels P m map chunks' level data :=
  { h with
    subset := fun _ hc => hsub (h.subset hc)
    subset_map := fun _ hc => hsub (h.subset_map hc) }

theorem decrypt_of_lastLevels {level : ℕ} (hP : P.Lawful) (hcf : CollisionFree P chunks)
    (h : LastLevels P m map chunks level data) :
    decrypt P map chunks =
      decryptFullSet P ⟨infosOf P m level data, none⟩ (chunksOf P m level data) := by
  rw [h.map_eq, decrypt_child hP h.sealed_map h.fits rfl hcf h.subset_map,
    decrypt_root hcf h.subset]

/-- Up to one level, what was encrypted is decrypted from any chunks that contain the
    returned ones. -/
theorem Encrypts.decrypt_eq (hP : P.Lawful) (hd : data.length ≤ isizeMax)
    (h : Encrypts P m data 0 map chunks) (h1 : OneLevel m data.length)
    {chunks' : List EncryptedChunk} (hcf : CollisionFree P chunks') (hsub : chunks ⊆ chunks') :
    decrypt P map chunks' = .ok data := by
  have hdec : ∀ hs : Sealed P m 0 data, chunksOf P m 0 data ⊆ chunks →
      decryptFullSet P ⟨infosOf P m 0 data, none⟩ (chunksOf P m 0 data) = .ok data :=
    fun hs hc => hs.decryptFullSet_eq hP rfl (hcf.subset (List.Subset.trans hc hsub))
      (List.Subset.refl _)
  rcases Nat.lt_or_ge 3 (getNumChunks m data.length) with hN | hN
  · obtain ⟨-, hl⟩ | ⟨hN', -⟩ := h.lastLevels hN hd
    · rw [decrypt_of_lastLevels hP hcf (hl.mono hsub), hdec hl.sealed hl.subset]
    · rcases h1 with h1 | h1 <;> omega
  · cases h with
    | root hs => rw [decrypt_root hcf hsub, hdec hs (List.Subset.refl _)]
    | shrink _ hN' => omega

/-- From two levels on, the map taken for the root is of level 1 and is decrypted at
    level 0. -/
theorem Encrypts.decrypt_error (hP : P.Ideal) (hd : data.length ≤ isizeMax)
    (h : Encrypts P m data 0 map chunks) (h1 : ¬ OneLevel m data.length)
    {chunks' : List EncryptedChunk} (hcf : CollisionFree P chunks') (hsub : chunks ⊆ chunks') :
    ∃ e, decrypt P map chunks' = .error e := by
  rw [OneLevel, not_or] at h1
  obtain ⟨hN', -⟩ | ⟨-, data', -, hl⟩ := h.lastLevels (by omega) hd
  · omega
  · have hl := hl.mono hsub
    rw [decrypt_of_lastLevels hP.toLawful hcf hl]
    exact hl.sealed.decryptFullSet_error hP (by omega) (by simp) (by simp)
      (hcf.subset hl.subset) (List.Subset.refl _)

/-- **Round trip**: exactly the files that need at most one level of shrinking are
    decrypted, whatever the order of their chunks. -/
theorem decrypt_encrypt_iff (hP : P.Ideal) {fuel : ℕ} (hd : data.length ≤ isizeMax)
    (h : encrypt P m fuel data = some (.ok (map, chunks))) (hcf : CollisionFree P chunks) :
    (∀ chunks', chunks'.Perm chunks → decrypt P map chunks' = .ok data) ↔
      OneLevel m data.length := by
  have h := encrypts_of_eq_ok h
  constructor
  · intro hdec
    by_contra h1
    exact ne_ok_of_error (h.decrypt_error hP hd h1 hcf (List.Subset.refl _)) (hdec _ (.refl _))
  · intro h1 chunks' hp
    exact h.decrypt_eq hP.toLawful hd h1 (hcf.subset hp.subset) hp.symm.subset

/-- One level of shrinking. -/
theorem decrypt_encrypt_400 : ∃ map chunks,
    encrypt clear 110 2 (List.replicate 400 7) = some (.ok (map, chunks)) ∧
    ((∀ chunks', chunks'.Perm chunks → decrypt clear map chunks' = .ok (List.replicate 400 7)) ↔
      OneLevel 110 400) := by
  obtain ⟨⟨map, chunks⟩, h, hcf⟩ := Run.of_okWith (x := encrypt clear 110 2 (List.replicate 400 7))
    (p := fun r => decide (CollisionFree clear r.2)) (by decide +kernel)
  have hiff := decrypt_encrypt_iff clear_ideal (by rw [List.length_replicate]; decide) h
    (of_decide_eq_true hcf)
  rw [List.length_replicate] at hiff
  exact ⟨map, chunks, h, hiff⟩

theorem encrypt_441 : ∃ map chunks,
    encrypt clear 110 3 (List.replicate 441 7) = some (.ok (map, chunks)) ∧
    CollisionFree clear chunks ∧ decrypt clear map chunks ≠ .ok (List.replicate 441 7) := by
  obtain ⟨⟨map, chunks⟩, h, hp⟩ := Run.of_okWith (x := encrypt clear 110 3 (List.replicate 441 7))
    (p := fun r => decide (CollisionFree clear r.2 ∧
      decrypt clear r.1 r.2 ≠ .ok (List.replicate 441 7))) (by decide +kernel)
  rw [decide_eq_true_iff] at hp
  exact ⟨map, chunks, h, hp⟩

/-- Two levels: 5 chunks, whose map has 4, whose map has 3. -/
theorem not_decrypt_encrypt : ¬ ∀ (P : Primitives) (m fuel : ℕ) (data : Bytes) (map : DataMap)
    (chunks : List EncryptedChunk), P.Ideal → data.length ≤ isizeMax →
    encrypt P m fuel data = some (.ok (map, chunks)) → CollisionFree P chunks →
    ∀ chunks', chunks'.Perm chunks → decrypt P map chunks' = .ok data := by
  intro h
  obtain ⟨map, chunks, he, hcf, hne⟩ := encrypt_441
  have hd : (List.replicate 441 (7 : UInt8)).length ≤ isizeMax := by
    rw [List.length_replicate]; decide
  exact hne (h clear 110 3 _ map chunks clear_ideal hd he hcf chunks (.refl _))

end Autonomi
