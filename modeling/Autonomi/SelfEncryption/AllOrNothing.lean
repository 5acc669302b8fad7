/-
  `decrypt` on a list of chunks that may lack some, and may hold others
  (`self_encryption/src/lib.rs`).

  A chunk is looked up by its hash, so one that is found is the one that was
  made.  What is missing is an error, and what is not asked for is not seen.
-/
import Autonomi.SelfEncryption.RoundTrip

namespace Autonomi

open Lib

variable {P : Primitives} {m : ℕ} {data : Bytes} {map : DataMap}
  {chunks list list' : List EncryptedChunk}

/-! ## More chunks -/

theorem chunkMapOf_mono (hcf : CollisionFree P list') (hsub : list ⊆ list') {k : XorName}
    {c : EncryptedChunk} (h : chunkMapOf P list k = some c) : chunkMapOf P list' k = some c := by
  obtain ⟨hc, rfl⟩ := mem_of_chunkMapOf h
  exact chunkMapOf_of_mem hcf (hsub hc)

theorem mapM_chunkMapOf_mono (hcf : CollisionFree P list') (hsub : list ⊆ list')
    (e : ChunkInfo → Error) {infos : List ChunkInfo} {found : List EncryptedChunk}
    (h : infos.mapM (fun info => okOr (e info) (chunkMapOf P list info.dstHash)) = .ok found) :
    infos.mapM (fun info => okOr (e info) (chunkMapOf P list' info.dstHash)) = .ok found := by
  refine mapM_mono (fun info c hc => ?_) h
  rw [okOr_eq_ok] at hc ⊢
  exact chunkMapOf_mono hcf hsub hc

theorem getChunk_mono (hcf : CollisionFree P list') (hsub : list ⊆ list') {k : XorName} {b : Bytes}
    (h : getChunk P (chunkMapOf P list) k = .ok b) : getChunk P (chunkMapOf P list') k = .ok b := by
  rw [getChunk, okOr_eq_ok, Option.map_eq_some_iff] at h ⊢
  exact h.imp fun c hc => ⟨chunkMapOf_mono hcf hsub hc.1, hc.2⟩

section Callback

variable {get get' : XorName → Except Error Bytes}

theorem fetchChunk_mono (h : ∀ k b, get k = .ok b → get' k = .ok b)
    (s : Lookup XorName Bytes × List EncryptedChunk) (info : ChunkInfo)
    {s' : Lookup XorName Bytes × List EncryptedChunk} (hs : fetchChunk get s info = .ok s') :
    fetchChunk get' s info = .ok s' := by
  unfold fetchChunk at hs ⊢
  split at hs
  · exact hs
  · obtain ⟨data, hdata, hs⟩ := bind_eq_ok.1 hs
    exact bind_eq_ok.2 ⟨data, h _ _ hdata, hs⟩

/-- A callback that knows more chunks gives the same root map. -/
theorem innerGetRootMap_mono (h : ∀ k b, get k = .ok b → get' k = .ok b) {root : DataMap} :
    ∀ {depth : ℕ} {cache : Lookup XorName Bytes} {map : DataMap},
    innerGetRootMap P get depth cache map = .ok root →
      innerGetRootMap P get' depth cache map = .ok root
  | 0, _, _, hroot => hroot
  | depth + 1, cache, map, hroot => by
    rw [innerGetRootMap] at hroot ⊢
    split_ifs at hroot ⊢ with hchild
    swap
    · exact hroot
    · obtain ⟨⟨cache', fetched⟩, hfetch, hroot⟩ := bind_eq_ok.1 hroot
      obtain ⟨bytes, hbytes, hroot⟩ := bind_eq_ok.1 hroot
      obtain ⟨parent, hparent, hroot⟩ := bind_eq_ok.1 hroot
      refine bind_eq_ok.2 ⟨_, foldlM_mono (fun s i s' => fetchChunk_mono h s i) hfetch, ?_⟩
      exact bind_eq_ok.2 ⟨bytes, hbytes, bind_eq_ok.2 ⟨parent, hparent, innerGetRootMap_mono h hroot⟩⟩

end Callback

/-- **More chunks do not change what is decrypted**, for any data map. -/
theorem decrypt_mono (hcf : CollisionFree P list') (hsub : list ⊆ list') {r : Bytes}
    (h : decrypt P map list = .ok r) : decrypt P map list' = .ok r := by
  unfold decrypt at h ⊢
  split_ifs at h ⊢
  · obtain ⟨root, hroot, h⟩ := bind_eq_ok.1 h
    obtain ⟨found, hfound, h⟩ := bind_eq_ok.1 h
    refine bind_eq_ok.2 ⟨root, ?_, bind_eq_ok.2 ⟨found, mapM_chunkMapOf_mono hcf hsub _ hfound, h⟩⟩
    exact innerGetRootMap_mono (fun k b => getChunk_mono hcf hsub) hroot
  · rw [pure_bind] at h ⊢
    obtain ⟨found, hfound, h⟩ := bind_eq_ok.1 h
    exact bind_eq_ok.2 ⟨found, mapM_chunkMapOf_mono hcf hsub _ hfound, h⟩

/-! ## All or nothing -/

/-- What is decrypted from some of the chunks is the file. -/
theorem Encrypts.eq_of_decrypt (hP : P.Ideal) (hd : data.length ≤ isizeMax)
    (h : Encrypts P m data 0 map chunks) (hcf : CollisionFree P (chunks ++ list)) {r : Bytes}
    (hr : decrypt P map list = .ok r) : r = data := by
  -- with the chunks that were made, the whole file comes out or nothing at all
  have hall := decrypt_mono hcf (List.subset_append_right chunks list) hr
  have hsub := List.subset_append_left chunks list
  by_cases h1 : OneLevel m data.length
  · rw [h.decrypt_eq hP.toLawful hd h1 hcf hsub] at hall
    exact (Except.ok.inj hall).symm
  · exact absurd hall (ne_ok_of_error (h.decrypt_error hP hd h1 hcf hsub))

/-- **Decryption is all or nothing**: from any list the file comes out or an error, and from a longer
    list the same file. -/
theorem decrypt_all_or_nothing (hP : P.Ideal) {fuel : ℕ} (hd : data.length ≤ isizeMax)
    (h : encrypt P m fuel data = some (.ok (map, chunks))) (hcf : CollisionFree P (chunks ++ list)) :
    (decrypt P map list = .ok data ∨ ∃ e, decrypt P map list = .error e) ∧
      ∀ list', list ⊆ list' → CollisionFree P list' →
        ∀ r, decrypt P map list = .ok r → decrypt P map list' = .ok r := by
  refine ⟨?_, fun list' hsub hcf' r hr => decrypt_mono hcf' hsub hr⟩
  cases hr : decrypt P map list with
  | error e => exact .inr ⟨e, rfl⟩
  | ok r => rw [(encrypts_of_eq_ok h).eq_of_decrypt hP hd hcf hr]; exact .inl rfl

/-- One level of shrinking, and a list with another chunk before them. -/
theorem decrypt_all_or_nothing_400 : ∃ map chunks,
    encrypt clear 110 2 (List.replicate 400 7) = some (.ok (map, chunks)) ∧
    (∃ r, decrypt clear map chunks = .ok r) ∧
    ∀ r, decrypt clear map chunks = .ok r → decrypt clear map (⟨[9]⟩ :: chunks) = .ok r := by
  obtain ⟨⟨map, chunks⟩, h, hp⟩ := Run.of_okWith (x := encrypt clear 110 2 (List.replicate 400 7))
    (p := fun r => decide (CollisionFree clear (r.2 ++ r.2) ∧ CollisionFree clear (⟨[9]⟩ :: r.2) ∧
      (decrypt clear r.1 r.2).toOption.isSome)) (by decide +kernel)
  obtain ⟨hcf, hcf', hok⟩ := of_decide_eq_true hp
  obtain ⟨-, hmono⟩ := decrypt_all_or_nothing clear_ideal (by rw [List.length_replicate]; decide) h hcf
  refine ⟨map, chunks, h, ?_, hmono _ (List.subset_cons_self _ _) hcf'⟩
  cases hr : decrypt clear map chunks with
  | error e => rw [hr] at hok; cases hok
  | ok r => exact ⟨r, rfl⟩

end Autonomi
