/-
  The pieces that a decryption stream yields.

  A batch is quiet if the chunks returned for it are the first ones of it:
  then they are decrypted, be they all of them or not.  Any other answer is
  an error.  A batch for which nothing is returned ends the iteration.
-/
import Autonomi.SelfEncryption.Fetched

namespace Autonomi

open Lib DecryptionStream

variable {P : Primitives} {m B : ℕ} {data : Bytes} {chunks : List EncryptedChunk} {fetch : Fetch}

/-! ## Batches -/

namespace DecryptionStream

/-- The infos of batch `j`. -/
def batch (B : ℕ) (s : DecryptionStream) (j : ℕ) : List ChunkInfo :=
  slice s.chunkInfos (j * B) (j * B + B)

/-- The answer for batch `j`, when all calls are for batches. -/
def answer (B : ℕ) (fetch : Fetch) (s : DecryptionStream) (j : ℕ) :
    Except Error (List (ℕ × Bytes)) :=
  fetch (s.calls + j) ((s.batch B j).map ChunkInfo.request)

/-- The indices of the chunks that are returned for batch `j`. -/
def kept (B : ℕ) (fetch : Fetch) (s : DecryptionStream) (j : ℕ) : List ℕ :=
  ((s.answer B fetch j).toOption.map fun fetched => (sortFetched fetched).map Prod.fst).getD []

/-- All chunks of the batch are returned. -/
def Whole (B : ℕ) (fetch : Fetch) (s : DecryptionStream) (j : ℕ) : Prop :=
  ∃ fetched, s.answer B fetch j = .ok fetched ∧ fetched.length = (s.batch B j).length

/-- The callback fails, or a chunk is left out before one that is returned. -/
def Loud (B : ℕ) (fetch : Fetch) (s : DecryptionStream) (j : ℕ) : Prop :=
  (∃ e, s.answer B fetch j = .error e) ∨
    ¬ s.kept B fetch j <+: (s.batch B j).map ChunkInfo.index

/-- Every batch is whole, or a loud one comes before any for which nothing is returned. -/
def NotSilent (B : ℕ) (fetch : Fetch) (s : DecryptionStream) : Prop :=
  (∀ j, j * B < s.chunkInfos.length → s.Whole B fetch j) ∨
    ∃ j, j * B < s.chunkInfos.length ∧ s.Loud B fetch j ∧
      ∀ i < j, s.answer B fetch i ≠ .ok []

end DecryptionStream

/-- The indices of batch `j` of `n` chunks. -/
def batchOf (B n j : ℕ) : List ℕ := List.range' (j * B) (min (j * B + B) n - j * B)

theorem mem_batchOf {n j i : ℕ} (h : i ∈ batchOf B n j) : i < n := by
  obtain ⟨k, hk, rfl⟩ := List.mem_range'.1 h
  omega

section Batch

variable {calls j : ℕ}

theorem batch_streamOf : (streamOf P m 0 data calls).batch B j =
    (batchOf B (getNumChunks m data.length) j).map (infoAt P m 0 data) := by
  rw [batch, ← slice_min_length]
  change slice (infosOf P m 0 data) _ (min _ (infosOf P m 0 data).length) = _
  rw [length_infosOf, infosOf, slice_map_range _ (min_le_right _ _)]; rfl

theorem map_index_batch (calls : ℕ) : ((streamOf P m 0 data calls).batch B j).map ChunkInfo.index =
    batchOf B (getNumChunks m data.length) j := by
  rw [batch_streamOf, List.map_map]
  exact List.map_id _

theorem length_batch : ((streamOf P m 0 data calls).batch B j).length =
    (batchOf B (getNumChunks m data.length) j).length := by
  rw [batch_streamOf, List.length_map]

/-- An answer is its indices, and they are those of the batch with some left out. -/
theorem answer_streamOf (hcf : CollisionFree P chunks) (hsub : chunksOf P m 0 data ⊆ chunks)
    (hf : fetch.Sound P chunks) {fetched : List (ℕ × Bytes)}
    (h : (streamOf P m 0 data calls).answer B fetch j = .ok fetched) :
    sortFetched fetched = fetchedOf P m 0 data ((streamOf P m 0 data calls).kept B fetch j) ∧
      ((streamOf P m 0 data calls).kept B fetch j).Sublist
        (batchOf B (getNumChunks m data.length) j) ∧
      fetched.length = ((streamOf P m 0 data calls).kept B fetch j).length := by
  have hkept : (streamOf P m 0 data calls).kept B fetch j =
      (sortFetched fetched).map Prod.fst := by rw [kept, h]; rfl
  have hdrawn := hf _ _ _ h
  rw [batch_streamOf, map_request] at hdrawn
  obtain ⟨js, hperm, rfl⟩ := hdrawn.exists_indices hcf hsub fun i hi => mem_batchOf hi
  rw [hkept, sortFetched_fetchedOf, map_fst_fetchedOf]
  refine ⟨rfl, sublist_of_subperm hperm ?_, ?_⟩
  · exact List.pairwise_le_range' 1
  · rw [length_fetchedOf, List.length_insertionSort]

end Batch

/-! ## Decryption of a batch -/

section Decrypt

variable {s : DecryptionStream}

theorem decryptBatch_cons {info : ChunkInfo} {index : ℕ} {content chunk : Bytes}
    {batch : List (ChunkInfo × (ℕ × Bytes))}
    (h : decryptChunk P info.index content s.srcHashes s.childLevel = .ok chunk) :
    decryptBatch P ((info, (index, content)) :: batch) s =
      decryptBatch P batch { s with currentBatchChunks := s.currentBatchChunks ++ [chunk] } := by
  have hrun : (Act.ofExcept (decryptChunk P info.index content s.srcHashes s.childLevel) :
      Decryption Bytes) s = some (.ok chunk, s) := by rw [Act.ofExcept_run, h]
  rw [decryptBatch, Act.get_bind, Act.bind_of_ok hrun, Act.set_bind]

/-- The stream has the keys of the chunks. -/
structure Keyed (P : Primitives) (m : ℕ) (data : Bytes) (s : DecryptionStream) : Prop where
  srcHashes : s.srcHashes = (List.range (getNumChunks m data.length)).map (srcHashAt P m data)
  childLevel : s.childLevel = 0

theorem Keyed.decryptChunk_eq (h : Keyed P m data s) (hP : P.Lawful) (hs : Sealed P m 0 data) {i : ℕ}
    (hi : i < getNumChunks m data.length) :
    decryptChunk P i (cipherAt P m 0 data i) s.srcHashes s.childLevel = .ok (chunkAt m data i) := by
  rw [h.srcHashes, h.childLevel, ← extractHashes_infosOf none]
  exact hs.decryptChunk_eq hP none hi

theorem decryptBatch_prefix (hP : P.Lawful) (hs : Sealed P m 0 data) :
    ∀ {js is : List ℕ} {s : DecryptionStream}, Keyed P m data s → js <+: is →
    (∀ i ∈ is, i < getNumChunks m data.length) →
    decryptBatch P ((is.map (infoAt P m 0 data)).zip (fetchedOf P m 0 data js)) s =
      some (.ok (), { s with
        currentBatchChunks := s.currentBatchChunks ++ js.map (chunkAt m data) })
  | [], is, s, _, _, _ => by
    rw [fetchedOf, List.map_nil, List.zip_nil_right, List.map_nil, List.append_nil]; rfl
  | j :: js, [], _, _, hpre, _ => absurd hpre (by simp)
  | j :: js, i :: is, s, hkey, hpre, his => by
    obtain ⟨rfl, hpre'⟩ := List.cons_prefix_cons.1 hpre
    have hdec := hkey.decryptChunk_eq hP hs (his j List.mem_cons_self)
    have hkey' : Keyed P m data { s with
        currentBatchChunks := s.currentBatchChunks ++ [chunkAt m data j] } :=
      ⟨hkey.srcHashes, hkey.childLevel⟩
    have hrest := decryptBatch_prefix hP hs hkey' hpre'
      fun i hi => his i (List.mem_cons_of_mem _ hi)
    rw [List.append_assoc] at hrest
    exact (decryptBatch_cons hdec).trans hrest

/-- A chunk is decrypted with the key of another. -/
theorem decryptBatch_error (hP : P.Ideal) (hs : Sealed P m 0 data) (hd : data.length ≤ isizeMax) :
    ∀ {js is : List ℕ} {s : DecryptionStream}, Keyed P m data s → ¬ js <+: is →
    js.length ≤ is.length → (∀ i ∈ is, i < getNumChunks m data.length) →
    (∀ j ∈ js, j < getNumChunks m data.length) →
    ∃ e s', decryptBatch P ((is.map (infoAt P m 0 data)).zip (fetchedOf P m 0 data js)) s =
      some (.error e, s')
  | [], _, _, _, hpre, _, _, _ => absurd List.nil_prefix hpre
  | _ :: _, [], _, _, _, hle, _, _ => absurd hle (by simp)
  | j :: js, i :: is, s, hkey, hpre, hle, his, hjs => by
    have hi := his i List.mem_cons_self
    have hj := hjs j List.mem_cons_self
    by_cases hij : j = i
    · subst hij
      have hpre : ¬ js <+: is := fun h => hpre (List.cons_prefix_cons.2 ⟨rfl, h⟩)
      have hkey' : Keyed P m data { s with
          currentBatchChunks := s.currentBatchChunks ++ [chunkAt m data j] } :=
        ⟨hkey.srcHashes, hkey.childLevel⟩
      obtain ⟨e, s', he⟩ := decryptBatch_error hP hs hd hkey' hpre (Nat.le_of_succ_le_succ hle)
        (fun i hi => his i (List.mem_cons_of_mem _ hi))
        fun j hj => hjs j (List.mem_cons_of_mem _ hj)
      exact ⟨e, s', (decryptBatch_cons (hkey.decryptChunk_eq hP.toLawful hs hi)).trans he⟩
    · have hN := getNumChunks_le hs.pos.1 hs.pos.2
      have h63 : isizeMax < 2 ^ 64 := by decide
      obtain ⟨e, he⟩ : ∃ e, decryptChunk P i (cipherAt P m 0 data j) s.srcHashes s.childLevel =
          .error e :=
        decryptChunk_foreign hP (show j < 2 ^ 64 by omega) (by decide) (by omega)
          (by rw [hkey.childLevel]; decide) (fun h => hij h.1) (hs.cipher j hj)
      have hrun : (Act.ofExcept (decryptChunk P i (cipherAt P m 0 data j) s.srcHashes
          s.childLevel) : Decryption Bytes) s = some (.error e, s) := by rw [Act.ofExcept_run, he]
      refine ⟨e, s, ?_⟩
      change (Act.ofExcept (decryptChunk P i (cipherAt P m 0 data j) s.srcHashes s.childLevel) >>=
        _ : Decryption Unit) s = _
      exact Act.bind_of_error hrun

end Decrypt

/-! ## One batch -/

/-- `j` batches have been fetched, and the last one, `read`, has been yielded. -/
def atBatch (B : ℕ) (s : DecryptionStream) (j : ℕ) (read : List Bytes) : DecryptionStream :=
  { s with
    calls := s.calls + j
    currentBatchStart := min (j * B) s.chunkInfos.length
    currentBatchChunks := read
    currentBatchIndex := read.length }

section Step

variable {calls j : ℕ} {read : List Bytes}

theorem streamOf_atBatch : streamOf P m 0 data calls = atBatch B (streamOf P m 0 data calls) 0 [] := by
  rw [atBatch, zero_mul, Nat.zero_min]; rfl

theorem length_chunkInfos_atBatch :
    (atBatch B (streamOf P m 0 data calls) j read).chunkInfos.length =
      getNumChunks m data.length := length_infosOf P m 0 data

theorem decryptionNext_end (hj : getNumChunks m data.length ≤ j * B) :
    decryptionNext P B fetch (atBatch B (streamOf P m 0 data calls) j read) =
      some (none, atBatch B (streamOf P m 0 data calls) j read) := by
  have hstart : (atBatch B (streamOf P m 0 data calls) j read).chunkInfos.length ≤
      (atBatch B (streamOf P m 0 data calls) j read).currentBatchStart := by
    rw [length_chunkInfos_atBatch]
    exact le_min hj (length_infosOf P m 0 data).ge
  have hf : fetchNextBatch P B fetch (atBatch B (streamOf P m 0 data calls) j read) =
      some (.ok false, atBatch B (streamOf P m 0 data calls) j read) := by
    rw [fetchNextBatch, Act.get_bind, if_pos hstart]; rfl
  rw [decryptionNext, if_pos (by exact le_rfl), hf]; rfl

/-- The chunks of a batch are asked for and decrypted. -/
theorem fetchNextBatch_atBatch (hj : j * B < getNumChunks m data.length) :
    fetchNextBatch P B fetch (atBatch B (streamOf P m 0 data calls) j read) =
      (do
        let fetched ← callback fetch (((streamOf P m 0 data calls).batch B j).map ChunkInfo.request)
        modify fun s => { s with currentBatchChunks := [] }
        decryptBatch P (((streamOf P m 0 data calls).batch B j).zip (sortFetched fetched))
        modify fun s => { s with
          currentBatchStart := min (j * B + B) (getNumChunks m data.length)
          currentBatchIndex := 0 }
        pure true : Decryption Bool) (atBatch B (streamOf P m 0 data calls) j read) := by
  have hinfos : (atBatch B (streamOf P m 0 data calls) j read).chunkInfos = infosOf P m 0 data := rfl
  have hstart : (atBatch B (streamOf P m 0 data calls) j read).currentBatchStart = j * B := by
    rw [atBatch]
    exact min_eq_left (by rw [show (streamOf P m 0 data calls).chunkInfos = infosOf P m 0 data
      from rfl, length_infosOf]; exact hj.le)
  have hrange : batchRange (infosOf P m 0 data) (j * B) (min (j * B + B) (getNumChunks m data.length)) =
      .ok ((streamOf P m 0 data calls).batch B j) := by
    have hb : batchRange (infosOf P m 0 data) (j * B)
        (min (j * B + B) (getNumChunks m data.length)) = .ok (slice (infosOf P m 0 data) (j * B)
          (min (j * B + B) (infosOf P m 0 data).length)) := by
      rw [batchRange, length_infosOf, if_pos (by omega)]
    rw [hb, slice_min_length]; rfl
  have hrun : (Act.ofExcept (batchRange (infosOf P m 0 data) (j * B)
      (min (j * B + B) (getNumChunks m data.length))) : Decryption (List ChunkInfo))
      (atBatch B (streamOf P m 0 data calls) j read) =
      some (.ok ((streamOf P m 0 data calls).batch B j),
        atBatch B (streamOf P m 0 data calls) j read) := by rw [Act.ofExcept_run, hrange]
  simp only [fetchNextBatch, Act.get_bind, hinfos, hstart, length_infosOf,
    if_neg (Nat.not_le_of_lt hj)]
  rw [Act.bind_of_ok hrun]

theorem callback_eq {fetched : Except Error (List (ℕ × Bytes))}
    (h : (streamOf P m 0 data calls).answer B fetch j = fetched) :
    callback fetch (((streamOf P m 0 data calls).batch B j).map ChunkInfo.request)
      (atBatch B (streamOf P m 0 data calls) j read) =
      some (fetched, { atBatch B (streamOf P m 0 data calls) j read with calls := calls + j + 1 }) := by
  rw [← h]; rfl

/-- A loud batch is an error. -/
theorem decryptionNext_loud (read : List Bytes) (hP : P.Ideal) (hs : Sealed P m 0 data) (hd : data.length ≤ isizeMax)
    (hcf : CollisionFree P chunks) (hsub : chunksOf P m 0 data ⊆ chunks)
    (hf : fetch.Sound P chunks) (hj : j * B < getNumChunks m data.length)
    (hloud : (streamOf P m 0 data calls).Loud B fetch j) :
    ∃ e s', decryptionNext P B fetch (atBatch B (streamOf P m 0 data calls) j read) =
      some (some (.error e), s') := by
  obtain ⟨e, s', hnext⟩ : ∃ e s', fetchNextBatch P B fetch
      (atBatch B (streamOf P m 0 data calls) j read) = some (.error e, s') := by
    rw [fetchNextBatch_atBatch hj]
    rcases hans : (streamOf P m 0 data calls).answer B fetch j with e | fetched
    · exact ⟨e, _, Act.bind_of_error (callback_eq hans)⟩
    · obtain ⟨hsort, hsubl, -⟩ := answer_streamOf hcf hsub hf hans
      have hpre : ¬ (streamOf P m 0 data calls).kept B fetch j <+:
          batchOf B (getNumChunks m data.length) j := by
        rw [← map_index_batch (P := P) calls]
        refine hloud.resolve_left ?_
        rintro ⟨e, he⟩
        rw [hans] at he; cases he
      rw [Act.bind_of_ok (callback_eq hans), Act.modify_bind, hsort, batch_streamOf]
      obtain ⟨e, s', he⟩ := decryptBatch_error (s := { atBatch B (streamOf P m 0 data calls) j read
        with calls := calls + j + 1, currentBatchChunks := [] }) hP hs hd ⟨rfl, rfl⟩ hpre
        hsubl.length_le (fun i hi => mem_batchOf hi) fun i hi => mem_batchOf (hsubl.subset hi)
      exact ⟨e, s', Act.bind_of_error he⟩
  refine ⟨e, s', ?_⟩
  rw [decryptionNext, if_pos (by exact le_rfl), hnext]; rfl

/-- A batch that is not loud is decrypted as far as it goes. -/
theorem fetchNextBatch_quiet (read : List Bytes) (hP : P.Lawful) (hs : Sealed P m 0 data)
    (hcf : CollisionFree P chunks) (hsub : chunksOf P m 0 data ⊆ chunks)
    (hf : fetch.Sound P chunks) (hj : j * B < getNumChunks m data.length)
    (hquiet : ¬ (streamOf P m 0 data calls).Loud B fetch j) :
    fetchNextBatch P B fetch (atBatch B (streamOf P m 0 data calls) j read) =
      some (.ok true, { atBatch B (streamOf P m 0 data calls) (j + 1)
        (((streamOf P m 0 data calls).kept B fetch j).map (chunkAt m data)) with
          currentBatchIndex := 0 }) := by
  rw [Loud, not_or, not_not, map_index_batch] at hquiet
  obtain ⟨hok, hpre⟩ := hquiet
  rcases hans : (streamOf P m 0 data calls).answer B fetch j with e | fetched
  · exact absurd ⟨e, hans⟩ hok
  · obtain ⟨hsort, -, -⟩ := answer_streamOf hcf hsub hf hans
    have hdec := decryptBatch_prefix hP hs (s := { atBatch B (streamOf P m 0 data calls) j read with
      calls := calls + j + 1, currentBatchChunks := [] }) ⟨rfl, rfl⟩ hpre
      fun i hi => mem_batchOf hi
    rw [fetchNextBatch_atBatch hj, Act.bind_of_ok (callback_eq hans), Act.modify_bind, hsort,
      batch_streamOf, Act.bind_of_ok hdec, Act.modify_bind, Act.pure_run, List.nil_append]
    have hstart : min (j * B + B) (getNumChunks m data.length) =
        min ((j + 1) * B) (streamOf P m 0 data calls).chunkInfos.length := by
      rw [Nat.succ_mul, show (streamOf P m 0 data calls).chunkInfos = infosOf P m 0 data from rfl,
        length_infosOf]
    rw [hstart]; rfl

end Step

/-! ## The pieces of a batch -/

section Pieces

variable {calls j : ℕ} {read : List Bytes}

theorem nextOfBatch_some {s : DecryptionStream} {chunk : Bytes}
    (h : s.currentBatchChunks[s.currentBatchIndex]? = some chunk) :
    nextOfBatch s = (some (.ok chunk), { s with currentBatchIndex := s.currentBatchIndex + 1 }) := by
  rw [nextOfBatch, h]

/-- What is left of a batch is yielded. -/
theorem pulls_batch (s : DecryptionStream) : ∀ {rest : List Bytes} {k : ℕ}, rest = read.drop k →
    k ≤ read.length →
    Pulls (decryptionNext P B fetch) { s with currentBatchChunks := read, currentBatchIndex := k }
      (rest.map .ok) { s with currentBatchChunks := read, currentBatchIndex := read.length }
  | [], k, hrest, hk => by
    obtain rfl : k = read.length := le_antisymm hk (List.drop_eq_nil_iff.1 hrest.symm)
    exact .nil
  | chunk :: rest, k, hrest, hk => by
    have hlt : k < read.length := by
      by_contra h
      rw [List.drop_eq_nil_of_le (by omega)] at hrest; cases hrest
    obtain ⟨hchunk, hrest⟩ := List.cons_eq_cons.1 (hrest.trans (List.drop_eq_getElem_cons hlt))
    have hsome : ({ s with currentBatchChunks := read, currentBatchIndex := k } :
        DecryptionStream).currentBatchChunks[k]? = some chunk := by
      rw [hchunk]; exact List.getElem?_eq_getElem hlt
    refine .cons ?_ (pulls_batch s hrest hlt)
    rw [decryptionNext, if_neg (by exact Nat.not_le_of_lt hlt), nextOfBatch_some hsome]; rfl

/-- A batch for which nothing is returned ends the iteration. -/
theorem decryptionNext_empty
    (hnext : fetchNextBatch P B fetch (atBatch B (streamOf P m 0 data calls) j read) =
      some (.ok true, { atBatch B (streamOf P m 0 data calls) (j + 1) [] with
        currentBatchIndex := 0 })) :
    decryptionNext P B fetch (atBatch B (streamOf P m 0 data calls) j read) =
      some (none, atBatch B (streamOf P m 0 data calls) (j + 1) []) := by
  rw [decryptionNext, if_pos (by exact le_rfl), hnext]; rfl

theorem pulls_quiet {read' : List Bytes} (hne : read' ≠ [])
    (hnext : fetchNextBatch P B fetch (atBatch B (streamOf P m 0 data calls) j read) =
      some (.ok true, { atBatch B (streamOf P m 0 data calls) (j + 1) read' with
        currentBatchIndex := 0 })) :
    Pulls (decryptionNext P B fetch) (atBatch B (streamOf P m 0 data calls) j read)
      (read'.map .ok) (atBatch B (streamOf P m 0 data calls) (j + 1) read') := by
  obtain ⟨chunk, rest, rfl⟩ := List.exists_cons_of_ne_nil hne
  refine .cons ?_ (pulls_batch (atBatch B (streamOf P m 0 data calls) (j + 1) (chunk :: rest))
    (k := 1) rfl (by simp))
  rw [decryptionNext, if_pos (by exact le_rfl), hnext]; rfl

end Pieces

/-! ## The run -/

namespace DecryptionStream

/-- The indices of the chunks that are returned for the first `j` batches. -/
def keptUpTo (B : ℕ) (fetch : Fetch) (s : DecryptionStream) (j : ℕ) : List ℕ :=
  (List.range j).flatMap (s.kept B fetch)

theorem keptUpTo_succ (s : DecryptionStream) (j : ℕ) :
    s.keptUpTo B fetch (j + 1) = s.keptUpTo B fetch j ++ s.kept B fetch j := by
  simp only [keptUpTo, List.range_succ, List.flatMap_append, List.flatMap_singleton]

end DecryptionStream

theorem range_min_succ (B n j : ℕ) :
    List.range (min ((j + 1) * B) n) = List.range (min (j * B) n) ++ batchOf B n j := by
  rw [batchOf, Nat.succ_mul, List.range_eq_range', List.range_eq_range']
  rcases Nat.lt_or_ge n (j * B) with h | h
  · rw [min_eq_right h.le, min_eq_right (by omega), Nat.sub_eq_zero_of_le h.le, List.range'_zero,
      List.append_nil]
  · rw [min_eq_left h]
    have happ := List.range'_append_1 (s := 0) (m := j * B) (n := min (j * B + B) n - j * B)
    rw [Nat.zero_add] at happ
    rw [happ]; congr 1; omega

section Run

variable {calls : ℕ}

/-- Quiet batches for which something is returned. -/
def Flows (P : Primitives) (m B : ℕ) (data : Bytes) (fetch : Fetch) (calls j : ℕ) : Prop :=
  ∀ i < j, i * B < getNumChunks m data.length ∧ ¬ (streamOf P m 0 data calls).Loud B fetch i ∧
    (streamOf P m 0 data calls).kept B fetch i ≠ []

theorem pulls_flows (hP : P.Lawful) (hs : Sealed P m 0 data)
    (hcf : CollisionFree P chunks) (hsub : chunksOf P m 0 data ⊆ chunks)
    (hf : fetch.Sound P chunks) : ∀ {j : ℕ}, Flows P m B data fetch calls j →
    ∃ read, Pulls (decryptionNext P B fetch) (streamOf P m 0 data calls)
      ((((streamOf P m 0 data calls).keptUpTo B fetch j).map (chunkAt m data)).map .ok)
      (atBatch B (streamOf P m 0 data calls) j read)
  | 0, _ => ⟨[], by rw [← streamOf_atBatch]; exact .nil⟩
  | j + 1, h => by
    obtain ⟨read, hp⟩ := pulls_flows hP hs hcf hsub hf fun i hi => h i (Nat.lt_succ_of_lt hi)
    obtain ⟨hj, hquiet, hne⟩ := h j (Nat.lt_succ_self j)
    have hne : ((streamOf P m 0 data calls).kept B fetch j).map (chunkAt m data) ≠ [] := by
      simpa only [ne_eq, List.map_eq_nil_iff] using hne
    refine ⟨((streamOf P m 0 data calls).kept B fetch j).map (chunkAt m data), ?_⟩
    rw [keptUpTo_succ, List.map_append, List.map_append]
    exact hp.append (pulls_quiet hne (fetchNextBatch_quiet read hP hs hcf hsub hf hj hquiet))

theorem keptUpTo_sublist (calls : ℕ) (hcf : CollisionFree P chunks) (hsub : chunksOf P m 0 data ⊆ chunks)
    (hf : fetch.Sound P chunks) (j : ℕ) : ((streamOf P m 0 data calls).kept B fetch j).Sublist
      (batchOf B (getNumChunks m data.length) j) ∧
    ((streamOf P m 0 data calls).keptUpTo B fetch j).Sublist
      (List.range (min (j * B) (getNumChunks m data.length))) := by
  have hkept : ∀ j, ((streamOf P m 0 data calls).kept B fetch j).Sublist
      (batchOf B (getNumChunks m data.length) j) := by
    intro j
    rcases hans : (streamOf P m 0 data calls).answer B fetch j with e | fetched
    · rw [kept, hans]; exact List.nil_sublist _
    · exact (answer_streamOf hcf hsub hf hans).2.1
  refine ⟨hkept j, ?_⟩
  induction j with
  | zero => exact List.nil_sublist _
  | succ j ih => rw [keptUpTo_succ, range_min_succ]; exact ih.append (hkept j)

/-- If nothing is left out, nothing is left out of any batch. -/
theorem whole_of_keptUpTo (hcf : CollisionFree P chunks) (hsub : chunksOf P m 0 data ⊆ chunks)
    (hf : fetch.Sound P chunks) : ∀ {j : ℕ}, (streamOf P m 0 data calls).keptUpTo B fetch j =
      List.range (min (j * B) (getNumChunks m data.length)) →
    ∀ i < j, (streamOf P m 0 data calls).kept B fetch i =
      batchOf B (getNumChunks m data.length) i
  | 0, _, i, hi => absurd hi (Nat.not_lt_zero i)
  | j + 1, h, i, hi => by
    obtain ⟨hkept, hupTo⟩ := keptUpTo_sublist (B := B) calls hcf hsub hf j
    rw [keptUpTo_succ, range_min_succ] at h
    have hlen := congrArg List.length h
    rw [List.length_append, List.length_append] at hlen
    have h1 := hkept.length_le
    have h2 := hupTo.length_le
    rcases Nat.lt_succ_iff_lt_or_eq.1 hi with hi | rfl
    · exact whole_of_keptUpTo hcf hsub hf (hupTo.eq_of_length (by omega)) i hi
    · exact hkept.eq_of_length (by omega)

/-- Chunks that are put together to the file are all chunks. -/
theorem eq_range_of_flatten (hs : Sealed P m 0 data) {js : List ℕ}
    (hjs : js.Sublist (List.range (getNumChunks m data.length)))
    (h : (js.map (chunkAt m data)).flatten = data) :
    js = List.range (getNumChunks m data.length) := by
  refine eq_of_sum_eq (w := fun i => (chunkAt m data i).length) hjs
    (fun i hi => (hs.length_chunkAt_pos (List.mem_range.1 hi)).2) ?_
  have hlen := congrArg List.length (h.trans hs.flatten_chunkAt.symm)
  simpa only [List.length_flatten, List.map_map, Function.comp_def] using hlen

theorem keptUpTo_of_whole {j : ℕ} (h : ∀ i < j, (streamOf P m 0 data calls).kept B fetch i =
      batchOf B (getNumChunks m data.length) i) :
    (streamOf P m 0 data calls).keptUpTo B fetch j =
      List.range (min (j * B) (getNumChunks m data.length)) := by
  induction j with
  | zero => rw [zero_mul, Nat.zero_min]; rfl
  | succ j ih =>
    rw [keptUpTo_succ, range_min_succ, ih fun i hi => h i (Nat.lt_succ_of_lt hi),
      h j (Nat.lt_succ_self j)]

theorem whole_iff (hcf : CollisionFree P chunks) (hsub : chunksOf P m 0 data ⊆ chunks)
    (hf : fetch.Sound P chunks) {j : ℕ}
    (hquiet : ¬ (streamOf P m 0 data calls).Loud B fetch j) :
    (streamOf P m 0 data calls).Whole B fetch j ↔
      (streamOf P m 0 data calls).kept B fetch j = batchOf B (getNumChunks m data.length) j := by
  rcases hans : (streamOf P m 0 data calls).answer B fetch j with e | fetched
  · exact absurd (.inl ⟨e, hans⟩) hquiet
  · obtain ⟨-, hsubl, hlen⟩ := answer_streamOf hcf hsub hf hans
    rw [Whole, hans, length_batch]
    constructor
    · rintro ⟨_, h, hw⟩
      obtain rfl := Except.ok.inj h
      exact hsubl.eq_of_length (hlen.symm.trans hw)
    · intro h; exact ⟨fetched, rfl, by rw [hlen, h]⟩

theorem whole_of_complete (hsub : chunksOf P m 0 data ⊆ chunks) (hf : fetch.Complete P chunks)
    (j : ℕ) : (streamOf P m 0 data calls).Whole B fetch j := by
  have hreq : ((streamOf P m 0 data calls).batch B j).map ChunkInfo.request =
      requestsOf P m 0 data (batchOf B (getNumChunks m data.length) j) := by
    rw [batch_streamOf, map_request]
  obtain ⟨fetched, hans, hlen⟩ := hf.returns (calls + j)
    (((streamOf P m 0 data calls).batch B j).map ChunkInfo.request) (by
      rw [hreq]
      intro q hq
      obtain ⟨i, hi, rfl⟩ := List.mem_map.1 hq
      exact ⟨_, hsub (mem_chunksOf.2 ⟨i, mem_batchOf hi, rfl⟩), rfl⟩)
  exact ⟨fetched, hans, hlen.trans (List.length_map _)⟩

theorem drains_whole (calls : ℕ) (hP : P.Lawful) (hs : Sealed P m 0 data) (hcf : CollisionFree P chunks)
    (hsub : chunksOf P m 0 data ⊆ chunks) (hf : fetch.Sound P chunks) (hB : 1 ≤ B)
    (h : ∀ j, j * B < getNumChunks m data.length → (streamOf P m 0 data calls).Whole B fetch j) :
    ∃ s', Drains (decryptionNext P B fetch) (streamOf P m 0 data calls)
      (((List.range (getNumChunks m data.length)).map (chunkAt m data)).map .ok) s' := by
  have hkept : ∀ j, j * B < getNumChunks m data.length →
      ¬ (streamOf P m 0 data calls).Loud B fetch j ∧
        (streamOf P m 0 data calls).kept B fetch j =
          batchOf B (getNumChunks m data.length) j := by
    intro j hj
    obtain ⟨fetched, hans, hlen⟩ := h j hj
    obtain ⟨-, hsubl, hlen'⟩ := answer_streamOf hcf hsub hf hans
    rw [length_batch] at hlen
    have heq := hsubl.eq_of_length (hlen'.symm.trans hlen)
    refine ⟨?_, heq⟩
    rw [Loud, hans, heq, map_index_batch]
    rintro (⟨e, he⟩ | hpre)
    · cases he
    · exact hpre (List.prefix_refl _)
  -- the number of batches
  obtain ⟨j, hlt, hend⟩ : ∃ j, (∀ i < j, i * B < getNumChunks m data.length) ∧
      getNumChunks m data.length ≤ j * B := by
    have hstop : ∃ j, getNumChunks m data.length ≤ j * B := ⟨_, Nat.le_mul_of_pos_right _ hB⟩
    exact ⟨Nat.find hstop, fun i hi => Nat.lt_of_not_le (Nat.find_min hstop hi),
      Nat.find_spec hstop⟩
  have hflows : Flows P m B data fetch calls j := by
    intro i hi
    obtain ⟨hquiet, heq⟩ := hkept i (hlt i hi)
    refine ⟨hlt i hi, hquiet, fun hnil => ?_⟩
    have hlen := congrArg List.length (heq.symm.trans hnil)
    rw [batchOf, List.length_range', List.length_nil] at hlen
    have := hlt i hi
    omega
  obtain ⟨read, hpulls⟩ := pulls_flows hP hs hcf hsub hf hflows
  rw [keptUpTo_of_whole fun i hi => (hkept i (hlt i hi)).2, min_eq_right hend] at hpulls
  exact ⟨_, _, hpulls, decryptionNext_end hend⟩

end Run

/-! ## Truncation -/

/-- Iterated to the end, the stream yields an error or the file. -/
def Faithful (P : Primitives) (B : ℕ) (fetch : Fetch) (s : DecryptionStream) (data : Bytes) : Prop :=
  (∃ items s', Pulls (decryptionNext P B fetch) s items s' ∧ ∃ e, .error e ∈ items) ∨
    ∃ (pieces : List Bytes) (s' : DecryptionStream),
      Drains (decryptionNext P B fetch) s (pieces.map .ok) s' ∧ pieces.flatten = data

/-- Of a run without errors only the pieces matter. -/
theorem faithful_iff_flatten {s s' : DecryptionStream} {pieces : List Bytes}
    (h : Drains (decryptionNext P B fetch) s (pieces.map .ok) s') :
    Faithful P B fetch s data ↔ pieces.flatten = data := by
  constructor
  · rintro (⟨items, _, hp, e, he⟩ | ⟨pieces', _, h', hflat⟩)
    · obtain ⟨b, -, hb⟩ := List.mem_map.1 ((hp.prefix_of_drains h).subset he)
      cases hb
    · have heq := h.unique h'
      rw [List.map_injective_iff.2 (fun _ _ => Except.ok.inj) heq, hflat]
  · intro hflat; exact .inr ⟨pieces, s', h, hflat⟩

/-- **When a stream is not truncated silently.** -/
theorem faithful_streamOf (hP : P.Ideal) (hs : Sealed P m 0 data) (hd : data.length ≤ isizeMax)
    (hcf : CollisionFree P chunks) (hsub : chunksOf P m 0 data ⊆ chunks)
    (hf : fetch.Sound P chunks) (hB : 1 ≤ B) (calls : ℕ) :
    Faithful P B fetch (streamOf P m 0 data calls) data ↔
      (streamOf P m 0 data calls).NotSilent B fetch := by
  classical
  have h3 := hs.three_le
  have hN : (streamOf P m 0 data calls).chunkInfos.length = getNumChunks m data.length :=
    length_infosOf P m 0 data
  -- the first batch with which the iteration does not go on
  have hstop : ∃ j, getNumChunks m data.length ≤ j * B ∨
      (streamOf P m 0 data calls).Loud B fetch j ∨
      (streamOf P m 0 data calls).kept B fetch j = [] :=
    ⟨_, .inl (Nat.le_mul_of_pos_right _ hB)⟩
  have hj := Nat.find_spec hstop
  have hmin := fun i hi => Nat.find_min hstop (m := i) hi
  generalize Nat.find hstop = j at hj hmin
  have hflows : Flows P m B data fetch calls j := by
    intro i hi
    have := hmin i hi
    rw [not_or, not_or, Nat.not_le] at this
    exact this
  obtain ⟨read, hpulls⟩ := pulls_flows hP.toLawful hs hcf hsub hf hflows
  have hne : ∀ i < j, (streamOf P m 0 data calls).answer B fetch i ≠ .ok [] := by
    intro i hi hans
    exact (hflows i hi).2.2 (by rw [kept, hans]; rfl)
  rw [NotSilent, hN]
  by_cases hend : getNumChunks m data.length ≤ j * B
  · -- all batches were quiet
    have hlt : ∀ i, i * B < getNumChunks m data.length → i < j := fun i hi =>
      Nat.lt_of_mul_lt_mul_right (hi.trans_le hend)
    have hwhole : (∀ i, i * B < getNumChunks m data.length →
        (streamOf P m 0 data calls).Whole B fetch i) ↔
        ∀ i < j, (streamOf P m 0 data calls).kept B fetch i =
          batchOf B (getNumChunks m data.length) i := by
      constructor
      · intro h i hi
        exact (whole_iff hcf hsub hf (hflows i hi).2.1).1 (h i (hflows i hi).1)
      · intro h i hi
        exact (whole_iff hcf hsub hf (hflows i (hlt i hi)).2.1).2 (h i (hlt i hi))
    rw [faithful_iff_flatten ⟨_, hpulls, decryptionNext_end hend⟩, hwhole]
    constructor
    · intro h
      have hsubl := (keptUpTo_sublist (B := B) calls hcf hsub hf j).2
      rw [min_eq_right hend] at hsubl
      have hrange := eq_range_of_flatten hs hsubl h
      exact .inl (whole_of_keptUpTo hcf hsub hf (by rw [hrange, min_eq_right hend]))
    · rintro (h | ⟨i, hi, hloud, -⟩)
      · rw [keptUpTo_of_whole h, min_eq_right hend]; exact hs.flatten_chunkAt
      · exact absurd hloud (hflows i (hlt i hi)).2.1
  have hj' := Nat.lt_of_not_le hend
  by_cases hloud : (streamOf P m 0 data calls).Loud B fetch j
  · obtain ⟨e, s', hn⟩ := decryptionNext_loud read hP hs hd hcf hsub hf hj' hloud
    exact iff_of_true (.inl ⟨_, s', hpulls.append (.cons hn .nil), e, by simp⟩)
      (.inr ⟨j, hj', hloud, hne⟩)
  · -- the iteration ends before batch `j`
    have hempty := (hj.resolve_left hend).resolve_left hloud
    have hquiet := fetchNextBatch_quiet read hP.toLawful hs hcf hsub hf hj' hloud
    rw [hempty] at hquiet
    have hsubl := (keptUpTo_sublist (B := B) calls hcf hsub hf j).2
    rw [min_eq_left hj'.le] at hsubl
    rw [faithful_iff_flatten ⟨_, hpulls, decryptionNext_empty hquiet⟩]
    refine iff_of_false (fun hflat => ?_) ?_
    · have hlen := hsubl.length_le
      rw [eq_range_of_flatten hs (hsubl.trans (List.range_sublist.2 hj'.le)) hflat,
        List.length_range, List.length_range] at hlen
      omega
    · rintro (h | ⟨i, hi, hloud', hans⟩)
      · have hbatch := (whole_iff hcf hsub hf hloud).1 (h j hj')
        have hlen := congrArg List.length (hempty.symm.trans hbatch)
        rw [batchOf, List.length_range', List.length_nil] at hlen
        omega
      · rcases lt_trichotomy i j with hij | rfl | hij
        · exact (hflows i hij).2.1 hloud'
        · exact hloud hloud'
        · rcases hans' : (streamOf P m 0 data calls).answer B fetch j with e | fetched
          · exact hloud (.inl ⟨e, hans'⟩)
          · have hlen := (answer_streamOf hcf hsub hf hans').2.2
            rw [hempty, List.length_nil, List.length_eq_zero_iff] at hlen
            exact hans j hij (by rw [hans', hlen])

variable {fuel : ℕ} {map : DataMap}

/-- **A stream truncates silently** unless everything is returned, or an error or a chunk left
    out before another comes before a batch for which nothing is returned. -/
theorem streamingDecrypt_faithful_iff (hP : P.Ideal) (hd : data.length ≤ isizeMax)
    (henc : encrypt P m fuel data = some (.ok (map, chunks))) (h1 : OneLevel m data.length)
    (hcf : CollisionFree P chunks) (hB : 1 ≤ B) (hf : fetch.Sound P chunks) :
    (∀ s, streamingDecrypt P fetch map = .ok s → Faithful P B fetch s data) ↔
      ∀ s, streamingDecrypt P fetch map = .ok s → s.NotSilent B fetch := by
  refine forall_congr' fun s => imp_congr_right fun hs => ?_
  obtain ⟨_, _, calls, rfl, hsealed, hsub, ⟨-, rfl, rfl⟩ | ⟨h2, -⟩⟩ :=
    (encrypts_of_eq_ok henc).streamingDecrypt_eq hP hd hcf hf hs
  · exact faithful_streamOf hP hsealed hd hcf hsub hf hB calls
  · exact absurd h1 h2

/-- Three chunks in one batch, of which the last is not stored. -/
theorem streamingDecrypt_faithful_300 : ∃ map chunks,
    encrypt clear 110 1 (List.replicate 300 7) = some (.ok (map, chunks)) ∧
    ((∀ s, streamingDecrypt clear (storageFetch clear (chunks.take 2)) map = .ok s →
        Faithful clear 10 (storageFetch clear (chunks.take 2)) s (List.replicate 300 7)) ↔
      ∀ s, streamingDecrypt clear (storageFetch clear (chunks.take 2)) map = .ok s →
        s.NotSilent 10 (storageFetch clear (chunks.take 2))) := by
  obtain ⟨⟨map, chunks⟩, henc, hcf⟩ := Run.of_okWith (x := encrypt clear 110 1 (List.replicate 300 7))
    (p := fun r => decide (CollisionFree clear r.2)) (by decide +kernel)
  refine ⟨map, chunks, henc, streamingDecrypt_faithful_iff clear_ideal ?_ henc ?_
    (of_decide_eq_true hcf) (by decide) (storageFetch_sound (List.take_subset 2 chunks))⟩
  · rw [List.length_replicate]; decide
  · rw [List.length_replicate]; decide

theorem not_streamingDecrypt_faithful : ∃ map chunks s,
    encrypt clear 110 1 (List.replicate 300 7) = some (.ok (map, chunks)) ∧
    (storageFetch clear (chunks.take 2)).Sound clear chunks ∧
    streamingDecrypt clear (storageFetch clear (chunks.take 2)) map = .ok s ∧
    ¬ Faithful clear 10 (storageFetch clear (chunks.take 2)) s (List.replicate 300 7) := by
  obtain ⟨⟨map, chunks⟩, henc, hrun⟩ := Run.of_okWith
    (x := encrypt clear 110 1 (List.replicate 300 7))
    (p := fun r : DataMap × List EncryptedChunk =>
      (streamingDecrypt clear (storageFetch clear (r.2.take 2)) r.1).toOption.any fun s =>
        (collect (decryptionNext clear 10 (storageFetch clear (r.2.take 2))) 3 s).any
          fun q : List (Except Error Bytes) × DecryptionStream =>
            decide (q.1 = [List.replicate 100 7, List.replicate 100 7].map Except.ok))
    (by decide +kernel)
  rcases hs : streamingDecrypt clear (storageFetch clear (chunks.take 2)) map with e | s
  · rw [hs] at hrun; cases hrun
  rw [hs, Except.toOption, Option.any_some, Option.any_eq_true] at hrun
  obtain ⟨⟨items, s'⟩, hc, hitems⟩ := hrun
  obtain rfl := of_decide_eq_true hitems
  refine ⟨map, chunks, s, henc, storageFetch_sound (List.take_subset 2 chunks), hs, ?_⟩
  rw [faithful_iff_flatten (drains_of_collect hc)]
  intro h
  have hlen := congrArg List.length h
  simp only [List.flatten_cons, List.flatten_nil, List.length_append, List.length_replicate,
    List.length_nil] at hlen
  omega

end Autonomi
