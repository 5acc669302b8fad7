/-
  What a decryption asks for: the chunks of its data map, and of the one below.  So it matters
  only what the callback returns for these.
-/
import Autonomi.SelfEncryption.StreamRead
import Autonomi.SelfEncryption.Untrusted

namespace Autonomi

open Lib DecryptionStream

variable {P : Primitives} {m B level : ℕ} {data : Bytes} {map : DataMap}
  {chunks : List EncryptedChunk} {fetch : Fetch} {s s' : DecryptionStream}

/-- One of the chunks has the name. -/
def Named (P : Primitives) (chunks : List EncryptedChunk) (name : XorName) : Prop :=
  ∃ c ∈ chunks, contentHash P c.content = name

instance (name : XorName) : Decidable (Named P chunks name) := by unfold Named; infer_instance

/-- The callback, as far as it is asked for these chunks. -/
def Fetch.only (P : Primitives) (chunks : List EncryptedChunk) (fetch : Fetch) : Fetch :=
  fun n requests =>
    if ∀ q ∈ requests, Named P chunks q.2 then fetch n requests
    else .error (.generic "Not one of the chunks")

theorem Fetch.only_eq {n : ℕ} {requests : List (ℕ × XorName)}
    (h : ∀ q ∈ requests, Named P chunks q.2) : fetch.only P chunks n requests = fetch n requests :=
  if_pos h

theorem named_of_infosOf (h : chunksOf P m level data ⊆ chunks) {info : ChunkInfo}
    (hinfo : info ∈ infosOf P m level data) : Named P chunks info.dstHash := by
  obtain ⟨i, hi, rfl⟩ := mem_infosOf.1 hinfo
  exact ⟨_, h (mem_chunksOf.2 ⟨i, hi, rfl⟩), rfl⟩

theorem Encrypts.chunksOf_subset (h : Encrypts P m data level map chunks) :
    chunksOf P m level data ⊆ chunks := by
  cases h with
  | root => exact List.Subset.refl _
  | shrink => exact List.subset_append_left _ _

/-- All chunks of the data map have been made. -/
theorem Encrypts.named (h : Encrypts P m data level map chunks) {info : ChunkInfo}
    (hinfo : info ∈ map.infos) : Named P chunks info.dstHash := by
  induction h with
  | root => exact named_of_infosOf (List.Subset.refl _) hinfo
  | shrink _ _ _ _ ih =>
    obtain ⟨c, hc, hname⟩ := ih hinfo
    exact ⟨c, List.mem_append_right _ hc, hname⟩

/-! ## The root map -/

/-- What is decrypted from the chunks that were returned is the data of the map. -/
theorem Sealed.decrypt_cached (hP : P.Ideal) (hs : Sealed P m level data)
    (hd : data.length ≤ isizeMax) (hl : level < 2 ^ 64) (hcf : CollisionFree P chunks)
    (hsub : chunksOf P m level data ⊆ chunks) {fetched : List (ℕ × Bytes)}
    (hdrawn : Drawn P chunks ((infosOf P m level data).map ChunkInfo.request) fetched)
    {cached : List EncryptedChunk} (h : cachedChunks P ⟨infosOf P m level data, some level⟩
      (.ofList (((infosOf P m level data).map ChunkInfo.dstHash).zip (fetched.map Prod.snd))) =
        .ok cached) :
    decryptFullSet P ⟨infosOf P m level data, some level⟩ cached = .ok data := by
  have hcf' := hcf.subset hsub
  rw [infosOf, map_request] at hdrawn
  obtain ⟨js, hperm, rfl⟩ := hdrawn.exists_indices hcf hsub fun i hi => List.mem_range.1 hi
  have hle := hperm.length_le
  rw [List.length_range] at hle
  rcases hle.lt_or_eq with hlt | heq
  · exact absurd h (ne_ok_of_error (cachedChunks_error hP hs hd hl hcf' _ hlt))
  · rw [cachedChunks_perm hP hs hd hl hcf' _ heq] at h
    obtain rfl := Except.ok.inj h
    have hchunks : (js.map fun j => EncryptedChunk.mk (cipherAt P m level data j)).Perm
        (chunksOf P m level data) :=
      (hperm.perm_of_length_le (by rw [List.length_range]; exact heq.ge)).map _
    exact hs.decryptFullSet_eq hP.toLawful rfl (hcf'.subset hchunks.subset) hchunks.symm.subset

/-- The root map of a tagged one is read alike. -/
theorem LastLevels.getRootDataMapParallel_only (hP : P.Ideal) (hcf : CollisionFree P chunks)
    (h : LastLevels P m map chunks level data) (hf : (fetch.only P chunks).Sound P chunks)
    (hd : (DataMap.mk (infosOf P m level data) none).encode.length ≤ isizeMax) (calls : ℕ)
    {r : DataMap × ℕ} :
    getRootDataMapParallel P (fetch.only P chunks) map calls = .ok r ↔
      getRootDataMapParallel P fetch map calls = .ok r := by
  obtain ⟨root, calls'⟩ := r
  have hne : map.infos ≠ [] := by
    intro hnil
    have hlen := congrArg List.length hnil
    rw [h.map_eq, DataMap.infos_mk, length_infosOf, List.length_nil] at hlen
    have := h.sealed_map.three_le
    omega
  have honly : fetch.only P chunks calls (map.infos.map ChunkInfo.request) =
      fetch calls (map.infos.map ChunkInfo.request) := by
    refine Fetch.only_eq fun q hq => ?_
    obtain ⟨info, hinfo, rfl⟩ := List.mem_map.1 hq
    rw [h.map_eq] at hinfo
    exact named_of_infosOf h.subset_map hinfo
  have hroot : ∀ (f : Fetch) (cache : Lookup XorName Bytes) (c : ℕ), innerGetRootMapParallel P f 100
      cache (DataMap.mk (infosOf P m level data) none) c =
        .ok (DataMap.mk (infosOf P m level data) none, c) := by
    intro f cache c
    rw [innerGetRootMapParallel, if_pos (by simp)]
    rfl
  have hchild : ¬ ¬ map.isChild := by rw [h.map_eq]; simp
  rw [getRootDataMapParallel, getRootDataMapParallel, innerGetRootMapParallel,
    innerGetRootMapParallel, if_neg hchild, if_neg hchild]
  simp only [stateT_bind_eq_ok, fetchMissing_eq_ok hne, stateT_lift_eq_ok, honly]
  -- what is decrypted is the map below, whichever callback has the chunks
  have hread : ∀ fetched cached bytes parent,
      fetch calls (map.infos.map ChunkInfo.request) = .ok fetched →
      cachedChunks P map (.ofList ((map.infos.map ChunkInfo.dstHash).zip (fetched.map Prod.snd))) =
        .ok cached → decryptFullSet P map cached = .ok bytes → parentDataMap bytes = .ok parent →
      parent = DataMap.mk (infosOf P m level data) none := by
    intro fetched cached bytes parent hfetched hcached hbytes hparent
    have hdrawn := hf _ _ _ (honly.trans hfetched)
    rw [h.map_eq] at hdrawn hcached hbytes
    rw [h.sealed_map.decrypt_cached hP hd (by decide) hcf h.subset_map hdrawn hcached] at hbytes
    obtain rfl := Except.ok.inj hbytes
    exact Except.ok.inj (hparent.symm.trans (parentDataMap_encode h.fits))
  constructor
  all_goals
    rintro ⟨_, _, ⟨fetched, hfetched, rfl, rfl⟩, cached, _, ⟨hcached, rfl⟩, bytes, _, ⟨hbytes, rfl⟩,
      parent, _, ⟨hparent, rfl⟩, hr⟩
    refine ⟨_, _, ⟨fetched, hfetched, rfl, rfl⟩, cached, _, ⟨hcached, rfl⟩, bytes, _, ⟨hbytes, rfl⟩,
      parent, _, ⟨hparent, rfl⟩, ?_⟩
    obtain rfl := hread _ _ _ _ hfetched hcached hbytes hparent
    rw [hroot] at hr ⊢
    exact hr

/-! ## The stream -/

/-- **A stream opens alike** if the callback is asked for other chunks in vain. -/
theorem Encrypts.streamingDecrypt_only (hP : P.Ideal) (hd : data.length ≤ isizeMax)
    (h : Encrypts P m data 0 map chunks) (hcf : CollisionFree P chunks)
    (hf : (fetch.only P chunks).Sound P chunks) :
    streamingDecrypt P (fetch.only P chunks) map = .ok s ↔ streamingDecrypt P fetch map = .ok s := by
  by_cases hc : map.isChild
  swap
  · simp only [streamingDecrypt, DecryptionStream.new, if_neg hc]
  have hroot : ∀ r, getRootDataMapParallel P (fetch.only P chunks) map 0 = .ok r ↔
      getRootDataMapParallel P fetch map 0 = .ok r := by
    intro r
    rcases Nat.lt_or_ge 3 (getNumChunks m data.length) with hN | hN
    · obtain ⟨-, hl⟩ | ⟨-, data', hlt, hl⟩ := h.lastLevels hN hd
      · exact hl.getRootDataMapParallel_only hP hcf hf
          (h.length_encode_le hd hN hl.three_lt le_rfl) 0
      · exact hl.getRootDataMapParallel_only hP hcf hf
          (h.length_encode_le hd hN hl.three_lt hlt.le) 0
    · cases h with
      | root => simp at hc
      | shrink _ hN' => omega
  simp only [streamingDecrypt, DecryptionStream.new, if_pos hc, bind_eq_ok, hroot]

theorem callback_only {requests : List (ℕ × XorName)}
    (h : ∀ q ∈ requests, Named P chunks q.2) :
    callback (fetch.only P chunks) requests s = callback fetch requests s := by
  simp only [callback, Act.get_bind, Act.set_bind, Fetch.only_eq h]

theorem decryptionNext_only (h : ∀ info ∈ s.chunkInfos, Named P chunks info.dstHash) :
    decryptionNext P B (fetch.only P chunks) s = decryptionNext P B fetch s := by
  have hnext : fetchNextBatch P B (fetch.only P chunks) s = fetchNextBatch P B fetch s := by
    rw [fetchNextBatch, fetchNextBatch, Act.get_bind, Act.get_bind]
    split_ifs
    · rfl
    cases hrange : batchRange s.chunkInfos s.currentBatchStart
        (min (s.currentBatchStart + B) s.chunkInfos.length) with
    | error e =>
      have hrun : (Act.ofExcept (batchRange s.chunkInfos s.currentBatchStart
          (min (s.currentBatchStart + B) s.chunkInfos.length)) : Decryption (List ChunkInfo)) s =
          some (.error e, s) := congrArg (fun r => some (r, s)) hrange
      exact (Act.bind_of_error hrun).trans (Act.bind_of_error hrun).symm
    | ok infos =>
      have hrun : (Act.ofExcept (batchRange s.chunkInfos s.currentBatchStart
          (min (s.currentBatchStart + B) s.chunkInfos.length)) : Decryption (List ChunkInfo)) s =
          some (.ok infos, s) := congrArg (fun r => some (r, s)) hrange
      refine (Act.bind_of_ok hrun).trans (.trans ?_ (Act.bind_of_ok hrun).symm)
      refine Act.bind_congr (callback_only fun q hq => ?_)
      obtain ⟨info, hinfo, rfl⟩ := List.mem_map.1 hq
      unfold batchRange at hrange
      split_ifs at hrange
      obtain rfl := Except.ok.inj hrange
      exact h info (List.mem_of_mem_drop (List.mem_of_mem_take hinfo))
  rw [decryptionNext, decryptionNext, hnext]

/-- What holds of a stream that has been opened, with numbers that are large enough for it. -/
def Opens (B : ℕ) (s : DecryptionStream) : Prop :=
  Checked.Bounded (2 * s.chunkInfos.length + B + 1) B s

theorem opens_of_streamingDecrypt (h : streamingDecrypt P fetch map = .ok s) : Opens B s :=
  Checked.bounded_of_streamingDecrypt h (by omega) (by omega)

/-- A call of `next` returns, and a chunk that it returns is one fewer. -/
theorem Opens.next (P : Primitives) (fetch : Fetch) (h : Opens B s) : ∃ r s',
    decryptionNext P B fetch s = some (r, s') ∧ Opens B s' ∧ s'.chunkInfos = s.chunkInfos ∧
      ∀ chunk, r = some (.ok chunk) → Checked.left s' < Checked.left s := by
  obtain ⟨r, s', hr, hb, hinfos, hleft⟩ := Checked.Bounded.next P fetch h
  have hnext : ∀ {r s'}, fetchNextBatch P B fetch s = some (r, s') →
      Checked.Bounded (2 * s.chunkInfos.length + B + 1) B s' := by
    intro r s' hr
    rcases Checked.Bounded.post_fetchNextBatch P fetch h with ⟨more, s₁, hx, hs⟩ | ⟨e, s₁, hx, hs⟩
    · obtain ⟨-, rfl⟩ := Prod.mk.inj (Option.some.inj (hx.symm.trans hr))
      cases more with
      | false => obtain rfl := hs; exact h
      | true => exact hs.1
    · obtain ⟨-, rfl⟩ := Prod.mk.inj (Option.some.inj (hx.symm.trans hr))
      exact hs.1
  rw [Checked.Bounded.decryptionNext_eq h hnext] at hr
  refine ⟨r, s', hr, ?_, hinfos, hleft⟩
  rw [Opens, hinfos]
  exact hb

/-- The stream asks for these chunks only. -/
def Asks (P : Primitives) (B : ℕ) (chunks : List EncryptedChunk) (s : DecryptionStream) : Prop :=
  Opens B s ∧ ∀ info ∈ s.chunkInfos, Named P chunks info.dstHash

theorem Asks.next {item : Except Error Bytes} (h : Asks P B chunks s)
    (hnext : decryptionNext P B fetch s = some (some item, s')) : Asks P B chunks s' := by
  obtain ⟨r, s₁, hr, hs₁, hinfos, -⟩ := h.1.next P fetch
  obtain ⟨-, rfl⟩ := Prod.mk.inj (Option.some.inj (hr.symm.trans hnext))
  exact ⟨hs₁, hinfos ▸ h.2⟩

/-- The items are the same. -/
theorem Asks.pulls_iff {items : List (Except Error Bytes)} (h : Asks P B chunks s) :
    Pulls (decryptionNext P B (fetch.only P chunks)) s items s' ↔
      Pulls (decryptionNext P B fetch) s items s' :=
  ⟨.congr (I := Asks P B chunks) .next (fun hs => decryptionNext_only hs.2) h,
    .congr (I := Asks P B chunks) .next (fun hs => (decryptionNext_only hs.2).symm) h⟩

theorem Asks.pulls {items : List (Except Error Bytes)} (h : Asks P B chunks s)
    (hp : Pulls (decryptionNext P B fetch) s items s') : Asks P B chunks s' := by
  induction hp with
  | nil => exact h
  | cons hnext _ ih => exact ih (h.next hnext)

theorem Asks.drains_iff {items : List (Except Error Bytes)} (h : Asks P B chunks s) :
    Drains (decryptionNext P B (fetch.only P chunks)) s items s' ↔
      Drains (decryptionNext P B fetch) s items s' := by
  refine exists_congr fun s₁ => ?_
  rw [h.pulls_iff]
  refine and_congr_right fun hp => ?_
  rw [decryptionNext_only (h.pulls hp).2]

theorem Asks.answer_only (h : Asks P B chunks s) (j : ℕ) :
    s.answer B (fetch.only P chunks) j = s.answer B fetch j := by
  refine Fetch.only_eq fun q hq => ?_
  obtain ⟨info, hinfo, rfl⟩ := List.mem_map.1 hq
  exact h.2 info (List.mem_of_mem_drop (List.mem_of_mem_take hinfo))

/-! ## All or an error -/

/-- The callback returns all that it is asked for, or fails. -/
def Fetch.Whole (fetch : Fetch) : Prop :=
  ∀ n requests fetched, fetch n requests = .ok fetched → fetched.length = requests.length

theorem Fetch.Whole.only (h : fetch.Whole) (P : Primitives) (chunks : List EncryptedChunk) :
    (fetch.only P chunks).Whole := by
  intro n requests fetched hfetched
  unfold Fetch.only at hfetched
  split_ifs at hfetched
  exact h n requests fetched hfetched

/-- Every batch is answered. -/
def Answered (B : ℕ) (fetch : Fetch) (s : DecryptionStream) : Prop :=
  ∀ j, j * B < s.chunkInfos.length → ∃ fetched, s.answer B fetch j = .ok fetched

/-- A chunk of another level is refused. -/
theorem decryptBatch_foreign (hP : P.Ideal) (hs : Sealed P m 1 data) (hd : data.length ≤ isizeMax)
    (hlevel : s.childLevel = 0) {i j : ℕ} (is js : List ℕ) (hi : i < getNumChunks m data.length)
    (hj : j < getNumChunks m data.length) :
    ∃ e, decryptBatch P (((i :: is).map (infoAt P m 1 data)).zip (fetchedOf P m 1 data (j :: js))) s =
      some (.error e, s) := by
  have hN := getNumChunks_le hs.pos.1 hs.pos.2
  have h63 : isizeMax < 2 ^ 64 := by decide
  obtain ⟨e, he⟩ : ∃ e, decryptChunk P i (cipherAt P m 1 data j) s.srcHashes s.childLevel = .error e :=
    decryptChunk_foreign hP (show j < 2 ^ 64 by omega) (by decide) (by omega)
      (by rw [hlevel]; decide) (fun h => absurd h.2 (by rw [hlevel]; decide)) (hs.cipher j hj)
  have hrun : (Act.ofExcept (decryptChunk P i (cipherAt P m 1 data j) s.srcHashes s.childLevel) :
      Decryption Bytes) s = some (.error e, s) := by rw [Act.ofExcept_run, he]
  refine ⟨e, ?_⟩
  change (Act.ofExcept (decryptChunk P i (cipherAt P m 1 data j) s.srcHashes s.childLevel) >>= _ :
    Decryption Unit) s = _
  exact Act.bind_of_error hrun

/-- From two levels on the first batch is refused. -/
theorem decryptionNext_foreign (calls : ℕ) (hP : P.Ideal) (hs : Sealed P m 1 data)
    (hd : data.length ≤ isizeMax) (hcf : CollisionFree P chunks)
    (hsub : chunksOf P m 1 data ⊆ chunks) (hf : fetch.Sound P chunks) (hw : fetch.Whole)
    (hB : 1 ≤ B) :
    ∃ e s', decryptionNext P B fetch (streamOf P m 1 data calls) = some (some (.error e), s') := by
  have h3 := hs.three_le
  have hinfos : (streamOf P m 1 data calls).chunkInfos = infosOf P m 1 data := rfl
  -- the first batch
  obtain ⟨is, his, hbatch⟩ : ∃ is : List ℕ, (∀ i ∈ 0 :: is, i < getNumChunks m data.length) ∧
      batchRange (infosOf P m 1 data) 0 (min (0 + B) (infosOf P m 1 data).length) =
        .ok ((0 :: is).map (infoAt P m 1 data)) := by
    refine ⟨List.range' 1 (min B (getNumChunks m data.length) - 1), ?_, ?_⟩
    · intro i hi
      rcases List.mem_cons.1 hi with rfl | hi
      · omega
      · rw [List.mem_range'_1] at hi
        omega
    · have hcons : 0 :: List.range' 1 (min B (getNumChunks m data.length) - 1) =
          List.range' 0 (min B (getNumChunks m data.length) - 0) := by
        rw [show min B (getNumChunks m data.length) - 0 =
          min B (getNumChunks m data.length) - 1 + 1 by omega]
        rfl
      rw [hcons, batchRange, if_pos ⟨Nat.zero_le _, min_le_right _ _⟩, length_infosOf, Nat.zero_add,
        infosOf, slice_map_range _ (min_le_right _ _)]
  obtain ⟨e, s', hnext⟩ : ∃ e s', fetchNextBatch P B fetch (streamOf P m 1 data calls) =
      some (.error e, s') := by
    have hrun : (Act.ofExcept (batchRange (streamOf P m 1 data calls).chunkInfos
        (streamOf P m 1 data calls).currentBatchStart
        (min ((streamOf P m 1 data calls).currentBatchStart + B)
          (streamOf P m 1 data calls).chunkInfos.length)) : Decryption (List ChunkInfo))
        (streamOf P m 1 data calls) =
        some (.ok ((0 :: is).map (infoAt P m 1 data)), streamOf P m 1 data calls) :=
      congrArg (fun r => some (r, _)) hbatch
    have hstart : ¬ (streamOf P m 1 data calls).chunkInfos.length ≤
        (streamOf P m 1 data calls).currentBatchStart := by
      rw [hinfos, length_infosOf]
      exact Nat.not_le_of_lt (show 0 < _ by omega)
    rw [fetchNextBatch, Act.get_bind, if_neg hstart, Act.bind_of_ok hrun]
    rcases hans : fetch calls (((0 :: is).map (infoAt P m 1 data)).map ChunkInfo.request) with
      e | fetched
    · exact ⟨e, _, Act.bind_of_error (congrArg (fun r => some (r, _)) hans)⟩
    · have hdrawn := hf _ _ _ hans
      have hlen := hw _ _ _ hans
      rw [map_request] at hdrawn
      obtain ⟨js, hperm, rfl⟩ := hdrawn.exists_indices hcf hsub his
      rw [length_fetchedOf, List.length_map, List.length_map] at hlen
      have hsorted : (js.insertionSort (· ≤ ·)).length = (0 :: is).length :=
        (List.length_insertionSort _ js).trans hlen
      obtain ⟨j, js', hjs⟩ := List.exists_cons_of_length_eq_add_one hsorted
      have hj : j ∈ js := (List.mem_insertionSort (· ≤ ·)).1 (hjs ▸ List.mem_cons_self)
      have hcall : callback fetch (((0 :: is).map (infoAt P m 1 data)).map ChunkInfo.request)
          (streamOf P m 1 data calls) = some (.ok (fetchedOf P m 1 data js),
            { streamOf P m 1 data calls with calls := calls + 1 }) :=
        congrArg (fun r => some (r, _)) hans
      rw [Act.bind_of_ok hcall, Act.modify_bind, sortFetched_fetchedOf, hjs]
      obtain ⟨e, he⟩ := decryptBatch_foreign (s := { streamOf P m 1 data calls with
        calls := calls + 1, currentBatchChunks := [] }) hP hs hd rfl is js'
        (his 0 List.mem_cons_self) (his j (hperm.subset hj))
      exact ⟨e, _, Act.bind_of_error he⟩
  refine ⟨e, s', ?_⟩
  rw [decryptionNext, if_pos (by exact le_rfl), hnext]
  rfl

section Level0

variable {calls : ℕ}

/-- A batch that is returned as a whole is decrypted. -/
theorem flows_of_whole (hB : 1 ≤ B) (hcf : CollisionFree P chunks) (hsub : chunksOf P m 0 data ⊆ chunks)
    (hf : fetch.Sound P chunks) {j : ℕ} (hj : j * B < getNumChunks m data.length)
    (h : (streamOf P m 0 data calls).Whole B fetch j) :
    ¬ (streamOf P m 0 data calls).Loud B fetch j ∧
      (streamOf P m 0 data calls).kept B fetch j ≠ [] := by
  obtain ⟨fetched, hans, hlen⟩ := h
  obtain ⟨-, hsubl, hlen'⟩ := answer_streamOf hcf hsub hf hans
  rw [length_batch] at hlen
  have heq := hsubl.eq_of_length (hlen'.symm.trans hlen)
  constructor
  · rw [Loud, hans, heq, map_index_batch]
    rintro (⟨e, he⟩ | hpre)
    · cases he
    · exact hpre (List.prefix_refl _)
  · intro hnil
    have hlen := congrArg List.length (heq.symm.trans hnil)
    rw [batchOf, List.length_range', List.length_nil] at hlen
    omega

/-- A stream that ends without an error has had all its batches answered. -/
theorem answered_of_drains (hP : P.Ideal) (hs : Sealed P m 0 data) (hd : data.length ≤ isizeMax)
    (hcf : CollisionFree P chunks) (hsub : chunksOf P m 0 data ⊆ chunks)
    (hf : fetch.Sound P chunks) (hw : fetch.Whole) (hB : 1 ≤ B) {pieces : List Bytes}
    (h : Drains (decryptionNext P B fetch) (streamOf P m 0 data calls) (pieces.map .ok) s') :
    Answered B fetch (streamOf P m 0 data calls) := by
  have hN : (streamOf P m 0 data calls).chunkInfos.length = getNumChunks m data.length :=
    length_infosOf P m 0 data
  intro j
  induction j using Nat.strong_induction_on with
  | _ j ih =>
    intro hj
    rw [hN] at hj ih
    have hflows : Flows P m B data fetch calls j := by
      intro i hi
      have hlt : i * B < getNumChunks m data.length :=
        (Nat.mul_le_mul_right B hi.le).trans_lt hj
      obtain ⟨fetched, hans⟩ := ih i hi hlt
      exact ⟨hlt, flows_of_whole hB hcf hsub hf hlt
        ⟨fetched, hans, (hw _ _ _ hans).trans (List.length_map _)⟩⟩
    obtain ⟨read, hpulls⟩ := pulls_flows hP.toLawful hs hcf hsub hf hflows
    cases hans : (streamOf P m 0 data calls).answer B fetch j with
    | ok fetched => exact ⟨fetched, rfl⟩
    | error e =>
      obtain ⟨e', s₁, hn⟩ := decryptionNext_loud read hP hs hd hcf hsub hf hj (.inl ⟨e, hans⟩)
      have hmem := ((hpulls.append (.cons hn .nil)).prefix_of_drains h).subset
        (List.mem_append_right _ List.mem_cons_self)
      obtain ⟨b, -, hb⟩ := List.mem_map.1 hmem
      cases hb

end Level0

/-- **What a stream yields** with such a callback, for a map of any number of levels: the file, if it
    has at most one and all batches are answered, and else an error. -/
theorem Encrypts.drains_iff (hP : P.Ideal) (hd : data.length ≤ isizeMax)
    (h : Encrypts P m data 0 map chunks) (hcf : CollisionFree P chunks)
    (hf : (fetch.only P chunks).Sound P chunks) (hw : fetch.Whole) (hB : 1 ≤ B)
    (hs : streamingDecrypt P fetch map = .ok s) {pieces : List Bytes} :
    (∃ s', Drains (decryptionNext P B fetch) s (pieces.map .ok) s') ↔
      OneLevel m data.length ∧ Answered B fetch s ∧
        pieces = (List.range (getNumChunks m data.length)).map (chunkAt m data) := by
  have hs' := (h.streamingDecrypt_only hP hd hcf hf).2 hs
  have hw' := hw.only P chunks
  obtain ⟨level, data', calls, rfl, hsealed, hsub, hlevel⟩ := h.streamingDecrypt_eq hP hd hcf hf hs'
  have hasks : Asks P B chunks (streamOf P m level data' calls) :=
    ⟨opens_of_streamingDecrypt hs, fun info hinfo => named_of_infosOf hsub hinfo⟩
  have hanswered : Answered B (fetch.only P chunks) (streamOf P m level data' calls) ↔
      Answered B fetch (streamOf P m level data' calls) := by
    simp only [Answered, hasks.answer_only]
  rw [← hanswered, exists_congr fun s' => hasks.drains_iff.symm]
  obtain ⟨h1, rfl, rfl⟩ | ⟨h1, rfl, hlt⟩ := hlevel
  · have hdrains : Answered B (fetch.only P chunks) (streamOf P m 0 data' calls) → ∃ s',
        Drains (decryptionNext P B (fetch.only P chunks)) (streamOf P m 0 data' calls)
          (((List.range (getNumChunks m data'.length)).map (chunkAt m data')).map .ok) s' := by
      intro hans
      refine drains_whole calls hP.toLawful hsealed hcf hsub hf hB fun j hj => ?_
      obtain ⟨fetched, hfetched⟩ := hans j (by rwa [show (streamOf P m 0 data' calls).chunkInfos =
        infosOf P m 0 data' from rfl, length_infosOf])
      exact ⟨fetched, hfetched, (hw' _ _ _ hfetched).trans (List.length_map _)⟩
    constructor
    · rintro ⟨s', hd'⟩
      have hans := answered_of_drains hP hsealed hd hcf hsub hf hw' hB hd'
      obtain ⟨s'', hd''⟩ := hdrains hans
      exact ⟨h1, hans, List.map_injective_iff.2 (fun _ _ => Except.ok.inj) (hd'.unique hd'')⟩
    · rintro ⟨-, hans, rfl⟩
      exact hdrains hans
  · refine iff_of_false ?_ fun h => h1 h.1
    rintro ⟨s', s₁, hp, hend⟩
    obtain ⟨e, s₂, hn⟩ := decryptionNext_foreign calls hP hsealed (hlt.le.trans hd) hcf
      hsub hf hw' hB
    cases pieces with
    | nil =>
      cases hp
      rw [hn] at hend
      cases hend
    | cons piece pieces =>
      cases hp with
      | cons hn' _ =>
        rw [hn] at hn'
        cases hn'

/-- The call for the first batch: a tagged map has had one for its own chunks. -/
def firstCall (map : DataMap) : ℕ := if map.isChild then 1 else 0

/-- What is asked for in batch `j` of the file. -/
def batchRequests (P : Primitives) (m B : ℕ) (data : Bytes) (j : ℕ) : List (ℕ × XorName) :=
  (slice (infosOf P m 0 data) (j * B) (j * B + B)).map ChunkInfo.request

/-- **When a stream opens**: if the chunks of a tagged map are returned. -/
theorem Encrypts.streamingDecrypt_iff (hP : P.Ideal) (hd : data.length ≤ isizeMax)
    (h : Encrypts P m data 0 map chunks) (h1 : OneLevel m data.length) (hcf : CollisionFree P chunks)
    (hf : (fetch.only P chunks).Sound P chunks) (hw : fetch.Whole) :
    streamingDecrypt P fetch map = .ok s ↔
      (map.isChild → ∃ fetched, fetch 0 (map.infos.map ChunkInfo.request) = .ok fetched) ∧
        s = streamOf P m 0 data (firstCall map) := by
  rcases Nat.lt_or_ge 3 (getNumChunks m data.length) with hN | hN
  · obtain ⟨-, hl⟩ | ⟨hM, -⟩ := h.lastLevels hN hd
    swap
    · rcases h1 with h1 | h1 <;> omega
    have hc : map.isChild = true := by rw [hl.map_eq]; rfl
    have hone : firstCall map = 1 := if_pos hc
    have hbytes : (DataMap.mk (infosOf P m 0 data) none).encode.length ≤ isizeMax :=
      h.length_encode_le hd hN hl.three_lt le_rfl
    have hnamed : fetch.only P chunks 0 (map.infos.map ChunkInfo.request) =
        fetch 0 (map.infos.map ChunkInfo.request) := by
      refine Fetch.only_eq fun q hq => ?_
      obtain ⟨info, hinfo, rfl⟩ := List.mem_map.1 hq
      rw [hl.map_eq] at hinfo
      exact named_of_infosOf hl.subset_map hinfo
    have hroot : ∀ r, getRootDataMapParallel P fetch map 0 = .ok r ↔
        (∃ fetched, fetch 0 (map.infos.map ChunkInfo.request) = .ok fetched) ∧
          r = (⟨infosOf P m 0 data, none⟩, 0 + 1) := by
      intro r
      rw [← hl.getRootDataMapParallel_only hP hcf hf hbytes,
        hl.getRootDataMapParallel_eq_ok hP hcf hf hbytes, hnamed]
      refine and_congr_left fun _ => exists_congr fun fetched => and_iff_left_of_imp fun hfetched => ?_
      exact (hw _ _ _ hfetched).trans (List.length_map _)
    rw [hone]
    constructor
    · intro hs
      obtain ⟨r, hr⟩ := exists_root_of_child hc hs
      obtain ⟨hfetched, rfl⟩ := (hroot r).1 hr
      rw [streamingDecrypt_child hr hc] at hs
      exact ⟨fun _ => hfetched, (Except.ok.inj hs).symm⟩
    · rintro ⟨hfetched, rfl⟩
      exact streamingDecrypt_child ((hroot _).2 ⟨hfetched hc, rfl⟩) hc
  · cases h with
    | root =>
      rw [streamingDecrypt_root, Except.ok.injEq]
      exact ⟨fun hs => ⟨nofun, hs.symm⟩, fun hs => hs.2.symm⟩
    | shrink _ hN' => omega

/-- **What a data map is read as** with such a callback. -/
theorem Encrypts.reads_iff (hP : P.Ideal) (hd : data.length ≤ isizeMax)
    (h : Encrypts P m data 0 map chunks) (hcf : CollisionFree P chunks)
    (hf : (fetch.only P chunks).Sound P chunks) (hw : fetch.Whole) (hB : 1 ≤ B)
    {pieces : List Bytes} :
    (∃ s, streamingDecrypt P fetch map = .ok s ∧
        ∃ s', Drains (decryptionNext P B fetch) s (pieces.map .ok) s') ↔
      OneLevel m data.length ∧
        (map.isChild → ∃ fetched, fetch 0 (map.infos.map ChunkInfo.request) = .ok fetched) ∧
        (∀ j, j * B < getNumChunks m data.length →
          ∃ fetched, fetch (firstCall map + j) (batchRequests P m B data j) = .ok fetched) ∧
        pieces = (List.range (getNumChunks m data.length)).map (chunkAt m data) := by
  have hanswered : Answered B fetch (streamOf P m 0 data (firstCall map)) ↔
      ∀ j, j * B < getNumChunks m data.length →
        ∃ fetched, fetch (firstCall map + j) (batchRequests P m B data j) = .ok fetched := by
    rw [Answered, show (streamOf P m 0 data (firstCall map)).chunkInfos = infosOf P m 0 data from rfl,
      length_infosOf]
    rfl
  rw [← hanswered]
  constructor
  · rintro ⟨s, hs, hdrains⟩
    obtain ⟨h1, hans, hpieces⟩ := (h.drains_iff hP hd hcf hf hw hB hs).1 hdrains
    obtain ⟨hchild, rfl⟩ := (h.streamingDecrypt_iff hP hd h1 hcf hf hw).1 hs
    exact ⟨h1, hchild, hans, hpieces⟩
  · rintro ⟨h1, hchild, hans, hpieces⟩
    have hs := (h.streamingDecrypt_iff hP hd h1 hcf hf hw).2 ⟨hchild, rfl⟩
    exact ⟨_, hs, (h.drains_iff hP hd hcf hf hw hB hs).2 ⟨h1, hans, hpieces⟩⟩

end Autonomi
