/-
  The answers of the callback of a decryption, and the root map that is read
  with them.

  An answer to a request for chunks of one level is a list of their indices,
  in any order and perhaps with some left out.
-/
import Autonomi.SelfEncryption.RoundTrip
import Autonomi.SelfEncryption.StreamDecrypt

namespace Autonomi

open Lib

variable {P : Primitives} {m level : ℕ} {data : Bytes} {chunks : List EncryptedChunk} {fetch : Fetch}

/-- Some of the requested chunks, with their contents, in any order. -/
structure Drawn (P : Primitives) (chunks : List EncryptedChunk) (requests : List (ℕ × XorName))
    (fetched : List (ℕ × Bytes)) : Prop where
  mem : ∀ p ∈ fetched, ⟨p.2⟩ ∈ chunks
  subperm : (fetched.map fun p => (p.1, contentHash P p.2)).Subperm requests

/-- The callback may fail and leave chunks out, but makes none up. -/
def Fetch.Sound (P : Primitives) (chunks : List EncryptedChunk) (fetch : Fetch) : Prop :=
  ∀ n requests fetched, fetch n requests = .ok fetched → Drawn P chunks requests fetched

/-- The callback returns everything, in any order. -/
structure Fetch.Complete (P : Primitives) (chunks : List EncryptedChunk) (fetch : Fetch) :
    Prop where
  sound : fetch.Sound P chunks
  returns : ∀ n requests, (∀ q ∈ requests, ∃ c ∈ chunks, contentHash P c.content = q.2) →
    ∃ fetched, fetch n requests = .ok fetched ∧ fetched.length = requests.length

/-- The callback that looks the chunks up and skips those it does not have. -/
def storageFetch (P : Primitives) (stored : List EncryptedChunk) : Fetch := fun _ requests =>
  .ok (requests.filterMap fun q => (chunkMapOf P stored q.2).map fun chunk => (q.1, chunk.content))

theorem storageFetch_sound {stored : List EncryptedChunk} (hsub : stored ⊆ chunks) :
    (storageFetch P stored).Sound P chunks := by
  intro n requests fetched h
  obtain rfl := Except.ok.inj h
  constructor
  · intro p hp
    obtain ⟨q, -, hq⟩ := List.mem_filterMap.1 hp
    obtain ⟨c, hc, rfl⟩ := Option.map_eq_some_iff.1 hq
    exact hsub (mem_of_chunkMapOf hc).1
  · refine List.Sublist.subperm ?_
    clear h
    induction requests with
    | nil => exact .slnil
    | cons q requests ih =>
      rcases hc : chunkMapOf P stored q.2 with _ | c
      · rw [List.filterMap_cons_none (by rw [hc]; rfl)]
        exact ih.cons q
      · rw [List.filterMap_cons_some (by rw [hc]; rfl), List.map_cons, (mem_of_chunkMapOf hc).2]
        exact ih.cons_cons q

theorem storageFetch_complete (hcf : CollisionFree P chunks) :
    (storageFetch P chunks).Complete P chunks where
  sound := storageFetch_sound (List.Subset.refl _)
  returns := by
    intro n requests hreq
    refine ⟨_, rfl, ?_⟩
    induction requests with
    | nil => rfl
    | cons q requests ih =>
      obtain ⟨c, hc, hhash⟩ := hreq q List.mem_cons_self
      have hfound : chunkMapOf P chunks q.2 = some c := by rw [← hhash]; exact chunkMapOf_of_mem hcf hc
      rw [List.filterMap_cons_some (by rw [hfound]; rfl), List.length_cons, List.length_cons,
        ih fun q hq => hreq q (List.mem_cons_of_mem _ hq)]

/-! ## Answers as lists of indices -/

def requestsOf (P : Primitives) (m level : ℕ) (data : Bytes) (is : List ℕ) : List (ℕ × XorName) :=
  is.map fun i => (i, contentHash P (cipherAt P m level data i))

def fetchedOf (P : Primitives) (m level : ℕ) (data : Bytes) (js : List ℕ) : List (ℕ × Bytes) :=
  js.map fun j => (j, cipherAt P m level data j)

theorem map_request (is : List ℕ) :
    (is.map (infoAt P m level data)).map ChunkInfo.request = requestsOf P m level data is := by
  rw [List.map_map]; rfl

@[simp] theorem length_requestsOf (is : List ℕ) :
    (requestsOf P m level data is).length = is.length := List.length_map _

@[simp] theorem length_fetchedOf (js : List ℕ) :
    (fetchedOf P m level data js).length = js.length := List.length_map _

theorem map_fst_fetchedOf (js : List ℕ) : (fetchedOf P m level data js).map Prod.fst = js := by
  rw [fetchedOf, List.map_map]; exact List.map_id _

theorem Drawn.exists_indices (hcf : CollisionFree P chunks)
    (hsub : chunksOf P m level data ⊆ chunks) {is : List ℕ}
    (his : ∀ i ∈ is, i < getNumChunks m data.length) {fetched : List (ℕ × Bytes)}
    (h : Drawn P chunks (requestsOf P m level data is) fetched) :
    ∃ js, js.Subperm is ∧ fetched = fetchedOf P m level data js := by
  refine ⟨fetched.map Prod.fst, ?_, ?_⟩
  · obtain ⟨l, hperm, hsub⟩ := h.subperm
    refine ⟨l.map Prod.fst, ?_, ?_⟩
    · have := hperm.map Prod.fst
      rwa [List.map_map] at this
    · have := hsub.map Prod.fst
      rwa [requestsOf, List.map_map, show (Prod.fst ∘ fun i =>
        (i, contentHash P (cipherAt P m level data i))) = id from rfl, List.map_id] at this
  · rw [fetchedOf, List.map_map]
    refine (List.map_id fetched).symm.trans (List.map_congr_left fun p hp => ?_)
    obtain ⟨i, hi, he⟩ := List.mem_map.1 (h.subperm.subset (List.mem_map_of_mem hp))
    obtain ⟨rfl, hhash⟩ := Prod.mk.inj he
    have hc := hcf _ (hsub (mem_chunksOf.2 ⟨p.1, his _ hi, rfl⟩)) _ (h.mem p hp) hhash
    exact Prod.ext rfl (EncryptedChunk.mk.inj hc).symm

/-- `sort_by_key` sorts the indices. -/
theorem sortFetched_fetchedOf (js : List ℕ) : sortFetched (fetchedOf P m level data js) =
    fetchedOf P m level data (js.insertionSort (· ≤ ·)) := by
  rw [sortFetched, fetchedOf, fetchedOf]
  exact (List.map_insertionSort (· ≤ ·) (fun a b : ℕ × Bytes => a.1 ≤ b.1) _ js
    fun _ _ _ _ => Iff.rfl).symm

/-- The sorted indices of an answer are those of the request with some left out. -/
theorem sublist_of_subperm {js is : List ℕ} (h : js.Subperm is) (his : is.Pairwise (· ≤ ·)) :
    (js.insertionSort (· ≤ ·)).Sublist is :=
  List.sublist_of_subperm_of_pairwise
    ((List.perm_insertionSort (· ≤ ·) js).subperm_right.2 h) (List.pairwise_insertionSort _ js) his

/-! ## The root map -/

/-- Chunks of one level have different hashes. -/
theorem Sealed.dstHash_inj (hP : P.Ideal) (hs : Sealed P m level data) (hd : data.length ≤ isizeMax)
    (hl : level < 2 ^ 64) (hcf : CollisionFree P (chunksOf P m level data)) {i j : ℕ}
    (hi : i < getNumChunks m data.length) (hj : j < getNumChunks m data.length)
    (h : contentHash P (cipherAt P m level data i) = contentHash P (cipherAt P m level data j)) :
    i = j := by
  have hN := getNumChunks_le hs.pos.1 hs.pos.2
  have h63 : isizeMax < 2 ^ 64 := by decide
  by_contra hne
  refine encryptChunk_ne hP (show i < 2 ^ 64 by omega) hl (show j < 2 ^ 64 by omega) hl
    (fun he => hne he.1) (hs.cipher i hi) (hs.cipher j hj) ?_
  exact (EncryptedChunk.mk.inj
    (hcf _ (mem_chunksOf.2 ⟨i, hi, rfl⟩) _ (mem_chunksOf.2 ⟨j, hj, rfl⟩) h))

theorem fetchMissing_eq_ok {dataMap : DataMap} (hne : dataMap.infos ≠ []) {calls calls' : ℕ}
    {cache : Lookup XorName Bytes} :
    fetchMissing fetch dataMap .empty calls = .ok (cache, calls') ↔
      ∃ fetched, fetch calls (dataMap.infos.map ChunkInfo.request) = .ok fetched ∧
        cache = .ofList ((dataMap.infos.map ChunkInfo.dstHash).zip (fetched.map Prod.snd)) ∧
        calls' = calls + 1 := by
  have hall : (dataMap.infos.map ChunkInfo.request).filter (fun request =>
      ((Lookup.empty : Lookup XorName Bytes) request.2).isNone) =
      dataMap.infos.map ChunkInfo.request := List.filter_eq_self.2 fun _ _ => rfl
  have hcache : ∀ fetched : List (ℕ × Bytes),
      ((dataMap.infos.map ChunkInfo.request).zip fetched).foldl
        (fun cache e => cache.insert e.1.2 e.2.2) Lookup.empty =
      .ofList ((dataMap.infos.map ChunkInfo.dstHash).zip (fetched.map Prod.snd)) := by
    intro fetched
    have hdst : dataMap.infos.map ChunkInfo.dstHash =
        (dataMap.infos.map ChunkInfo.request).map Prod.snd := by rw [List.map_map]; rfl
    rw [hdst, List.zip_map, Lookup.ofList, List.foldl_map]; rfl
  simp only [fetchMissing, hall, List.map_eq_nil_iff, if_neg hne, stateT_bind_eq_ok,
    stateT_get_eq_ok, stateT_set_eq_ok, stateT_lift_eq_ok, stateT_pure_eq_ok, hcache]
  constructor
  · rintro ⟨_, _, ⟨rfl, rfl⟩, _, _, rfl, fetched, _, ⟨hf, rfl⟩, rfl, rfl⟩
    exact ⟨fetched, hf, rfl, rfl⟩
  · rintro ⟨fetched, hf, rfl, rfl⟩
    exact ⟨_, _, ⟨rfl, rfl⟩, ⟨⟩, _, rfl, fetched, _, ⟨hf, rfl⟩, rfl, rfl⟩

section Cached

variable {js : List ℕ}

/-- The chunks are found in the order in which they were returned. -/
theorem cachedChunks_perm (hP : P.Ideal) (hs : Sealed P m level data)
    (hd : data.length ≤ isizeMax) (hl : level < 2 ^ 64)
    (hcf : CollisionFree P (chunksOf P m level data)) (child : Option ℕ)
    (hjs : js.length = getNumChunks m data.length) :
    cachedChunks P ⟨infosOf P m level data, child⟩
      (.ofList (((infosOf P m level data).map ChunkInfo.dstHash).zip
        ((fetchedOf P m level data js).map Prod.snd))) =
      .ok (js.map fun j => ⟨cipherAt P m level data j⟩) := by
  obtain ⟨f, rfl⟩ : ∃ f : ℕ → ℕ, js = (List.range (getNumChunks m data.length)).map f :=
    ⟨fun i => js.getD i 0, List.ext_getElem (by simp [hjs]) fun i h _ => by simp [h]⟩
  have hentries : ((infosOf P m level data).map ChunkInfo.dstHash).zip
      ((fetchedOf P m level data ((List.range (getNumChunks m data.length)).map f)).map Prod.snd) =
      (List.range (getNumChunks m data.length)).map fun i =>
        (contentHash P (cipherAt P m level data i), cipherAt P m level data (f i)) := by
    simp only [infosOf, fetchedOf, List.map_map, List.zip_map', Function.comp_def]; rfl
  rw [cachedChunks, hentries, List.map_map]
  simp only [DataMap.infos_mk, infosOf]
  rw [mapM_eq_ok, List.forall₂_map_left_iff, List.forall₂_map_right_iff, List.forall₂_same]
  intro i hi
  rw [bind_eq_ok]
  refine ⟨cipherAt P m level data (f i), okOr_eq_ok.2 (Lookup.ofList_eq_some ?_ ?_), rfl⟩
  · intro e he e' he' hkey
    obtain ⟨k, hk, rfl⟩ := List.mem_map.1 he
    obtain ⟨k', hk', rfl⟩ := List.mem_map.1 he'
    rw [hs.dstHash_inj hP hd hl hcf (List.mem_range.1 hk) (List.mem_range.1 hk') hkey]
  · exact List.mem_map_of_mem hi

/-- Answers are paired with the first requests, so the next one has none. -/
theorem cachedChunks_error (hP : P.Ideal) (hs : Sealed P m level data)
    (hd : data.length ≤ isizeMax) (hl : level < 2 ^ 64)
    (hcf : CollisionFree P (chunksOf P m level data)) (child : Option ℕ)
    (hjs : js.length < getNumChunks m data.length) :
    ∃ e, cachedChunks P ⟨infosOf P m level data, child⟩
      (.ofList (((infosOf P m level data).map ChunkInfo.dstHash).zip
        ((fetchedOf P m level data js).map Prod.snd))) = .error e := by
  have hmem : infoAt P m level data js.length ∈ infosOf P m level data :=
    mem_infosOf.2 ⟨_, hjs, rfl⟩
  have hkeys : (((infosOf P m level data).map ChunkInfo.dstHash).zip
      ((fetchedOf P m level data js).map Prod.snd)).map Prod.fst =
      (List.range js.length).map fun i => contentHash P (cipherAt P m level data i) := by
    rw [List.zip_eq_zip_take_min, List.map_fst_zip (by simp), infosOf, List.map_map,
      ← List.map_take, List.take_range]
    simp only [List.length_map, List.length_range, length_fetchedOf]
    rw [min_eq_right hjs.le, min_eq_left hjs.le]; rfl
  have hnone : Lookup.ofList (((infosOf P m level data).map ChunkInfo.dstHash).zip
      ((fetchedOf P m level data js).map Prod.snd)) (infoAt P m level data js.length).dstHash =
      none := by
    refine Lookup.ofList_eq_none ?_
    rw [hkeys]
    intro h
    obtain ⟨i, hi, he⟩ := List.mem_map.1 h
    have hi := List.mem_range.1 hi
    exact hi.ne (hs.dstHash_inj hP hd hl hcf (hi.trans hjs) hjs he)
  exact mapM_eq_error hmem (bind_error ⟨_, by rw [hnone]; rfl⟩)

end Cached

section Root

variable {map : DataMap}

/-- **The parallel resolution** of a child map reads its root if and only if the callback
    returns all its chunks; their order does not matter. -/
theorem getRootDataMapParallel_eq_ok (hP : P.Ideal) (hs : Sealed P m level map.encode)
    (hd : map.encode.length ≤ isizeMax) (hl : level < 2 ^ 64) (hfits : map.Fits)
    (hroot : map.child = none) (hcf : CollisionFree P chunks)
    (hsub : chunksOf P m level map.encode ⊆ chunks) (hf : fetch.Sound P chunks) (calls : ℕ)
    {r : DataMap × ℕ} :
    getRootDataMapParallel P fetch ⟨infosOf P m level map.encode, some level⟩ calls = .ok r ↔
      (∃ fetched, fetch calls ((infosOf P m level map.encode).map ChunkInfo.request) = .ok fetched ∧
        fetched.length = getNumChunks m map.encode.length) ∧ r = (map, calls + 1) := by
  obtain ⟨root, calls'⟩ := r
  have hcf' := hcf.subset hsub
  have hne : (DataMap.mk (infosOf P m level map.encode) (some level)).infos ≠ [] := by
    intro h
    have := congrArg List.length h
    rw [DataMap.infos_mk, length_infosOf, List.length_nil] at this
    have := hs.three_le; omega
  -- after the request the chunks are decrypted, if they are all there
  have hrest : ∀ fetched, fetch calls ((infosOf P m level map.encode).map ChunkInfo.request) =
      .ok fetched → (∃ encryptedChunks, cachedChunks P ⟨infosOf P m level map.encode, some level⟩
        (.ofList (((infosOf P m level map.encode).map ChunkInfo.dstHash).zip
          (fetched.map Prod.snd))) = .ok encryptedChunks ∧
        decryptFullSet P ⟨infosOf P m level map.encode, some level⟩ encryptedChunks =
          .ok map.encode) ∧ fetched.length = getNumChunks m map.encode.length ∨
      (∃ e, cachedChunks P ⟨infosOf P m level map.encode, some level⟩
        (.ofList (((infosOf P m level map.encode).map ChunkInfo.dstHash).zip
          (fetched.map Prod.snd))) = .error e) ∧
        fetched.length ≠ getNumChunks m map.encode.length := by
    intro fetched hfetch
    have hdrawn := hf _ _ _ hfetch
    rw [infosOf, map_request] at hdrawn
    obtain ⟨js, hperm, rfl⟩ := hdrawn.exists_indices hcf hsub fun i hi => List.mem_range.1 hi
    have hle := hperm.length_le
    rw [List.length_range] at hle
    rw [length_fetchedOf]
    rcases hle.lt_or_eq with hlt | heq
    · exact .inr ⟨cachedChunks_error hP hs hd hl hcf' _ hlt, hlt.ne⟩
    · have hperm : js.Perm (List.range (getNumChunks m map.encode.length)) :=
        hperm.perm_of_length_le (by rw [List.length_range]; exact heq.ge)
      have hchunks : (js.map fun j => EncryptedChunk.mk (cipherAt P m level map.encode j)).Perm
          (chunksOf P m level map.encode) := hperm.map _
      exact .inl ⟨⟨_, cachedChunks_perm hP hs hd hl hcf' _ heq,
        hs.decryptFullSet_eq hP.toLawful rfl (hcf'.subset hchunks.subset) hchunks.symm.subset⟩, heq⟩
  rw [getRootDataMapParallel, innerGetRootMapParallel, if_neg (by simp)]
  simp only [stateT_bind_eq_ok, fetchMissing_eq_ok hne, stateT_lift_eq_ok, Prod.mk.injEq]
  have hend : ∀ cache c, innerGetRootMapParallel P fetch 100 cache map c = .ok (map, c) := by
    intro cache c
    rw [innerGetRootMapParallel, if_pos (by simp [DataMap.isChild, hroot])]; rfl
  constructor
  · rintro ⟨_, _, ⟨fetched, hfetch, rfl, rfl⟩, encryptedChunks, _, ⟨hc, rfl⟩, bytes, _, ⟨hdec, rfl⟩,
      parent, _, ⟨hp, rfl⟩, hr⟩
    obtain ⟨⟨_, hc', hdec'⟩, hlen⟩ | ⟨herr, -⟩ := hrest fetched hfetch
    · obtain rfl := Except.ok.inj (hc.symm.trans hc')
      obtain rfl := Except.ok.inj (hdec.symm.trans hdec')
      obtain rfl := Except.ok.inj (hp.symm.trans (parentDataMap_encode hfits))
      rw [hend] at hr
      obtain ⟨rfl, rfl⟩ := Prod.mk.inj (Except.ok.inj hr)
      exact ⟨⟨fetched, hfetch, hlen⟩, rfl, rfl⟩
    · exact absurd hc (ne_ok_of_error herr)
  · rintro ⟨⟨fetched, hfetch, hlen⟩, rfl, rfl⟩
    obtain ⟨⟨encryptedChunks, hc, hdec⟩, -⟩ | ⟨-, hne⟩ := hrest fetched hfetch
    · exact ⟨_, _, ⟨fetched, hfetch, rfl, rfl⟩, encryptedChunks, _, ⟨hc, rfl⟩, _, _, ⟨hdec, rfl⟩,
        _, _, ⟨parentDataMap_encode hfits, rfl⟩, hend _ _⟩
    · exact absurd hlen hne

end Root

/-! ## The stream -/

/-- The stream at its start.  The chunks are read with the keys of level 0, whatever their
    level is. -/
def streamOf (P : Primitives) (m level : ℕ) (data : Bytes) (calls : ℕ) : DecryptionStream where
  chunkInfos := infosOf P m level data
  srcHashes := (List.range (getNumChunks m data.length)).map (srcHashAt P m data)
  childLevel := 0
  calls := calls
  currentBatchStart := 0
  currentBatchChunks := []
  currentBatchIndex := 0

section Stream

variable {map : DataMap} {s : DecryptionStream}

theorem streamingDecrypt_root (P : Primitives) (m level : ℕ) (data : Bytes) (fetch : Fetch) :
    streamingDecrypt P fetch ⟨infosOf P m level data, none⟩ = .ok (streamOf P m level data 0) := by
  rw [streamOf, ← extractHashes_infosOf none]
  simp only [streamingDecrypt, DecryptionStream.new, DataMap.isChild_mk, Option.isSome_none,
    Bool.false_eq_true, if_false, pure_bind, DataMap.infos_mk, sortByIndex_eq indexed_infosOf]
  rfl

theorem streamingDecrypt_child {calls : ℕ}
    (h : getRootDataMapParallel P fetch map 0 = .ok (⟨infosOf P m level data, none⟩, calls))
    (hc : map.isChild = true) :
    streamingDecrypt P fetch map = .ok (streamOf P m level data calls) := by
  rw [streamOf, ← extractHashes_infosOf none]
  simp only [streamingDecrypt, DecryptionStream.new, hc, if_true, h, bind, Except.bind,
    DataMap.infos_mk, sortByIndex_eq indexed_infosOf]
  rfl

theorem exists_root_of_child (hc : map.isChild = true)
    (h : streamingDecrypt P fetch map = .ok s) :
    ∃ r, getRootDataMapParallel P fetch map 0 = .ok r := by
  simp only [streamingDecrypt, DecryptionStream.new, hc, if_true, bind_eq_ok] at h
  obtain ⟨r, hr, -⟩ := h
  exact ⟨r, hr⟩

/-- The map below a tagged one is read, and is all that is read. -/
theorem LastLevels.getRootDataMapParallel_eq_ok (hP : P.Ideal) (hcf : CollisionFree P chunks)
    (h : LastLevels P m map chunks level data) (hf : fetch.Sound P chunks)
    (hd : (DataMap.mk (infosOf P m level data) none).encode.length ≤ isizeMax) (calls : ℕ)
    {r : DataMap × ℕ} :
    getRootDataMapParallel P fetch map calls = .ok r ↔
      (∃ fetched, fetch calls (map.infos.map ChunkInfo.request) = .ok fetched ∧
        fetched.length = map.len) ∧ r = (⟨infosOf P m level data, none⟩, calls + 1) := by
  rw [h.map_eq, DataMap.infos_mk, DataMap.len_mk, length_infosOf]
  exact Autonomi.getRootDataMapParallel_eq_ok hP h.sealed_map hd (by decide) h.fits rfl hcf
    h.subset_map hf calls

/-- The encoded map of a file that fits into memory, at chunk sizes for which `encrypt` returns. -/
theorem Encrypts.length_encode_le {level' : ℕ} {data' : Bytes}
    (h : Encrypts P m data level map chunks) (hd : data.length ≤ isizeMax)
    (hN : 3 < getNumChunks m data.length) (h3 : 3 < getNumChunks m data'.length)
    (hd' : data'.length ≤ data.length) :
    (DataMap.mk (infosOf P m level' data') none).encode.length ≤ isizeMax := by
  have hlt := length_encode_lt (h.large.resolve_left (by omega)) h3
  rw [length_encode_infosOf]; omega

/-- **What a stream reads**: the file, or from two levels on the map that is taken for its
    root. -/
theorem Encrypts.streamingDecrypt_eq (hP : P.Ideal) (hd : data.length ≤ isizeMax)
    (h : Encrypts P m data 0 map chunks) (hcf : CollisionFree P chunks)
    (hf : fetch.Sound P chunks) (hs : streamingDecrypt P fetch map = .ok s) :
    ∃ level data' calls, s = streamOf P m level data' calls ∧ Sealed P m level data' ∧
      chunksOf P m level data' ⊆ chunks ∧
      (OneLevel m data.length ∧ level = 0 ∧ data' = data ∨
        ¬ OneLevel m data.length ∧ level = 1 ∧ data'.length < data.length) := by
  rcases Nat.lt_or_ge 3 (getNumChunks m data.length) with hN | hN
  · have hlast : ∀ {level data'}, LastLevels P m map chunks level data' →
        data'.length ≤ data.length → ∃ calls, s = streamOf P m level data' calls := by
      intro level data' hl hle
      have hc : map.isChild = true := by rw [hl.map_eq]; rfl
      obtain ⟨r, hr⟩ := exists_root_of_child hc hs
      have hread := (hl.getRootDataMapParallel_eq_ok hP hcf hf
        (h.length_encode_le hd hN hl.three_lt hle) 0).1 hr
      rw [hread.2] at hr
      exact ⟨1, Except.ok.inj (hs.symm.trans (streamingDecrypt_child hr hc))⟩
    obtain ⟨hM, hl⟩ | ⟨hM, data', hlt, hl⟩ := h.lastLevels hN hd
    · obtain ⟨calls, hs⟩ := hlast hl le_rfl
      exact ⟨0, data, calls, hs, hl.sealed, hl.subset, .inl ⟨.inr hM, rfl, rfl⟩⟩
    · obtain ⟨calls, hs⟩ := hlast hl hlt.le
      refine ⟨1, data', calls, hs, hl.sealed, hl.subset, .inr ⟨?_, rfl, hlt⟩⟩
      rintro (h1 | h1) <;> omega
  · cases h with
    | root hsealed =>
      rw [streamingDecrypt_root] at hs
      exact ⟨0, data, 0, (Except.ok.inj hs).symm, hsealed, List.Subset.refl _,
        .inl ⟨.inl hN, rfl, rfl⟩⟩
    | shrink _ hN' => omega

/-- **Both resolutions agree** when nothing is missing, at any number of levels. -/
theorem Encrypts.roots_agree (hP : P.Ideal) (hd : data.length ≤ isizeMax)
    (h : Encrypts P m data 0 map chunks) (hcf : CollisionFree P chunks)
    (hf : fetch.Complete P chunks) (calls : ℕ) :
    ∃ root calls', getRootDataMapParallel P fetch map calls = .ok (root, calls') ∧
      getRootDataMap P map (getChunk P (chunkMapOf P chunks)) = .ok root := by
  rcases Nat.lt_or_ge 3 (getNumChunks m data.length) with hN | hN
  · have hlast : ∀ {level data'}, LastLevels P m map chunks level data' →
        data'.length ≤ data.length →
        ∃ root calls', getRootDataMapParallel P fetch map calls = .ok (root, calls') ∧
          getRootDataMap P map (getChunk P (chunkMapOf P chunks)) = .ok root := by
      intro level data' hl hle
      obtain ⟨fetched, hfetch, hlen⟩ := hf.returns calls (map.infos.map ChunkInfo.request) (by
        rw [hl.map_eq, DataMap.infos_mk, infosOf, map_request]
        intro q hq
        obtain ⟨i, hi, rfl⟩ := List.mem_map.1 hq
        exact ⟨_, hl.subset_map (mem_chunksOf.2 ⟨i, List.mem_range.1 hi, rfl⟩), rfl⟩)
      refine ⟨_, _, (hl.getRootDataMapParallel_eq_ok hP hcf hf.sound
        (h.length_encode_le hd hN hl.three_lt hle) calls).2
          ⟨⟨fetched, hfetch, hlen.trans (List.length_map _)⟩, rfl⟩, ?_⟩
      rw [hl.map_eq]
      refine getRootDataMap_infosOf hP.toLawful hl.sealed_map hl.fits rfl (hcf.subset hl.subset_map)
        fun c hc => ?_
      rw [getChunk, chunkMapOf_of_mem hcf (hl.subset_map hc)]; rfl
    obtain ⟨-, hl⟩ | ⟨-, data', hlt, hl⟩ := h.lastLevels hN hd
    · exact hlast hl le_rfl
    · exact hlast hl hlt.le
  · cases h with
    | root =>
      refine ⟨_, calls, ?_, innerGetRootMap_root rfl⟩
      rw [getRootDataMapParallel, innerGetRootMapParallel, if_pos (by simp)]; rfl
    | shrink _ hN' => omega

theorem Encrypts.exists_stream (hP : P.Ideal) (hd : data.length ≤ isizeMax)
    (h : Encrypts P m data 0 map chunks) (hcf : CollisionFree P chunks)
    (hf : fetch.Complete P chunks) : ∃ s, streamingDecrypt P fetch map = .ok s := by
  obtain ⟨root, calls, hroot, -⟩ := h.roots_agree hP hd hcf hf 0
  rw [streamingDecrypt, DecryptionStream.new]
  by_cases hc : map.isChild
  · rw [if_pos hc, hroot]; exact ⟨_, rfl⟩
  · rw [if_neg hc]; exact ⟨_, rfl⟩

end Stream

end Autonomi
