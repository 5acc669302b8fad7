/-
  `decrypt` and `get_root_data_map` (`self_encryption/src/lib.rs`,
  `decrypt.rs`).
-/
import Autonomi.Lib.Lookup
import Autonomi.SelfEncryption.Encrypt

namespace Autonomi

open Lib

variable (P : Primitives)

def hexEncode (name : XorName) : String :=
  String.ofList (name.toList.flatMap fun b => [(b.toNat / 16).digitChar, (b.toNat % 16).digitChar])

/-- The chunks by their hashes. -/
def chunkMapOf (chunks : List EncryptedChunk) : Lookup XorName EncryptedChunk :=
  .ofList (chunks.map fun chunk => (contentHash P chunk.content, chunk))

def decryptSortedSet (srcHashes : List XorName) (encryptedChunks : List EncryptedChunk)
    (childLevel : ℕ) : Except Error Bytes := do
  let decryptedChunks ← encryptedChunks.zipIdx.mapM fun chunk =>
    decryptChunk P chunk.2 chunk.1.content srcHashes childLevel
  pure decryptedChunks.flatten

def decryptFullSet (dataMap : DataMap) (chunks : List EncryptedChunk) : Except Error Bytes := do
  let srcHashes := extractHashes dataMap
  let childLevel := dataMap.child.getD 0
  let chunkMap := chunkMapOf P chunks
  let sortedChunks ← dataMap.infos.mapM fun info =>
    okOr (.generic s!"Chunk with hash {P.debugName info.dstHash} not found in data map")
      (chunkMap info.dstHash)
  decryptSortedSet P srcHashes sortedChunks childLevel

/-- `DataMap::from_bytes` with the error of the two callers below. -/
def parentDataMap (bytes : Bytes) : Except Error DataMap :=
  (DataMap.fromBytes bytes).mapError fun e =>
    .generic s!"Failed to deserialize data map: {bincodeText e}"

/-- One chunk of a child map, from the cache or else from the callback. -/
def fetchChunk (getChunk : XorName → Except Error Bytes)
    (s : Lookup XorName Bytes × List EncryptedChunk) (info : ChunkInfo) :
    Except Error (Lookup XorName Bytes × List EncryptedChunk) :=
  match s.1 info.dstHash with
  | some cached => .ok (s.1, s.2 ++ [⟨cached⟩])
  | none => do
    let data ← getChunk info.dstHash
    pure (s.1.insert info.dstHash data, s.2 ++ [⟨data⟩])

/-- The first argument counts down from `101` to the depth limit. -/
def innerGetRootMap (getChunk : XorName → Except Error Bytes) :
    ℕ → Lookup XorName Bytes → DataMap → Except Error DataMap
  | 0, _, _ => .error (.generic "Maximum data map recursion depth exceeded")
  | depth + 1, chunkCache, dataMap =>
    if ¬ dataMap.isChild then .ok dataMap
    else do
      let (chunkCache, encryptedChunks) ←
        dataMap.infos.foldlM (fetchChunk getChunk) (chunkCache, [])
      let decryptedBytes ← decryptFullSet P dataMap encryptedChunks
      let parent ← parentDataMap decryptedBytes
      innerGetRootMap getChunk depth chunkCache parent

def getRootDataMap (dataMap : DataMap) (getChunk : XorName → Except Error Bytes) :
    Except Error DataMap :=
  innerGetRootMap P getChunk 101 .empty dataMap

/-- The closure `get_chunk` of `decrypt`. -/
def getChunk (chunkMap : Lookup XorName EncryptedChunk) (hash : XorName) : Except Error Bytes :=
  okOr (.generic s!"Chunk not found for hash: {P.debugName hash}")
    ((chunkMap hash).map EncryptedChunk.content)

def decrypt (dataMap : DataMap) (chunks : List EncryptedChunk) : Except Error Bytes := do
  let chunkMap := chunkMapOf P chunks
  let rootMap ← if dataMap.isChild then getRootDataMap P dataMap (getChunk P chunkMap)
    else pure dataMap
  let rootChunks ← rootMap.infos.mapM fun info =>
    okOr (.generic s!"Missing chunk: {hexEncode info.dstHash}") (chunkMap info.dstHash)
  decryptFullSet P rootMap rootChunks

/-! ## Lookups -/

variable {P}

/-- Different chunks have different hashes. -/
def CollisionFree (P : Primitives) (chunks : List EncryptedChunk) : Prop :=
  ∀ c ∈ chunks, ∀ c' ∈ chunks, contentHash P c.content = contentHash P c'.content → c = c'

instance (P : Primitives) (chunks : List EncryptedChunk) : Decidable (CollisionFree P chunks) := by
  unfold CollisionFree; infer_instance

theorem CollisionFree.subset {chunks chunks' : List EncryptedChunk} (h : CollisionFree P chunks)
    (hs : chunks' ⊆ chunks) : CollisionFree P chunks' :=
  fun c hc c' hc' => h c (hs hc) c' (hs hc')

theorem chunkMapOf_of_mem {chunks : List EncryptedChunk} (h : CollisionFree P chunks)
    {c : EncryptedChunk} (hc : c ∈ chunks) :
    chunkMapOf P chunks (contentHash P c.content) = some c := by
  refine Lookup.ofList_eq_some ?_ (List.mem_map_of_mem hc)
  simp only [List.forall_mem_map]
  exact h

theorem mem_of_chunkMapOf {chunks : List EncryptedChunk} {k : XorName} {c : EncryptedChunk}
    (h : chunkMapOf P chunks k = some c) : c ∈ chunks ∧ contentHash P c.content = k := by
  obtain ⟨c', hc, he⟩ := List.mem_map.1 (Lookup.mem_of_ofList h)
  obtain ⟨rfl, rfl⟩ := Prod.mk.inj he
  exact ⟨hc, rfl⟩

/-! ## The chunks of one level -/

section Level

variable {m level : ℕ} {data : Bytes}

theorem extractHashes_infosOf (child : Option ℕ) :
    extractHashes ⟨infosOf P m level data, child⟩ =
      (List.range (getNumChunks m data.length)).map (srcHashAt P m data) := by
  simp only [extractHashes, DataMap.infos_mk, infosOf, List.map_map]; rfl

theorem Sealed.decryptChunk_eq (hP : P.Lawful) (h : Sealed P m level data) (child : Option ℕ)
    {i : ℕ} (hi : i < getNumChunks m data.length) :
    decryptChunk P i (cipherAt P m level data i)
      (extractHashes ⟨infosOf P m level data, child⟩) level = .ok (chunkAt m data i) := by
  rw [extractHashes_infosOf]
  exact decryptChunk_encryptChunk hP (getPadKeyAndNonce_srcHashes h.three_le hi) (h.cipher i hi)

/-- The chunks of a level are found, in the order of the infos. -/
theorem mapM_chunkMapOf {chunks : List EncryptedChunk} (hcf : CollisionFree P chunks)
    (hsub : chunksOf P m level data ⊆ chunks) (e : ChunkInfo → Error) :
    (infosOf P m level data).mapM (fun info => okOr (e info) (chunkMapOf P chunks info.dstHash)) =
      .ok (chunksOf P m level data) := by
  rw [infosOf, chunksOf, mapM_eq_ok, List.forall₂_map_left_iff, List.forall₂_map_right_iff,
    List.forall₂_same]
  intro i hi
  rw [okOr_eq_ok]
  exact chunkMapOf_of_mem hcf (hsub (mem_chunksOf.2 ⟨i, List.mem_range.1 hi, rfl⟩))

theorem decryptFullSet_infosOf {child : Option ℕ} {chunks : List EncryptedChunk}
    (hcf : CollisionFree P chunks) (hsub : chunksOf P m level data ⊆ chunks) :
    decryptFullSet P ⟨infosOf P m level data, child⟩ chunks =
      decryptSortedSet P (extractHashes ⟨infosOf P m level data, child⟩)
        (chunksOf P m level data) (child.getD 0) := by
  simp only [decryptFullSet, DataMap.infos_mk, mapM_chunkMapOf hcf hsub, bind, Except.bind]

/-- **A level is decrypted** from any chunks that contain its own. -/
theorem Sealed.decryptFullSet_eq (hP : P.Lawful) (h : Sealed P m level data) {child : Option ℕ}
    (hc : child.getD 0 = level) {chunks : List EncryptedChunk} (hcf : CollisionFree P chunks)
    (hsub : chunksOf P m level data ⊆ chunks) :
    decryptFullSet P ⟨infosOf P m level data, child⟩ chunks = .ok data := by
  have hdec : (chunksOf P m level data).zipIdx.mapM (fun chunk => decryptChunk P chunk.2
      chunk.1.content (extractHashes ⟨infosOf P m level data, child⟩) level) =
      .ok ((List.range (getNumChunks m data.length)).map (chunkAt m data)) := by
    rw [chunksOf, zipIdx_map_range, mapM_eq_ok, List.forall₂_map_left_iff,
      List.forall₂_map_right_iff, List.forall₂_same]
    intro i hi
    exact h.decryptChunk_eq hP child (List.mem_range.1 hi)
  rw [decryptFullSet_infosOf hcf hsub, hc, decryptSortedSet, hdec]
  exact congrArg Except.ok h.flatten_chunkAt

/-- A level is refused when the map is tagged with another one. -/
theorem Sealed.decryptFullSet_error (hP : P.Ideal) (h : Sealed P m level data)
    (hl : level < 2 ^ 64) {child : Option ℕ} (hc' : child.getD 0 < 2 ^ 64)
    (hc : child.getD 0 ≠ level) {chunks : List EncryptedChunk}
    (hcf : CollisionFree P chunks) (hsub : chunksOf P m level data ⊆ chunks) :
    ∃ e, decryptFullSet P ⟨infosOf P m level data, child⟩ chunks = .error e := by
  have h3 := h.three_le
  rw [decryptFullSet_infosOf hcf hsub]
  refine bind_error (mapM_eq_error (a := (⟨cipherAt P m level data 0⟩, 0)) ?_ ?_)
  · rw [chunksOf, zipIdx_map_range]
    exact List.mem_map_of_mem (List.mem_range.2 (by omega))
  · exact decryptChunk_foreign hP (by omega) hl (by omega) hc' (fun he => hc he.2.symm)
      (h.cipher 0 (by omega))

end Level

/-! ## The root map -/

/-- The chunks come in the order of the infos, cached or not. -/
theorem foldlM_fetchChunk {getChunk : XorName → Except Error Bytes} (content : XorName → Bytes) :
    ∀ {infos : List ChunkInfo} {cache : Lookup XorName Bytes} {acc : List EncryptedChunk},
    (∀ k v, cache k = some v → v = content k) →
    (∀ info ∈ infos, getChunk info.dstHash = .ok (content info.dstHash)) →
    ∃ cache', infos.foldlM (fetchChunk getChunk) (cache, acc) =
      .ok (cache', acc ++ infos.map fun info => ⟨content info.dstHash⟩)
  | [], cache, acc, _, _ => ⟨cache, by rw [List.map_nil, List.append_nil]; rfl⟩
  | info :: infos, cache, acc, hcache, hget => by
    have hinfo := hget info List.mem_cons_self
    have hrest := fun i hi => hget i (List.mem_cons_of_mem _ hi)
    have happ : acc ++ (info :: infos).map (fun info => EncryptedChunk.mk (content info.dstHash)) =
        acc ++ [⟨content info.dstHash⟩] ++ infos.map fun info => ⟨content info.dstHash⟩ := by
      rw [List.map_cons, List.append_assoc, List.singleton_append]
    rw [List.foldlM_cons, happ]
    rcases hc : cache info.dstHash with _ | v
    · have hstep : fetchChunk getChunk (cache, acc) info =
          .ok (cache.insert info.dstHash (content info.dstHash), acc ++ [⟨content info.dstHash⟩]) := by
        simp only [fetchChunk, hc, hinfo, bind, Except.bind, pure, Except.pure]
      rw [hstep]
      refine foldlM_fetchChunk content (fun k v hk => ?_) hrest
      by_cases hkey : k = info.dstHash
      · subst hkey
        rw [Lookup.insert_self, Option.some_inj] at hk; exact hk.symm
      · rw [Lookup.insert_ne _ _ hkey] at hk; exact hcache k v hk
    · have hstep : fetchChunk getChunk (cache, acc) info =
          .ok (cache, acc ++ [⟨content info.dstHash⟩]) := by
        simp only [fetchChunk, hc, hcache _ _ hc]
      rw [hstep]
      exact foldlM_fetchChunk content hcache hrest

theorem parentDataMap_encode {map : DataMap} (h : map.Fits) :
    parentDataMap map.encode = .ok map := by
  have := DataMap.fromBytes_encode h []
  rw [List.append_nil] at this
  rw [parentDataMap, this]; rfl

theorem innerGetRootMap_root {getChunk : XorName → Except Error Bytes} {depth : ℕ}
    {cache : Lookup XorName Bytes} {map : DataMap} (h : map.child = none) :
    innerGetRootMap P getChunk (depth + 1) cache map = .ok map := by
  rw [innerGetRootMap, if_pos (by simp [DataMap.isChild, h])]

section Root

variable {m level : ℕ} {data : Bytes} {map : DataMap}

/-- **One level down**: the map that was encrypted is read back. -/
theorem getRootDataMap_infosOf (hP : P.Lawful) (hs : Sealed P m level map.encode) (hfits : map.Fits)
    (hroot : map.child = none) {getChunk : XorName → Except Error Bytes}
    (hcf : CollisionFree P (chunksOf P m level map.encode))
    (hget : ∀ c ∈ chunksOf P m level map.encode, getChunk (contentHash P c.content) = .ok c.content) :
    getRootDataMap P ⟨infosOf P m level map.encode, some level⟩ getChunk = .ok map := by
  have hinfos : ∀ info ∈ infosOf P m level map.encode,
      getChunk info.dstHash = .ok ((getChunk info.dstHash).toOption.getD []) := by
    intro info hinfo
    obtain ⟨i, hi, rfl⟩ := mem_infosOf.1 hinfo
    rw [infoAt, hget ⟨cipherAt P m level map.encode i⟩ (mem_chunksOf.2 ⟨i, hi, rfl⟩)]; rfl
  have hchunks : (infosOf P m level map.encode).map (fun info =>
      EncryptedChunk.mk ((getChunk info.dstHash).toOption.getD [])) =
      chunksOf P m level map.encode := by
    rw [infosOf, chunksOf, List.map_map]
    refine List.map_congr_left fun i hi => ?_
    rw [Function.comp_apply, infoAt, hget ⟨cipherAt P m level map.encode i⟩
      (mem_chunksOf.2 ⟨i, List.mem_range.1 hi, rfl⟩)]; rfl
  obtain ⟨cache, hfetch⟩ : ∃ cache, (infosOf P m level map.encode).foldlM (fetchChunk getChunk)
      (.empty, []) = .ok (cache, [] ++ _) :=
    foldlM_fetchChunk (fun k => (getChunk k).toOption.getD [])
      (fun k v h => by cases h) hinfos
  rw [List.nil_append, hchunks] at hfetch
  have hdec : decryptFullSet P ⟨infosOf P m level map.encode, some level⟩
      (chunksOf P m level map.encode) = .ok map.encode :=
    hs.decryptFullSet_eq hP rfl hcf (List.Subset.refl _)
  rw [getRootDataMap, innerGetRootMap, if_neg (by simp), DataMap.infos_mk, hfetch]
  simp only [bind, Except.bind, hdec,
    parentDataMap_encode hfits, innerGetRootMap_root hroot]

variable {chunks : List EncryptedChunk}

theorem decrypt_root (hcf : CollisionFree P chunks) (hsub : chunksOf P m level data ⊆ chunks) :
    decrypt P ⟨infosOf P m level data, none⟩ chunks =
      decryptFullSet P ⟨infosOf P m level data, none⟩ (chunksOf P m level data) := by
  simp only [decrypt, DataMap.isChild_mk, Option.isSome_none, Bool.false_eq_true, if_false,
    DataMap.infos_mk, mapM_chunkMapOf hcf hsub, bind, Except.bind, pure, Except.pure]

theorem decrypt_missing (hroot : map.child = none) {info : ChunkInfo} (hi : info ∈ map.infos)
    (h : chunkMapOf P chunks info.dstHash = none) : ∃ e, decrypt P map chunks = .error e := by
  simp only [decrypt, DataMap.isChild, hroot, Option.isSome_none, Bool.false_eq_true, if_false,
    pure_bind]
  exact bind_error (mapM_eq_error hi ⟨_, by rw [h]; rfl⟩)

/-- A map one level down is decrypted as the map it holds. -/
theorem decrypt_child (hP : P.Lawful) (hs : Sealed P m level map.encode) (hfits : map.Fits)
    (hroot : map.child = none) (hcf : CollisionFree P chunks)
    (hsub : chunksOf P m level map.encode ⊆ chunks) :
    decrypt P ⟨infosOf P m level map.encode, some level⟩ chunks = decrypt P map chunks := by
  have hget : ∀ c ∈ chunksOf P m level map.encode,
      getChunk P (chunkMapOf P chunks) (contentHash P c.content) = .ok c.content := by
    intro c hc
    rw [getChunk, chunkMapOf_of_mem hcf (hsub hc)]; rfl
  simp only [decrypt, DataMap.isChild, hroot, Option.isSome_some, Option.isSome_none,
    Bool.false_eq_true, if_true, if_false,
    getRootDataMap_infosOf hP hs hfits hroot (hcf.subset hsub) hget, bind, Except.bind, pure,
    Except.pure]

end Root

end Autonomi
