/-
  Publishing a data map (`ant-core/src/data/client/data.rs`) and downloading
  from its address in the browser (`ant-wasm/src/client.rs`).

  `data_map_store` writes MessagePack, in the compact form of `rmp_serde`: a
  struct is an array of its fields.  `download_from_address` reads bincode.
-/
import Autonomi.Client.Data

namespace Autonomi

open Lib

/-! ## MessagePack -/

def writeUint (n : ℕ) : Bytes :=
  if n < 128 then [UInt8.ofNat n]
  else if n < 2 ^ 8 then 0xcc :: beBytes 1 n
  else if n < 2 ^ 16 then 0xcd :: beBytes 2 n
  else if n < 2 ^ 32 then 0xce :: beBytes 4 n
  else 0xcf :: beBytes 8 n

def writeArrayLen (n : ℕ) : Bytes :=
  if n < 16 then [UInt8.ofNat (0x90 + n)]
  else if n < 2 ^ 16 then 0xdc :: beBytes 2 n
  else 0xdd :: beBytes 4 n

/-- A byte array is an array of numbers. -/
def writeName (name : XorName) : Bytes :=
  writeArrayLen 32 ++ name.toList.flatMap fun b => writeUint b.toNat

def ChunkInfo.toMsgpack (c : ChunkInfo) : Bytes :=
  writeArrayLen 4 ++ writeUint c.index ++ writeName c.dstHash ++ writeName c.srcHash ++
    writeUint c.srcSize

/-- `rmp_serde::to_vec` of `VersionedDataMap`. -/
def DataMap.toMsgpack (m : DataMap) : Bytes :=
  writeArrayLen 3 ++ writeUint 1 ++
    (writeArrayLen m.len ++ m.chunkIdentifiers.flatMap ChunkInfo.toMsgpack) ++
    match m.child with
    | none => [0xc0]
    | some c => writeUint c

/-- **The two forms do not meet**: what is written is not read. -/
theorem fromBytes_toMsgpack (m : DataMap) : ∃ e, DataMap.fromBytes m.toMsgpack = .error e := by
  rcases h : DataMap.fromBytes m.toMsgpack with e | map
  · exact ⟨e, rfl⟩
  · exact absurd (DataMap.head_of_fromBytes h) (by simp [DataMap.toMsgpack, writeArrayLen])

variable (P : Primitives) (S : Services)

def dataMapStore (dataMap : DataMap) : Client XorName := chunkPut P S dataMap.toMsgpack

/-! ## The browser -/

inductive ChunkGetResponse where
  | success (address : XorName) (content : Bytes)
  | notFound (address : XorName)
  | error (msg : String)

inductive ChunkMessageBody where
  | getResponse (response : ChunkGetResponse)
  | other

structure DataChunk where
  address : XorName
  content : Bytes

/-- The cache keeps the entry used last in front. -/
structure DownloadClient where
  nextRequestId : ℕ
  cache : List (XorName × Bytes)
  deriving DecidableEq

def cacheCapacity : ℕ := 1024

def DownloadClient.new : DownloadClient := ⟨1, []⟩

/-- The node's answer to a `ChunkGetRequest`, or the error of the tunnel. -/
abbrev Node := ℕ → XorName → Except String ChunkMessageBody

abbrev Download (α : Type) := StateT DownloadClient (Except String) α

def cachePop (address : XorName) (cache : List (XorName × Bytes)) : List (XorName × Bytes) :=
  cache.filter fun e => e.1 ≠ address

def cachePut (address : XorName) (content : Bytes) (cache : List (XorName × Bytes)) :
    List (XorName × Bytes) :=
  ((address, content) :: cachePop address cache).take cacheCapacity

/-- The request for a chunk that is not cached. -/
def fetchChunkFrom (node : Node) (address : XorName) : Download (Option DataChunk) := do
  let client ← get
  set { client with nextRequestId := (client.nextRequestId + 1) % 2 ^ 64 }
  let body ← node client.nextRequestId address
  match body with
  | .getResponse (.success addr content) =>
    if addr ≠ address then
      throw s!"address mismatch: expected {hexEncode address}, got {hexEncode addr}"
    else if computeAddress P content ≠ addr then
      throw s!"content hash mismatch: expected {hexEncode addr}, got {hexEncode (computeAddress P content)}"
    else do
      modify fun client => { client with cache := cachePut address content client.cache }
      pure (some ⟨addr, content⟩)
  | .getResponse (.notFound _) => pure none
  | .getResponse (.error e) => throw s!"remote error: {e}"
  | .other => throw "unexpected response type"

/-- The source would panic on cached content of another hash, which it removes while it still
    borrows the cache.  There is none (`Cached`). -/
def chunkGet (node : Node) (address : XorName) : Download (Option DataChunk) := do
  let client ← get
  match client.cache.find? fun e => e.1 = address with
  | some (_, cached) =>
    if computeAddress P cached = address then do
      set { client with cache := cachePut address cached client.cache }
      pure (some ⟨address, cached⟩)
    else do
      set { client with cache := cachePop address client.cache }
      fetchChunkFrom P node address
  | none => fetchChunkFrom P node address

def downloadInfo (node : Node) (total : ℕ) (info : ChunkInfo × ℕ) : Download EncryptedChunk := do
  let addr := info.1.dstHash
  let chunk ← chunkGet P node addr
  let chunk ← (okOr s!"Missing chunk {info.2 + 1}/{total}: {hexEncode addr}" chunk :
    Except String DataChunk)
  pure ⟨chunk.content⟩

def downloadFromAddress (node : Node) (address : XorName) : Download Bytes := do
  let chunk ← chunkGet P node address
  let datamapChunk ← (okOr s!"DataMap not found at {hexEncode address}" chunk :
    Except String DataChunk)
  let dataMap ← ((DataMap.fromBytes datamapChunk.content).mapError fun e =>
    s!"failed to deserialize DataMap: {bincodeText e}" : Except String DataMap)
  let encryptedChunks ← dataMap.infos.zipIdx.mapM (downloadInfo P node dataMap.len)
  let content ← ((decrypt P dataMap encryptedChunks).mapError fun e =>
    s!"decryption failed: {e.text}" : Except String Bytes)
  pure content

/-- A node of a network that holds exactly `stored`. -/
def honestNode (stored : List Bytes) : Node := fun _ address =>
  match chunkMapOf P (stored.map EncryptedChunk.mk) address with
  | some chunk => .ok (.getResponse (.success address chunk.content))
  | none => .ok (.getResponse (.notFound address))

/-! ## What the browser gets -/

variable {P S} {stored stored' : List Bytes} {client client' : DownloadClient} {address : XorName}
  {chunk : DataChunk} {node : Node} {found : Option DataChunk}

/-- What is cached has the hash that it is under. -/
def Cached (P : Primitives) (client : DownloadClient) : Prop :=
  ∀ e ∈ client.cache, computeAddress P e.2 = e.1

theorem cached_new : Cached P .new := nofun

theorem Cached.put (h : Cached P client) {content : Bytes}
    (hhash : computeAddress P content = address) :
    Cached P { client with cache := cachePut address content client.cache } := by
  intro e he
  rcases List.mem_cons.1 (List.mem_of_mem_take he) with rfl | he
  · exact hhash
  · exact h e (List.mem_of_mem_filter he)

theorem Cached.fetchChunkFrom (h : Cached P client)
    (hfetch : fetchChunkFrom P node address client = .ok (found, client')) : Cached P client' := by
  simp only [Autonomi.fetchChunkFrom, stateT_bind_eq_ok, stateT_get_eq_ok, stateT_set_eq_ok,
    stateT_lift_eq_ok] at hfetch
  obtain ⟨_, _, ⟨rfl, rfl⟩, _, _, rfl, body, _, ⟨-, rfl⟩, hfetch⟩ := hfetch
  obtain (⟨addr, content⟩ | _ | _) | _ := body
  · dsimp only at hfetch
    split_ifs at hfetch with haddr hhash
    · cases hfetch
    · cases hfetch
    · simp only [not_not] at haddr hhash
      cases hfetch
      exact h.put (hhash.trans haddr)
  · cases hfetch
    exact h
  · cases hfetch
  · cases hfetch

/-- **The cache stays genuine**, whatever the node answers: what is found is not removed. -/
theorem Cached.chunkGet (h : Cached P client)
    (hget : chunkGet P node address client = .ok (found, client')) : Cached P client' := by
  simp only [Autonomi.chunkGet, stateT_bind_eq_ok, stateT_get_eq_ok] at hget
  obtain ⟨_, _, ⟨rfl, rfl⟩, hget⟩ := hget
  rcases hfind : client.cache.find? fun e => e.1 = address with _ | ⟨a, cached⟩
  · rw [hfind] at hget
    exact h.fetchChunkFrom hget
  · simp only [hfind] at hget
    split_ifs at hget with hhash
    · cases hget
      exact h.put hhash
    · have hkey : a = address := by simpa using List.find?_some hfind
      exact absurd ((h _ (List.mem_of_find?_eq_some hfind)).trans hkey) hhash

theorem fetchChunkFrom_eq_ok
    (h : fetchChunkFrom P (honestNode P stored) address client = .ok (some chunk, client')) :
    chunk.content ∈ stored ∧ computeAddress P chunk.content = address := by
  simp only [fetchChunkFrom, stateT_bind_eq_ok, stateT_get_eq_ok, stateT_set_eq_ok,
    stateT_lift_eq_ok] at h
  obtain ⟨_, _, ⟨rfl, rfl⟩, _, _, rfl, body, _, ⟨hnode, rfl⟩, h⟩ := h
  rw [honestNode] at hnode
  rcases hc : chunkMapOf P (stored.map EncryptedChunk.mk) address with _ | c
  · rw [hc] at hnode
    cases hnode
    cases (stateT_pure_eq_ok.1 h).1
  · rw [hc] at hnode
    cases hnode
    obtain ⟨hmem, hhash⟩ := mem_of_chunkMapOf hc
    obtain ⟨d, hd, rfl⟩ := List.mem_map.1 hmem
    have hhash : computeAddress P d = address := hhash
    simp only [hhash, ne_eq, not_true_eq_false, if_false, stateT_bind_eq_ok,
      stateT_pure_eq_ok] at h
    obtain ⟨_, _, -, he, -⟩ := h
    cases he
    exact ⟨hd, hhash⟩

/-- A chunk comes from the network, with the hash that was asked for. -/
theorem chunkGet_eq_ok (hcache : ∀ e ∈ client.cache, e.2 ∈ stored)
    (h : chunkGet P (honestNode P stored) address client = .ok (some chunk, client')) :
    chunk.content ∈ stored ∧ computeAddress P chunk.content = address := by
  simp only [chunkGet, stateT_bind_eq_ok, stateT_get_eq_ok] at h
  obtain ⟨_, _, ⟨rfl, rfl⟩, h⟩ := h
  rcases hfind : client.cache.find? fun e => e.1 = address with _ | ⟨a, cached⟩
  · rw [hfind] at h
    exact fetchChunkFrom_eq_ok h
  · simp only [hfind] at h
    split_ifs at h with hhash
    · simp only [stateT_bind_eq_ok, stateT_pure_eq_ok] at h
      obtain ⟨_, _, -, he, -⟩ := h
      cases he
      exact ⟨hcache _ (List.mem_of_find?_eq_some hfind), hhash⟩
    · simp only [stateT_bind_eq_ok] at h
      obtain ⟨_, _, -, h⟩ := h
      exact fetchChunkFrom_eq_ok h

/-- **The browser never downloads a published map**: whatever was uploaded, its map is
    published in a form that the browser does not read. -/
theorem downloadFromAddress_published {m fuel : ℕ} {content : Bytes} {map : DataMap}
    (_ : Uploads P m S fuel content map stored)
    (hpub : dataMapStore P S map stored = .ok (address, stored'))
    (hcf : CollisionFree P (stored'.map EncryptedChunk.mk))
    (hcache : ∀ e ∈ client.cache, e.2 ∈ stored') :
    ∃ e, downloadFromAddress P (honestNode P stored') address client = .error e := by
  obtain ⟨rfl, rfl⟩ := chunkPut_eq_ok hpub
  refine stateT_bind_eq_error fun found s₁ hget => stateT_bind_eq_error fun chunk s₂ hlift => ?_
  obtain ⟨hsome, rfl⟩ := stateT_lift_eq_ok.1 hlift
  obtain rfl := okOr_eq_ok.1 hsome
  obtain ⟨hmem, hhash⟩ := chunkGet_eq_ok hcache hget
  have heq := hcf ⟨chunk.content⟩ (List.mem_map_of_mem hmem) ⟨map.toMsgpack⟩
    (List.mem_map_of_mem (by simp)) hhash
  obtain ⟨e, he⟩ := fromBytes_toMsgpack map
  rw [EncryptedChunk.mk.inj heq, he]
  exact ⟨_, rfl⟩

theorem dataMapStore_free (stored : List Bytes) (map : DataMap) :
    dataMapStore clear freeServices map stored =
      .ok (computeAddress clear map.toMsgpack, stored ++ [map.toMsgpack]) := rfl

theorem downloadFromAddress_300 : ∃ map stored address stored',
    Uploads clear 110 freeServices 1 (List.replicate 300 7) map stored ∧
    dataMapStore clear freeServices map stored = .ok (address, stored') ∧
    ∃ e, downloadFromAddress clear (honestNode clear stored') address .new = .error e := by
  obtain ⟨⟨r, stored⟩, hup, hcf⟩ := Run.of_okWith
    (x := dataUpload clear 110 freeServices 1 (List.replicate 300 7))
    (p := fun r => decide (CollisionFree clear ((r.2 ++ [r.1.dataMap.toMsgpack]).map
      EncryptedChunk.mk))) (by decide +kernel)
  exact ⟨r.dataMap, stored, _, _, .upload hup, dataMapStore_free _ _,
    downloadFromAddress_published (.upload hup) (dataMapStore_free _ _) (of_decide_eq_true hcf)
      nofun⟩

/-- A file of three chunks: nothing was shrunk, and all chunks of the map are there. -/
theorem not_downloadFromAddress : ∃ map stored address stored',
    Uploads clear 110 freeServices 1 (List.replicate 300 7) map stored ∧
    dataMapStore clear freeServices map stored = .ok (address, stored') ∧
    ∀ client', downloadFromAddress clear (honestNode clear stored') address .new ≠
      .ok (List.replicate 300 7, client') := by
  obtain ⟨⟨r, stored⟩, hup, hne⟩ := Run.of_okWith
    (x := dataUpload clear 110 freeServices 1 (List.replicate 300 7))
    (p := fun r => (downloadFromAddress clear
      (honestNode clear (r.2 ++ [r.1.dataMap.toMsgpack]))
      (computeAddress clear r.1.dataMap.toMsgpack) .new).toOption.isNone) (by decide +kernel)
  refine ⟨r.dataMap, stored, _, _, .upload hup, dataMapStore_free _ _, fun client' h => ?_⟩
  rw [h] at hne; cases hne

end Autonomi
