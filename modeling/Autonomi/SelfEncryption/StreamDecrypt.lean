/-
  Decryption chunk by chunk, and of a range of the file
  (`self_encryption/src/stream_decrypt.rs`, and `get_root_data_map_parallel`
  of `lib.rs`).

  The callback may answer each call differently; `calls` counts them.  `B` is
  `STREAM_DECRYPT_BATCH_SIZE`.
-/
import Autonomi.Lib.Act
import Autonomi.SelfEncryption.Decrypt

namespace Autonomi

open Lib

/-- `get_chunk_parallel`: the answer to the `n`th call. -/
abbrev Fetch := ℕ → List (ℕ × XorName) → Except Error (List (ℕ × Bytes))

/-- What is asked for a chunk. -/
def ChunkInfo.request (info : ChunkInfo) : ℕ × XorName := (info.index, info.dstHash)

variable (P : Primitives) (B : ℕ) (fetch : Fetch)

/-! ## The root map -/

/-- The cache after the chunks of a child map have been asked for.  The answers are paired
    with the requests by position. -/
def fetchMissing (dataMap : DataMap) (chunkCache : Lookup XorName Bytes) :
    StateT ℕ (Except Error) (Lookup XorName Bytes) := do
  let missingHashes := (dataMap.infos.map ChunkInfo.request).filter fun request =>
    (chunkCache request.2).isNone
  if missingHashes = [] then pure chunkCache
  else do
    let calls ← get
    set (calls + 1)
    let newChunks ← (fetch calls missingHashes : Except Error (List (ℕ × Bytes)))
    pure ((missingHashes.zip newChunks).foldl (fun cache e => cache.insert e.1.2 e.2.2) chunkCache)

def cachedChunks (dataMap : DataMap) (chunkCache : Lookup XorName Bytes) :
    Except Error (List EncryptedChunk) :=
  dataMap.infos.mapM fun info => do
    let content ← okOr (.generic s!"Chunk not found for hash: {P.debugName info.dstHash}")
      (chunkCache info.dstHash)
    pure ⟨content⟩

/-- The first argument counts down from `101` to the depth limit. -/
def innerGetRootMapParallel : ℕ → Lookup XorName Bytes → DataMap → StateT ℕ (Except Error) DataMap
  | 0, _, _ => throw (.generic "Maximum data map recursion depth exceeded")
  | depth + 1, chunkCache, dataMap =>
    if ¬ dataMap.isChild then pure dataMap
    else do
      let chunkCache ← fetchMissing fetch dataMap chunkCache
      let encryptedChunks ← (cachedChunks P dataMap chunkCache : Except Error _)
      let decryptedBytes ← (decryptFullSet P dataMap encryptedChunks : Except Error Bytes)
      let parent ← (parentDataMap decryptedBytes : Except Error DataMap)
      innerGetRootMapParallel depth chunkCache parent

def getRootDataMapParallel (dataMap : DataMap) : StateT ℕ (Except Error) DataMap :=
  innerGetRootMapParallel P fetch 101 .empty dataMap

/-! ## The stream -/

structure DecryptionStream where
  chunkInfos : List ChunkInfo
  srcHashes : List XorName
  childLevel : ℕ
  calls : ℕ
  currentBatchStart : ℕ
  currentBatchChunks : List Bytes
  currentBatchIndex : ℕ

namespace DecryptionStream

def new (dataMap : DataMap) : Except Error DecryptionStream := do
  let (rootMap, calls) ← if dataMap.isChild then getRootDataMapParallel P fetch dataMap 0
    else pure (dataMap, 0)
  pure {
    chunkInfos := sortByIndex rootMap.infos
    srcHashes := extractHashes rootMap
    childLevel := rootMap.child.getD 0
    calls := calls
    currentBatchStart := 0
    currentBatchChunks := []
    currentBatchIndex := 0 }

def fileSize (s : DecryptionStream) : ℕ :=
  s.chunkInfos.foldl (fun acc chunk => acc + chunk.srcSize) 0

/-- The starting byte position of a chunk. -/
def getChunkStartPosition (s : DecryptionStream) (chunkIndex : ℕ) : ℕ :=
  (s.chunkInfos.filter fun info => info.index < chunkIndex).foldl
    (fun acc chunk => acc + chunk.srcSize) 0

def findPosition (position : ℕ) : ℕ → List ChunkInfo → Option ℕ
  | _, [] => none
  | accumulatedSize, info :: infos =>
    if accumulatedSize ≤ position ∧ position < accumulatedSize + info.srcSize then some info.index
    else findPosition position (accumulatedSize + info.srcSize) infos

/-- The chunk that contains the position, or else the last one. -/
def getChunkIndexFromInfos (s : DecryptionStream) (position : ℕ) : ℕ :=
  match findPosition position 0 s.chunkInfos with
  | some index => index
  | none => (s.chunkInfos.getLast?.map ChunkInfo.index).getD 0

/-- What is asked for the chunks of a range. -/
def requiredHashes (s : DecryptionStream) (startChunk endChunk : ℕ) : List (ℕ × XorName) :=
  ((s.chunkInfos.filter fun info => startChunk ≤ info.index ∧ info.index ≤ endChunk).map
    ChunkInfo.request).insertionSort fun a b => a.1 ≤ b.1

end DecryptionStream

abbrev Decryption (α : Type) := Act DecryptionStream Error α

open DecryptionStream

def callback (requests : List (ℕ × XorName)) : Decryption (List (ℕ × Bytes)) := do
  let s ← get
  set { s with calls := s.calls + 1 }
  Act.ofExcept (fetch s.calls requests)

/-- `sort_by_key` on the index, which is stable. -/
def sortFetched (fetched : List (ℕ × Bytes)) : List (ℕ × Bytes) :=
  fetched.insertionSort fun a b => a.1 ≤ b.1

/-- The chunks of a batch are decrypted one by one. -/
def decryptBatch : List (ChunkInfo × (ℕ × Bytes)) → Decryption Unit
  | [] => pure ()
  | (info, (_, encryptedContent)) :: batch => do
    let s ← get
    let decryptedChunk ← Act.ofExcept
      (decryptChunk P info.index encryptedContent s.srcHashes s.childLevel)
    set { s with currentBatchChunks := s.currentBatchChunks ++ [decryptedChunk] }
    decryptBatch batch

def batchRange (chunkInfos : List ChunkInfo) (start batchEnd : ℕ) :
    Except Error (List ChunkInfo) :=
  if start ≤ batchEnd ∧ batchEnd ≤ chunkInfos.length then .ok (slice chunkInfos start batchEnd)
  else .error (.generic
    s!"batch range {start}..{batchEnd} out of bounds for chunk_infos (len {chunkInfos.length})")

/-- Is there another batch?  Infos and answers are paired by position. -/
def fetchNextBatch : Decryption Bool := do
  let s ← get
  if s.chunkInfos.length ≤ s.currentBatchStart then pure false
  else do
    let batchEnd := min (s.currentBatchStart + B) s.chunkInfos.length
    let batchInfos ← Act.ofExcept (batchRange s.chunkInfos s.currentBatchStart batchEnd)
    let fetchedChunks ← callback fetch (batchInfos.map ChunkInfo.request)
    modify fun s => { s with currentBatchChunks := [] }
    decryptBatch P (batchInfos.zip (sortFetched fetchedChunks))
    modify fun s => { s with currentBatchStart := batchEnd, currentBatchIndex := 0 }
    pure true

/-- The next chunk of the current batch. -/
def nextOfBatch (s : DecryptionStream) : Option (Except Error Bytes) × DecryptionStream :=
  match s.currentBatchChunks[s.currentBatchIndex]? with
  | some chunk => (some (.ok chunk), { s with currentBatchIndex := s.currentBatchIndex + 1 })
  | none => (none, s)

/-- `DecryptionStream::next`. -/
def decryptionNext : Next DecryptionStream (Except Error Bytes) := fun s =>
  if s.currentBatchChunks.length ≤ s.currentBatchIndex then do
    let (r, s) ← fetchNextBatch P B fetch s
    match r with
    | .ok hasMore => pure (if hasMore then nextOfBatch s else (none, s))
    | .error e => pure (some (.error e), s)
  else pure (nextOfBatch s)

/-! ## Random access -/

/-- A chunk is decrypted and put at the end, if it was returned. -/
def appendPresent (s : DecryptionStream) (chunkMap : Lookup ℕ Bytes) (allBytes : Bytes)
    (chunkIndex : ℕ) : Except Error Bytes :=
  match chunkMap chunkIndex with
  | some encryptedContent => do
    let decrypted ← decryptChunk P chunkIndex encryptedContent s.srcHashes s.childLevel
    pure (allBytes ++ decrypted)
  | none => pure allBytes

def decryptPresent (s : DecryptionStream) (chunkMap : Lookup ℕ Bytes) (chunkIndices : List ℕ) :
    Except Error Bytes :=
  chunkIndices.foldlM (appendPresent P s chunkMap) []

/-- The range within the decrypted bytes. -/
def extractRange (bytes : Bytes) (internalOffset actualLen : ℕ) : Bytes :=
  if bytes.length ≤ internalOffset then []
  else
    let availableLen := bytes.length - internalOffset
    slice bytes internalOffset (internalOffset + min actualLen availableLen)

def getRange (start len : ℕ) : Decryption Bytes := do
  let s ← get
  if s.fileSize ≤ start then pure []
  else do
    let endPos := min (start + len) s.fileSize
    let actualLen := endPos - start
    if actualLen = 0 then pure []
    else do
      let startChunk := s.getChunkIndexFromInfos start
      let endChunk := s.getChunkIndexFromInfos (endPos - 1)
      let fetchedChunks ← callback fetch (s.requiredHashes startChunk endChunk)
      let bytes ← Act.ofExcept (decryptPresent P s (.ofList fetchedChunks)
        (List.range' startChunk (endChunk + 1 - startChunk)))
      pure (extractRange bytes (start - s.getChunkStartPosition startChunk) actualLen)

def streamingDecrypt (dataMap : DataMap) : Except Error DecryptionStream :=
  DecryptionStream.new P fetch dataMap

end Autonomi
