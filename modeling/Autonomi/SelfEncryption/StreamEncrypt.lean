/-
  Encryption of a file that comes in pieces
  (`self_encryption/src/stream_encrypt.rs`).

  The input iterator is the list of its remaining pieces.  `fuel` is that of
  `shrink_data_map`.
-/
import Autonomi.Lib.Act
import Autonomi.SelfEncryption.Levels

namespace Autonomi

open Lib

inductive ChunkOrDataMap where
  | chunk (chunk : EncryptedChunk)
  | dataMap (map : DataMap)

structure EncryptionStream where
  dataIter : List Bytes
  dataSize : ℕ
  buffer : Bytes
  chunksProcessed : ℕ
  totalChunks : ℕ
  srcHashes : List (Option XorName)
  deferredChunks : List (Option Bytes)
  chunkInfos : List (Option ChunkInfo)
  inputComplete : Bool
  isComplete : Bool
  finalDatamap : Option DataMap
  shrinkingChunks : List EncryptedChunk
  shrinkingChunkIndex : ℕ

variable (P : Primitives) (m : ℕ)

namespace EncryptionStream

def new (dataSize : ℕ) (dataIter : List Bytes) : Except Error EncryptionStream :=
  if dataSize < minEncryptableBytes then
    .error (.generic
      s!"File too small for self-encryption! Required size at least {minEncryptableBytes}")
  else
    let totalChunks := getNumChunks m dataSize
    if totalChunks < 3 then
      .error (.generic "File must be large enough to generate at least 3 chunks")
    else .ok {
      dataIter := dataIter
      dataSize := dataSize
      buffer := []
      chunksProcessed := 0
      totalChunks := totalChunks
      srcHashes := List.replicate totalChunks none
      deferredChunks := [none, none]
      chunkInfos := List.replicate totalChunks none
      inputComplete := false
      isComplete := false
      finalDatamap := none
      shrinkingChunks := []
      shrinkingChunkIndex := 0 }

def datamap (s : EncryptionStream) : Option DataMap := s.finalDatamap

/-- How many bytes have been processed. -/
def getProcessedBytes (s : EncryptionStream) : ℕ :=
  ((List.range s.chunksProcessed).map fun i =>
    (getStartEndPositions m s.dataSize i).2 - (getStartEndPositions m s.dataSize i).1).sum

def hasSrcHash (s : EncryptionStream) (i : ℕ) : Bool := (s.srcHashes[i]?.join).isSome

def canEncryptChunk (s : EncryptionStream) (chunkIndex : ℕ) : Bool :=
  if chunkIndex < 2 then s.srcHashes.all Option.isSome
  else match getN1N2 chunkIndex s.totalChunks with
    | .error _ => false
    | .ok (n1, n2) => s.hasSrcHash chunkIndex && s.hasSrcHash n1 && s.hasSrcHash n2

/-- The known source hashes, and the hash of no bytes for the others. -/
def knownHashes (s : EncryptionStream) : List XorName :=
  (List.range s.totalChunks).map fun i => (s.srcHashes[i]?.join).getD (contentHash P [])

def setDstHash (s : EncryptionStream) (chunkIndex : ℕ) (dstHash : XorName) : EncryptionStream :=
  { s with chunkInfos := s.chunkInfos.modify chunkIndex fun info =>
      info.map fun info => { info with dstHash := dstHash } }

end EncryptionStream

abbrev Stream (α : Type) := Act EncryptionStream Error α

open EncryptionStream

/-- `encrypt_chunk` of the stream; what is encrypted here is of level 0. -/
def streamEncryptChunk (hashes : List XorName) (chunkIndex : ℕ) (chunkData : Bytes) :
    Stream EncryptedChunk := do
  let encryptedContent ← Act.ofExcept (do
    let pki ← getPadKeyAndNonce P chunkIndex hashes 0
    encryptChunk P chunkData pki)
  modify fun s => s.setDstHash chunkIndex (contentHash P encryptedContent)
  pure ⟨encryptedContent⟩

/-- The hash and the info of a chunk are entered as soon as it is read. -/
def recordChunk (chunkIndex : ℕ) (chunkData : Bytes) : Stream Unit := do
  let s ← get
  let srcHash := contentHash P chunkData
  if s.srcHashes.length ≤ chunkIndex then
    throw (.generic s!"chunk index {chunkIndex} out of bounds for src_hashes")
  else do
    set { s with srcHashes := s.srcHashes.set chunkIndex (some srcHash) }
    if s.chunkInfos.length ≤ chunkIndex then
      throw (.generic s!"chunk index {chunkIndex} out of bounds for chunk_infos")
    else
      -- the second hash is filled in when the chunk is encrypted
      let info : ChunkInfo := ⟨chunkIndex, contentHash P [], srcHash, chunkData.length⟩
      modify fun s => { s with chunkInfos := s.chunkInfos.set chunkIndex (some info) }

def deferChunk (chunkIndex : ℕ) (chunkData : Bytes) : Stream Unit := do
  let s ← get
  if s.deferredChunks.length ≤ chunkIndex then
    throw (.generic s!"chunk index {chunkIndex} out of bounds for deferred_chunks")
  else set { s with deferredChunks := s.deferredChunks.set chunkIndex (some chunkData) }

/-- The chunk is done, and its bytes leave the buffer. -/
def EncryptionStream.advance (bufferStart size : ℕ) (s : EncryptionStream) : EncryptionStream :=
  { s with
    chunksProcessed := s.chunksProcessed + 1
    buffer := s.buffer.take bufferStart ++ s.buffer.drop (bufferStart + size) }

/-- How one turn of the loop of `try_process_chunks` ends. -/
inductive Turn where
  | next
  | stop
  | yield (chunk : EncryptedChunk)

def processChunkData (bufferStart chunkIndex : ℕ) (chunkData : Bytes) : Stream Turn := do
  recordChunk P chunkIndex chunkData
  let s ← get
  if chunkIndex < 2 then do
    deferChunk chunkIndex chunkData
    modify (advance bufferStart chunkData.length)
    pure .next
  else if s.canEncryptChunk chunkIndex then do
    let encryptedChunk ← streamEncryptChunk P (s.knownHashes P) chunkIndex chunkData
    modify (advance bufferStart chunkData.length)
    pure (.yield encryptedChunk)
  else do
    modify (advance bufferStart chunkData.length)
    pure .next

def processTurn : Stream Turn := do
  let s ← get
  let chunkIndex := s.chunksProcessed
  let pos := getStartEndPositions m s.dataSize chunkIndex
  let chunkSize := pos.2 - pos.1
  let bufferStart := pos.1 - s.getProcessedBytes m
  if bufferStart + chunkSize ≤ s.buffer.length ∨ s.inputComplete then
    let actualChunkSize := if s.inputComplete then min chunkSize (s.buffer.length - bufferStart)
      else chunkSize
    if actualChunkSize = 0 then pure .stop
    else if bufferStart + actualChunkSize ≤ s.buffer.length then
      processChunkData P bufferStart chunkIndex
        (slice s.buffer bufferStart (bufferStart + actualChunkSize))
    else pure .stop
  else pure .stop

/-- The loop, which turns at most once for each chunk that is left. -/
def processLoop : ℕ → Stream (Option EncryptedChunk)
  | 0 => pure none
  | turns + 1 => do
    let s ← get
    if s.chunksProcessed < s.totalChunks then do
      match ← processTurn P m with
      | .next => processLoop turns
      | .stop => pure none
      | .yield chunk => pure (some chunk)
    else pure none

/-- A deferred chunk is taken out, encrypted with all hashes, and yielded. -/
def encryptDeferred (srcHashes : List XorName) (chunkIndex : ℕ) : Stream (Option EncryptedChunk) := do
  let s ← get
  match s.deferredChunks[chunkIndex]?.join with
  | none => pure none
  | some chunkData => do
    set { s with deferredChunks := s.deferredChunks.set chunkIndex none }
    let chunk ← streamEncryptChunk P srcHashes chunkIndex chunkData
    pure (some chunk)

def allSrcHashes (s : EncryptionStream) : Except Error (List XorName) :=
  s.srcHashes.zipIdx.mapM fun h => okOr (.generic s!"Missing source hash for chunk {h.2}") h.1

def allChunkInfos (s : EncryptionStream) : Except Error (List ChunkInfo) :=
  s.chunkInfos.mapM fun info => okOr (.generic "Missing chunk info") info

/-- The end of `finalize_encryption`, after the deferred chunks. -/
def finalizeDataMap (fuel : ℕ) : Stream ChunkOrDataMap := do
  let s ← get
  let finalChunkInfos ← Act.ofExcept (allChunkInfos s)
  let dataMap := DataMap.new (sortByIndex finalChunkInfos)
  let shrunk ← Act.ofRun (shrinkDataMap P m fuel () dataMap fun _ _ _ => .ok ())
  modify fun s => { s with shrinkingChunks := shrunk.2.2, finalDatamap := some shrunk.2.1 }
  let s ← get
  match s.shrinkingChunks[s.shrinkingChunkIndex]? with
  | some chunk => do
    set { s with shrinkingChunkIndex := s.shrinkingChunkIndex + 1 }
    pure (.chunk chunk)
  | none => do
    set { s with isComplete := true }
    pure (.dataMap shrunk.2.1)

def finalizeEncryption (fuel : ℕ) : Stream (Option ChunkOrDataMap) := do
  let s ← get
  if s.isComplete then pure none
  else do
    let srcHashes ← Act.ofExcept (allSrcHashes s)
    match ← encryptDeferred P srcHashes 0 with
    | some chunk => pure (some (.chunk chunk))
    | none => match ← encryptDeferred P srcHashes 1 with
      | some chunk => pure (some (.chunk chunk))
      | none => do
        let r ← finalizeDataMap P m fuel
        pure (some r)

def tryProcessChunks (fuel : ℕ) : Stream (Option ChunkOrDataMap) := do
  let s ← get
  match ← processLoop P m (s.totalChunks - s.chunksProcessed) with
  | some chunk => pure (some (.chunk chunk))
  | none => do
    let s ← get
    if s.inputComplete ∧ s.totalChunks ≤ s.chunksProcessed then finalizeEncryption P m fuel
    else pure none

/-- The loop of `next_internal`, which turns at most once for each piece that is left and once
    for the end of the input. -/
def nextLoop (fuel : ℕ) : ℕ → Stream (Option ChunkOrDataMap)
  | 0 => pure none
  | turns + 1 => do
    let s ← get
    match s.shrinkingChunks[s.shrinkingChunkIndex]? with
    | some chunk => do
      set { s with
        shrinkingChunkIndex := s.shrinkingChunkIndex + 1
        isComplete := s.isComplete || s.shrinkingChunks.length ≤ s.shrinkingChunkIndex + 1 }
      pure (some (.chunk chunk))
    | none =>
      if s.isComplete then pure (s.finalDatamap.map ChunkOrDataMap.dataMap)
      else do
        match ← tryProcessChunks P m fuel with
        | some result => pure (some result)
        | none => do
          let s ← get
          if s.inputComplete then pure none
          else match s.dataIter with
            | data :: dataIter => do
              set { s with dataIter := dataIter, buffer := s.buffer ++ data }
              match ← tryProcessChunks P m fuel with
              | some result => pure (some result)
              | none => nextLoop fuel turns
            | [] => do
              set { s with inputComplete := true }
              tryProcessChunks P m fuel

def nextInternal (fuel : ℕ) : Stream (Option ChunkOrDataMap) := do
  let s ← get
  nextLoop P m fuel (s.dataIter.length + 1)

/-- `ChunkStream::next`. -/
def chunksNext (fuel : ℕ) : Next EncryptionStream (Except Error (XorName × Bytes)) := fun s => do
  let (r, s) ← nextInternal P m fuel s
  match r with
  | .ok (some (.chunk chunk)) => pure (some (.ok (contentHash P chunk.content, chunk.content)), s)
  | .ok (some (.dataMap map)) => pure (none, { s with finalDatamap := some map })
  | .ok none => pure (none, s)
  | .error e => pure (some (.error e), s)

def streamEncrypt (dataSize : ℕ) (dataIter : List Bytes) : Except Error EncryptionStream :=
  EncryptionStream.new m dataSize dataIter

/-! ## What follows a call -/

/-- How the loop goes on after a turn. -/
def afterTurn (next : Stream (Option EncryptedChunk)) : Turn → Stream (Option EncryptedChunk)
  | .next => next
  | .stop => pure none
  | .yield chunk => pure (some chunk)

/-- A chunk is yielded; without one the call goes on. -/
def chunkOr (next : Stream (Option ChunkOrDataMap)) :
    Option EncryptedChunk → Stream (Option ChunkOrDataMap)
  | some chunk => pure (some (.chunk chunk))
  | none => next

def resultOr (next : Stream (Option ChunkOrDataMap)) :
    Option ChunkOrDataMap → Stream (Option ChunkOrDataMap)
  | some result => pure (some result)
  | none => next

/-- The rest of a turn of `next_internal`, with nothing to yield yet. -/
def nextPiece (fuel turns : ℕ) : Stream (Option ChunkOrDataMap) := do
  let s ← get
  if s.inputComplete then pure none
  else match s.dataIter with
    | data :: dataIter => do
      set { s with dataIter := dataIter, buffer := s.buffer ++ data }
      tryProcessChunks P m fuel >>= resultOr (nextLoop P m fuel turns)
    | [] => do
      set { s with inputComplete := true }
      tryProcessChunks P m fuel

theorem processLoop_succ (turns : ℕ) (s : EncryptionStream) :
    processLoop P m (turns + 1) s =
      (if s.chunksProcessed < s.totalChunks then
        processTurn P m >>= afterTurn (processLoop P m turns)
      else pure none) s := rfl

theorem tryProcessChunks_eq (fuel : ℕ) (s : EncryptionStream) :
    tryProcessChunks P m fuel s =
      (processLoop P m (s.totalChunks - s.chunksProcessed) >>= chunkOr (do
        let s ← get
        if s.inputComplete ∧ s.totalChunks ≤ s.chunksProcessed then finalizeEncryption P m fuel
        else pure none)) s := rfl

theorem finalizeEncryption_eq (fuel : ℕ) {s : EncryptionStream} {hashes : List XorName}
    (hs : s.isComplete = false) (hok : allSrcHashes s = .ok hashes) :
    finalizeEncryption P m fuel s =
      (encryptDeferred P hashes 0 >>= chunkOr (encryptDeferred P hashes 1 >>= chunkOr (do
        let r ← finalizeDataMap P m fuel
        pure (some r)))) s := by
  have hsrc : (Act.ofExcept (allSrcHashes s) : Stream _) s = some (.ok hashes, s) :=
    congrArg (fun r => some (r, s)) hok
  simp only [finalizeEncryption, Act.get_bind, hs, Bool.false_eq_true, if_false]
  exact Act.bind_of_ok hsrc

theorem nextLoop_succ (fuel turns : ℕ) {s : EncryptionStream}
    (hchunks : s.shrinkingChunks[s.shrinkingChunkIndex]? = none) (hs : s.isComplete = false) :
    nextLoop P m fuel (turns + 1) s =
      (tryProcessChunks P m fuel >>= resultOr (nextPiece P m fuel turns)) s := by
  simp only [nextLoop, Act.get_bind, hchunks, hs, Bool.false_eq_true, if_false]
  rfl

end Autonomi
