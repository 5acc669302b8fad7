/-
  Every call of `encrypt_chunk` in `encrypt`, `shrink_data_map` and
  `stream_encrypt`.

  The functions of `Logged` are those of the other modules, with a record of
  each such call; without the record they are the same (`erase`).
-/
import Autonomi.Lib.Traced
import Autonomi.SelfEncryption.StreamEncrypt

namespace Autonomi

open Lib Traced

/-- A call of `encrypt_chunk`, and what its keys are derived from; index and
    level as the `u64` that goes into the derivation. -/
structure Encryption where
  srcHash : XorName
  n1SrcHash : XorName
  n2SrcHash : XorName
  chunkIndex : UInt64
  childLevel : UInt64
  content : Bytes
  pki : Pki

abbrev Logged (σ α : Type) := Traced Encryption σ Error α

namespace Encryption

variable (P : Primitives)

/-- The material that the keys of the call are derived from. -/
def context (e : Encryption) : Bytes :=
  contextMaterial e.srcHash e.n1SrcHash e.n2SrcHash e.chunkIndex.toNat e.childLevel.toNat

/-- The keys are derived from the hash of the bytes that are encrypted. -/
structure Own (e : Encryption) : Prop where
  srcHash : e.srcHash = contentHash P e.content
  pki : e.pki = cutOutput (P.deriveKey e.context)

end Encryption

namespace Logged

variable (P : Primitives) (m : ℕ)

/-! ## `encrypt` -/

section Batch

variable {σ : Type}

/-- `get_pad_key_and_nonce`, then `encrypt_chunk`. -/
def encryptChunk (chunkIndex : ℕ) (chunkHashes : List XorName) (childLevel : ℕ) (content : Bytes) :
    Logged σ Bytes := do
  let (n1, n2) ← ofExcept (getN1N2 chunkIndex chunkHashes.length)
  let srcHash ← ofExcept (okOr (.generic s!"chunk_index {chunkIndex} out of bounds")
    chunkHashes[chunkIndex]?)
  let n1SrcHash ← ofExcept (okOr (.generic s!"n_1 index {n1} out of bounds") chunkHashes[n1]?)
  let n2SrcHash ← ofExcept (okOr (.generic s!"n_2 index {n2} out of bounds") chunkHashes[n2]?)
  let pki := getPki P srcHash n1SrcHash n2SrcHash chunkIndex childLevel
  emit ⟨srcHash, n1SrcHash, n2SrcHash, .ofNat chunkIndex, .ofNat childLevel, content, pki⟩
  ofExcept (Autonomi.encryptChunk P content pki)

def processChunk (bytes : Bytes) (childLevel : ℕ) (s : Pass) (chunkIndex : ℕ) : Logged σ Pass :=
  let pos := getStartEndPositions m bytes.length chunkIndex
  let chunkData := slice bytes pos.1 pos.2
  let srcHash := contentHash P chunkData
  let srcHashes := s.srcHashes ++ [srcHash]
  if chunkIndex < 2 then
    pure { s with
      srcHashes := srcHashes
      firstChunks := s.firstChunks ++ [(chunkIndex, chunkData, srcHash, pos.2 - pos.1)] }
  else do
    let encryptedContent ← encryptChunk P chunkIndex srcHashes childLevel chunkData
    let dstHash := contentHash P encryptedContent
    pure { s with
      srcHashes := srcHashes
      encryptedChunks := s.encryptedChunks ++ [⟨encryptedContent⟩]
      chunkInfos := s.chunkInfos ++ [⟨chunkIndex, dstHash, srcHash, pos.2 - pos.1⟩] }

def processFirstChunk (childLevel : ℕ) (s : Pass) (first : ℕ × Bytes × XorName × ℕ) :
    Logged σ Pass := do
  let (chunkIndex, chunkData, srcHash, srcSize) := first
  let encryptedContent ← encryptChunk P chunkIndex s.srcHashes childLevel chunkData
  let dstHash := contentHash P encryptedContent
  pure { s with
    encryptedChunks := s.encryptedChunks.insertIdx chunkIndex ⟨encryptedContent⟩
    chunkInfos := s.chunkInfos.insertIdx chunkIndex ⟨chunkIndex, dstHash, srcHash, srcSize⟩ }

def encryptAll (bytes : Bytes) (childLevel : ℕ) : Logged σ Pass := do
  let s ← (List.range (getNumChunks m bytes.length)).foldlM (processChunk P m bytes childLevel)
    ⟨[], [], [], []⟩
  s.firstChunks.foldlM (processFirstChunk P childLevel) s

def shrinkLoop {τ : Type} (enc : Bytes → ℕ → Logged σ (DataMap × List EncryptedChunk))
    (storeChunk : τ → XorName → Bytes → Except Error τ) :
    ℕ → τ → DataMap → List EncryptedChunk → Logged σ (τ × DataMap × List EncryptedChunk)
  | 0, _, _, _ => ofRun none
  | fuel + 1, s, dataMap, allChunks =>
    if 3 < dataMap.len then do
      let nextChildLevel := match dataMap.child with
        | none => 1
        | some c => c + 1
      let bytes ← ofRun (liftM dataMap.toBytes)
      let (newDataMap, encryptedChunks) ← enc bytes nextChildLevel
      let s ← ofExcept (encryptedChunks.foldlM
        (fun s chunk => storeChunk s (contentHash P chunk.content) chunk.content) s)
      shrinkLoop enc storeChunk fuel s (.withChild newDataMap.infos nextChildLevel)
        (allChunks ++ encryptedChunks)
    else pure (s, dataMap, allChunks)

def encryptWithChildLevel : ℕ → Bytes → ℕ → Logged σ (DataMap × List EncryptedChunk)
  | 0, _, _ => ofRun none
  | fuel + 1, bytes, childLevel =>
    if bytes.length < minEncryptableBytes then
      ofExcept (throw (.generic
        s!"Too small for self-encryption! Required size at least {minEncryptableBytes}"))
    else if getNumChunks m bytes.length < 3 then
      ofExcept (throw (.generic "File must be large enough to generate at least 3 chunks"))
    else do
      let s ← encryptAll P m bytes childLevel
      let (encryptedChunks, shrunkDataMap, _) ←
        shrinkLoop P (encryptWithChildLevel fuel)
          (fun chunks _ content => .ok (chunks ++ [⟨content⟩])) (fuel + 2) s.encryptedChunks
          (.new s.chunkInfos) []
      pure (shrunkDataMap, encryptedChunks)

def shrinkDataMap {τ : Type} (fuel : ℕ) (s : τ) (dataMap : DataMap)
    (storeChunk : τ → XorName → Bytes → Except Error τ) :
    Logged σ (τ × DataMap × List EncryptedChunk) :=
  shrinkLoop P (encryptWithChildLevel P m fuel) storeChunk (fuel + 2) s dataMap []

def encrypt (fuel : ℕ) (bytes : Bytes) : Logged σ (DataMap × List EncryptedChunk) :=
  encryptWithChildLevel P m fuel bytes 0

end Batch

/-! ## `stream_encrypt` -/

section Stream

open EncryptionStream

def streamEncryptChunk (hashes : List XorName) (chunkIndex : ℕ) (chunkData : Bytes) :
    Logged EncryptionStream EncryptedChunk := do
  let encryptedContent ← encryptChunk P chunkIndex hashes 0 chunkData
  lift (modify fun s => s.setDstHash chunkIndex (contentHash P encryptedContent))
  pure ⟨encryptedContent⟩

def processChunkData (bufferStart chunkIndex : ℕ) (chunkData : Bytes) :
    Logged EncryptionStream Turn := do
  lift (recordChunk P chunkIndex chunkData)
  let s ← lift get
  if chunkIndex < 2 then do
    lift (deferChunk chunkIndex chunkData)
    lift (modify (advance bufferStart chunkData.length))
    pure .next
  else if s.canEncryptChunk chunkIndex then do
    let encryptedChunk ← streamEncryptChunk P (s.knownHashes P) chunkIndex chunkData
    lift (modify (advance bufferStart chunkData.length))
    pure (.yield encryptedChunk)
  else do
    lift (modify (advance bufferStart chunkData.length))
    pure .next

def processTurn : Logged EncryptionStream Turn := do
  let s ← lift get
  let chunkIndex := s.chunksProcessed
  let pos := getStartEndPositions m s.dataSize chunkIndex
  let chunkSize := pos.2 - pos.1
  let bufferStart := pos.1 - s.getProcessedBytes m
  if bufferStart + chunkSize ≤ s.buffer.length ∨ s.inputComplete then
    let actualChunkSize := if s.inputComplete then min chunkSize (s.buffer.length - bufferStart)
      else chunkSize
    if actualChunkSize = 0 then pure .stop
    else if bufferStart + actualChunkSize ≤ s.buffer.length then
      processChunkData P bufferStart chunkIndex
        (slice s.buffer bufferStart (bufferStart + actualChunkSize))
    else pure .stop
  else pure .stop

def processLoop : ℕ → Logged EncryptionStream (Option EncryptedChunk)
  | 0 => pure none
  | turns + 1 => do
    let s ← lift get
    if s.chunksProcessed < s.totalChunks then do
      match ← processTurn P m with
      | .next => processLoop turns
      | .stop => pure none
      | .yield chunk => pure (some chunk)
    else pure none

def encryptDeferred (srcHashes : List XorName) (chunkIndex : ℕ) :
    Logged EncryptionStream (Option EncryptedChunk) := do
  let s ← lift get
  match s.deferredChunks[chunkIndex]?.join with
  | none => pure none
  | some chunkData => do
    lift (set { s with deferredChunks := s.deferredChunks.set chunkIndex none })
    let chunk ← streamEncryptChunk P srcHashes chunkIndex chunkData
    pure (some chunk)

def finalizeDataMap (fuel : ℕ) : Logged EncryptionStream ChunkOrDataMap := do
  let s ← lift get
  let finalChunkInfos ← ofExcept (allChunkInfos s)
  let dataMap := DataMap.new (sortByIndex finalChunkInfos)
  let shrunk ← shrinkDataMap P m fuel () dataMap fun _ _ _ => .ok ()
  lift (modify fun s => { s with shrinkingChunks := shrunk.2.2, finalDatamap := some shrunk.2.1 })
  let s ← lift get
  match s.shrinkingChunks[s.shrinkingChunkIndex]? with
  | some chunk => do
    lift (set { s with shrinkingChunkIndex := s.shrinkingChunkIndex + 1 })
    pure (.chunk chunk)
  | none => do
    lift (set { s with isComplete := true })
    pure (.dataMap shrunk.2.1)

def finalizeEncryption (fuel : ℕ) : Logged EncryptionStream (Option ChunkOrDataMap) := do
  let s ← lift get
  if s.isComplete then pure none
  else do
    let srcHashes ← ofExcept (allSrcHashes s)
    match ← encryptDeferred P srcHashes 0 with
    | some chunk => pure (some (.chunk chunk))
    | none => match ← encryptDeferred P srcHashes 1 with
      | some chunk => pure (some (.chunk chunk))
      | none => do
        let r ← finalizeDataMap P m fuel
        pure (some r)

def tryProcessChunks (fuel : ℕ) : Logged EncryptionStream (Option ChunkOrDataMap) := do
  let s ← lift get
  match ← processLoop P m (s.totalChunks - s.chunksProcessed) with
  | some chunk => pure (some (.chunk chunk))
  | none => do
    let s ← lift get
    if s.inputComplete ∧ s.totalChunks ≤ s.chunksProcessed then finalizeEncryption P m fuel
    else pure none

def nextLoop (fuel : ℕ) : ℕ → Logged EncryptionStream (Option ChunkOrDataMap)
  | 0 => pure none
  | turns + 1 => do
    let s ← lift get
    match s.shrinkingChunks[s.shrinkingChunkIndex]? with
    | some chunk => do
      lift (set { s with
        shrinkingChunkIndex := s.shrinkingChunkIndex + 1
        isComplete := s.isComplete || s.shrinkingChunks.length ≤ s.shrinkingChunkIndex + 1 })
      pure (some (.chunk chunk))
    | none =>
      if s.isComplete then pure (s.finalDatamap.map ChunkOrDataMap.dataMap)
      else do
        match ← tryProcessChunks P m fuel with
        | some result => pure (some result)
        | none => do
          let s ← lift get
          if s.inputComplete then pure none
          else match s.dataIter with
            | data :: dataIter => do
              lift (set { s with dataIter := dataIter, buffer := s.buffer ++ data })
              match ← tryProcessChunks P m fuel with
              | some result => pure (some result)
              | none => nextLoop fuel turns
            | [] => do
              lift (set { s with inputComplete := true })
              tryProcessChunks P m fuel

def nextInternal (fuel : ℕ) : Logged EncryptionStream (Option ChunkOrDataMap) := do
  let s ← lift get
  nextLoop P m fuel (s.dataIter.length + 1)

/-- What `calls` calls of `next` encrypt, also after one that fails. -/
def encryptions (fuel : ℕ) : ℕ → EncryptionStream → List Encryption
  | 0, _ => []
  | calls + 1, s =>
    (nextInternal P m fuel s).1 ++
      match chunksNext P m fuel s with
      | none => []
      | some (_, s') => encryptions fuel calls s'

end Stream

end Logged

/-! ## Without the record -/

namespace Logged

variable {P : Primitives} {m : ℕ} {σ : Type}

theorem erase_encryptChunk (chunkIndex : ℕ) (chunkHashes : List XorName) (childLevel : ℕ)
    (content : Bytes) :
    erase (encryptChunk P chunkIndex chunkHashes childLevel content : Logged σ Bytes) =
      Act.ofExcept (do
        let pki ← getPadKeyAndNonce P chunkIndex chunkHashes childLevel
        Autonomi.encryptChunk P content pki) := by
  simp only [encryptChunk, getPadKeyAndNonce, erase_bind, erase_lift, erase_emit, Act.ofExcept_bind,
    bind_assoc]
  rfl

theorem erase_processChunk (bytes : Bytes) (childLevel : ℕ) (s : Pass) (chunkIndex : ℕ) :
    erase (processChunk P m bytes childLevel s chunkIndex : Logged σ Pass) =
      Act.ofExcept (Autonomi.processChunk P m bytes childLevel s chunkIndex) := by
  unfold processChunk Autonomi.processChunk
  by_cases h : chunkIndex < 2
  · simp only [if_pos h]
    rfl
  · simp only [if_neg h, erase_bind, erase_encryptChunk, Act.ofExcept_bind, bind_assoc]
    rfl

theorem erase_processFirstChunk (childLevel : ℕ) (s : Pass) (first : ℕ × Bytes × XorName × ℕ) :
    erase (processFirstChunk P childLevel s first : Logged σ Pass) =
      Act.ofExcept (Autonomi.processFirstChunk P childLevel s first) := by
  simp only [processFirstChunk, Autonomi.processFirstChunk, erase_bind, erase_encryptChunk,
    Act.ofExcept_bind, bind_assoc]
  rfl

theorem erase_encryptAll (bytes : Bytes) (childLevel : ℕ) :
    erase (encryptAll P m bytes childLevel : Logged σ Pass) =
      Act.ofExcept (Autonomi.encryptAll P m bytes childLevel) := by
  simp only [encryptAll, Autonomi.encryptAll, erase_bind, Act.ofExcept_bind, Act.ofExcept_foldlM,
    erase_foldlM (erase_processChunk bytes childLevel),
    erase_foldlM (erase_processFirstChunk childLevel)]

theorem erase_shrinkLoop {τ : Type} {enc : Bytes → ℕ → Logged σ (DataMap × List EncryptedChunk)}
    {enc' : Bytes → ℕ → Run Error (DataMap × List EncryptedChunk)}
    (henc : ∀ bytes level, erase (enc bytes level) = Act.ofRun (enc' bytes level))
    (storeChunk : τ → XorName → Bytes → Except Error τ) :
    ∀ (fuel : ℕ) (s : τ) (dataMap : DataMap) (allChunks : List EncryptedChunk),
      erase (shrinkLoop P enc storeChunk fuel s dataMap allChunks) =
        Act.ofRun (Autonomi.shrinkLoop P enc' storeChunk fuel s dataMap allChunks) := by
  intro fuel
  induction fuel with
  | zero => exact fun _ _ _ => rfl
  | succ fuel ih =>
    intro s dataMap allChunks
    unfold shrinkLoop Autonomi.shrinkLoop
    by_cases h : 3 < dataMap.len
    · simp only [if_pos h, erase_bind, henc, ih, Act.ofRun_bind]
      rfl
    · simp only [if_neg h]
      rfl

/-- **The record changes nothing.** -/
theorem erase_encryptWithChildLevel (fuel : ℕ) : ∀ (bytes : Bytes) (childLevel : ℕ),
    erase (encryptWithChildLevel P m fuel bytes childLevel : Logged σ _) =
      Act.ofRun (Autonomi.encryptWithChildLevel P m fuel bytes childLevel) := by
  induction fuel with
  | zero => exact fun _ _ => rfl
  | succ fuel ih =>
    intro bytes childLevel
    unfold encryptWithChildLevel Autonomi.encryptWithChildLevel
    by_cases hsmall : bytes.length < minEncryptableBytes
    · simp only [if_pos hsmall]
      rfl
    · by_cases hfew : getNumChunks m bytes.length < 3
      · simp only [if_neg hsmall, if_pos hfew]
        rfl
      · simp only [if_neg hsmall, if_neg hfew, erase_bind, erase_encryptAll, erase_shrinkLoop ih,
          Act.ofRun_bind]
        rfl

theorem erase_shrinkDataMap {τ : Type} (fuel : ℕ) (s : τ) (dataMap : DataMap)
    (storeChunk : τ → XorName → Bytes → Except Error τ) :
    erase (shrinkDataMap P m fuel s dataMap storeChunk : Logged σ _) =
      Act.ofRun (Autonomi.shrinkDataMap P m fuel s dataMap storeChunk) :=
  erase_shrinkLoop (erase_encryptWithChildLevel fuel) storeChunk (fuel + 2) s dataMap []

theorem erase_streamEncryptChunk (hashes : List XorName) (chunkIndex : ℕ) (chunkData : Bytes) :
    erase (streamEncryptChunk P hashes chunkIndex chunkData) =
      Autonomi.streamEncryptChunk P hashes chunkIndex chunkData := by
  simp only [streamEncryptChunk, Autonomi.streamEncryptChunk, erase_bind, erase_encryptChunk]
  rfl

theorem erase_processChunkData (bufferStart chunkIndex : ℕ) (chunkData : Bytes) :
    erase (processChunkData P bufferStart chunkIndex chunkData) =
      Autonomi.processChunkData P bufferStart chunkIndex chunkData := by
  rw [processChunkData, Autonomi.processChunkData, erase_bind]
  refine congrArg _ (funext fun _ => ?_)
  rw [erase_bind]
  refine congrArg _ (funext fun s => ?_)
  split_ifs
  · simp only [erase_bind]
    rfl
  · rw [erase_bind, erase_streamEncryptChunk]
    rfl
  · rfl

theorem erase_processTurn : erase (processTurn P m) = Autonomi.processTurn P m := by
  rw [processTurn, Autonomi.processTurn, erase_bind]
  refine congrArg _ (funext fun s => ?_)
  simp only
  split_ifs
  all_goals first | rfl | exact erase_processChunkData _ _ _

theorem erase_processLoop : ∀ turns, erase (processLoop P m turns) = Autonomi.processLoop P m turns
  | 0 => rfl
  | turns + 1 => by
    rw [processLoop, Autonomi.processLoop, erase_bind]
    refine congrArg _ (funext fun s => ?_)
    split_ifs
    · rw [erase_bind, erase_processTurn]
      refine congrArg _ (funext fun turn => ?_)
      cases turn with
      | next => exact erase_processLoop turns
      | stop => rfl
      | yield chunk => rfl
    · rfl

theorem erase_encryptDeferred (srcHashes : List XorName) (chunkIndex : ℕ) :
    erase (encryptDeferred P srcHashes chunkIndex) =
      Autonomi.encryptDeferred P srcHashes chunkIndex := by
  rw [encryptDeferred, Autonomi.encryptDeferred, erase_bind]
  refine congrArg _ (funext fun s => ?_)
  cases s.deferredChunks[chunkIndex]?.join with
  | none => rfl
  | some chunkData =>
    simp only [erase_bind, erase_streamEncryptChunk]
    rfl

theorem erase_finalizeDataMap (fuel : ℕ) :
    erase (finalizeDataMap P m fuel) = Autonomi.finalizeDataMap P m fuel := by
  simp only [finalizeDataMap, Autonomi.finalizeDataMap, erase_bind, erase_shrinkDataMap]
  refine congrArg _ (funext fun s => congrArg _ (funext fun infos => congrArg _ (funext fun shrunk =>
    congrArg _ (funext fun _ => congrArg _ (funext fun s' => ?_)))))
  cases s'.shrinkingChunks[s'.shrinkingChunkIndex]? with
  | none => rfl
  | some chunk => rfl

theorem erase_finalizeEncryption (fuel : ℕ) :
    erase (finalizeEncryption P m fuel) = Autonomi.finalizeEncryption P m fuel := by
  rw [finalizeEncryption, Autonomi.finalizeEncryption, erase_bind]
  refine congrArg _ (funext fun s => ?_)
  split_ifs
  · rfl
  · rw [erase_bind]
    refine congrArg _ (funext fun srcHashes => ?_)
    rw [erase_bind, erase_encryptDeferred]
    refine congrArg _ (funext fun first => ?_)
    cases first with
    | some chunk => rfl
    | none =>
      simp only [erase_bind, erase_encryptDeferred]
      refine congrArg _ (funext fun second => ?_)
      cases second with
      | some chunk => rfl
      | none =>
        simp only [erase_bind, erase_finalizeDataMap]
        rfl

theorem erase_tryProcessChunks (fuel : ℕ) :
    erase (tryProcessChunks P m fuel) = Autonomi.tryProcessChunks P m fuel := by
  rw [tryProcessChunks, Autonomi.tryProcessChunks, erase_bind]
  refine congrArg _ (funext fun s => ?_)
  rw [erase_bind, erase_processLoop]
  refine congrArg _ (funext fun r => ?_)
  cases r with
  | some chunk => rfl
  | none =>
    simp only [erase_bind]
    refine congrArg _ (funext fun s' => ?_)
    split_ifs
    · exact erase_finalizeEncryption fuel
    · rfl

theorem erase_nextLoop (fuel : ℕ) :
    ∀ turns, erase (nextLoop P m fuel turns) = Autonomi.nextLoop P m fuel turns
  | 0 => rfl
  | turns + 1 => by
    rw [nextLoop, Autonomi.nextLoop, erase_bind]
    refine congrArg _ (funext fun s => ?_)
    cases s.shrinkingChunks[s.shrinkingChunkIndex]? with
    | some chunk => rfl
    | none =>
      simp only
      split_ifs
      · rfl
      · rw [erase_bind, erase_tryProcessChunks]
        refine congrArg _ (funext fun r => ?_)
        cases r with
        | some result => rfl
        | none =>
          simp only [erase_bind]
          refine congrArg _ (funext fun s' => ?_)
          split_ifs
          · rfl
          · cases s'.dataIter with
            | nil => simp only [erase_bind, erase_tryProcessChunks]; rfl
            | cons data dataIter =>
              simp only [erase_bind, erase_tryProcessChunks]
              refine congrArg _ (funext fun _ => congrArg _ (funext fun r => ?_))
              cases r with
              | some result => rfl
              | none => exact erase_nextLoop fuel turns

/-- **The record changes nothing of a stream.** -/
theorem erase_nextInternal (fuel : ℕ) :
    erase (nextInternal P m fuel) = Autonomi.nextInternal P m fuel := by
  rw [nextInternal, Autonomi.nextInternal, erase_bind]
  exact congrArg _ (funext fun s => erase_nextLoop fuel _)

end Logged

/-! ## The hash of the bytes that are encrypted -/

namespace Logged

open Encryption

variable {P : Primitives} {m : ℕ} {σ : Type} {s : σ}

theorem context_ofNat (srcHash n1SrcHash n2SrcHash : XorName) (chunkIndex childLevel : ℕ) :
    contextMaterial srcHash n1SrcHash n2SrcHash (UInt64.ofNat chunkIndex).toNat
      (UInt64.ofNat childLevel).toNat =
      contextMaterial srcHash n1SrcHash n2SrcHash chunkIndex childLevel := by
  have h64 : 2 ^ 64 = 256 ^ 8 := by norm_num
  simp only [contextMaterial, UInt64.toNat_ofNat', h64, leBytes_mod]

/-- **One call**, with the hash of the chunk in its place. -/
theorem emits_encryptChunk {chunkIndex childLevel : ℕ} {chunkHashes : List XorName}
    {content : Bytes} {Q : Bytes → σ → Prop} {R : σ → Prop}
    (h : ∀ x, chunkHashes[chunkIndex]? = some x → x = contentHash P content) (hQ : ∀ c, Q c s)
    (hR : R s) :
    Emits (encryptChunk P chunkIndex chunkHashes childLevel content) s (Own P) Q R := by
  refine emits_bind (emits_ofExcept (fun n _ => ?_) hR)
  refine emits_bind (emits_ofExcept (fun srcHash hsrc => ?_) hR)
  refine emits_bind (emits_ofExcept (fun n1SrcHash _ => ?_) hR)
  refine emits_bind (emits_ofExcept (fun n2SrcHash _ => ?_) hR)
  refine emits_bind (emits_emit ⟨h srcHash (okOr_eq_ok.1 hsrc), ?_⟩ ?_)
  · rw [context, context_ofNat]
    rfl
  · exact emits_ofExcept (fun c _ => hQ c) hR

/-- Before chunk `i`: its hash comes next, and those of the chunks that wait are there. -/
structure Pushed (P : Primitives) (i : ℕ) (s : Pass) : Prop where
  length : s.srcHashes.length = i
  first : ∀ f ∈ s.firstChunks, s.srcHashes[f.1]? = some (contentHash P f.2.1)

theorem getElem?_of_append {hs : List XorName} {h x : XorName} {i : ℕ} (hi : hs.length = i)
    (hx : (hs ++ [h])[i]? = some x) : x = h := by
  subst hi
  rw [List.getElem?_concat_length] at hx
  exact (Option.some.inj hx).symm

theorem Pushed.srcHashes_append {i : ℕ} {p : Pass} (hp : Pushed P i p) (h : XorName)
    {f : ℕ × Bytes × XorName × ℕ} (hf : f ∈ p.firstChunks) :
    (p.srcHashes ++ [h])[f.1]? = some (contentHash P f.2.1) := by
  have hold := hp.first f hf
  rwa [List.getElem?_append_left (List.getElem?_eq_some_iff.1 hold).1]

section Batch

variable {R : σ → Prop}

theorem emits_processChunk {bytes : Bytes} {childLevel i : ℕ} {p : Pass} (hp : Pushed P i p)
    (hR : R s) :
    Emits (processChunk P m bytes childLevel p i) s (Own P)
      (fun p' s' => Pushed P (i + 1) p' ∧ R s') R := by
  have hlen : (p.srcHashes ++ [contentHash P (slice bytes
      (getStartEndPositions m bytes.length i).1 (getStartEndPositions m bytes.length i).2)]).length =
      i + 1 := by
    rw [List.length_append, hp.length, List.length_singleton]
  refine emits_ite (fun _ => ?_) fun _ => ?_
  · refine emits_pure ⟨⟨hlen, fun f hf => ?_⟩, hR⟩
    rcases List.mem_append.1 hf with hf | hf
    · exact hp.srcHashes_append _ hf
    · obtain rfl := List.mem_singleton.1 hf
      rw [← hp.length]
      exact List.getElem?_concat_length
  · refine emits_bind (emits_encryptChunk (fun x => getElem?_of_append hp.length) (fun c => ?_) hR)
    exact emits_pure ⟨⟨hlen, fun f => hp.srcHashes_append _⟩, hR⟩

theorem emits_processFirstChunk {childLevel : ℕ} {p : Pass} {f : ℕ × Bytes × XorName × ℕ}
    (hf : p.srcHashes[f.1]? = some (contentHash P f.2.1)) (hR : R s) :
    Emits (processFirstChunk P childLevel p f) s (Own P)
      (fun p' s' => p'.srcHashes = p.srcHashes ∧ R s') R := by
  refine emits_bind (emits_encryptChunk (fun x hx => ?_) (fun c => emits_pure ⟨rfl, hR⟩) hR)
  exact Option.some.inj (hx.symm.trans hf)

theorem emits_encryptAll (bytes : Bytes) (childLevel : ℕ) (hR : R s) :
    Emits (encryptAll P m bytes childLevel) s (Own P) (fun _ s' => R s') R := by
  refine emits_bind (Emits.mono (emits_foldlM_range (I := fun i p s => Pushed P i p ∧ R s)
    (fun i p s hp => emits_processChunk hp.1 hp.2)
    ⟨⟨rfl, fun f hf => absurd hf List.not_mem_nil⟩, hR⟩) fun p s hp => ?_)
  refine (emits_foldlM (I := fun p' s => p'.srcHashes = p.srcHashes ∧ R s) (fun f hf p' s hp' => ?_)
    ⟨rfl, hp.2⟩).mono fun _ _ h => h.2
  have hf' : p'.srcHashes[f.1]? = some (contentHash P f.2.1) := by
    rw [hp'.1]
    exact hp.1.first f hf
  exact (emits_processFirstChunk hf' hp'.2).mono fun _ _ h => ⟨h.1.trans hp'.1, h.2⟩

theorem emits_shrinkLoop {τ : Type} {enc : Bytes → ℕ → Logged σ (DataMap × List EncryptedChunk)}
    (henc : ∀ bytes level s, R s → Emits (enc bytes level) s (Own P) (fun _ s' => R s') R)
    {storeChunk : τ → XorName → Bytes → Except Error τ} (fuel : ℕ) :
    ∀ (t : τ) (dataMap : DataMap) (allChunks : List EncryptedChunk) (s : σ), R s →
      Emits (shrinkLoop P enc storeChunk fuel t dataMap allChunks) s (Own P) (fun _ s' => R s')
        R := by
  induction fuel with
  | zero => exact fun _ _ _ _ hR => emits_ofRun (fun _ _ => hR) hR
  | succ fuel ih =>
    intro t dataMap allChunks s hR
    refine emits_ite (fun _ => ?_) fun _ => emits_pure hR
    refine emits_bind (emits_ofRun (fun bytes _ => ?_) hR)
    refine emits_bind ((henc bytes _ s hR).mono fun r s hR => ?_)
    exact emits_bind (emits_ofExcept (fun t _ => ih t _ _ s hR) hR)

/-- **`encrypt` and what it calls** hash the bytes that they encrypt. -/
theorem emits_encryptWithChildLevel (fuel : ℕ) : ∀ (bytes : Bytes) (childLevel : ℕ) (s : σ), R s →
    Emits (encryptWithChildLevel P m fuel bytes childLevel) s (Own P) (fun _ s' => R s') R := by
  induction fuel with
  | zero => exact fun _ _ _ hR => emits_ofRun (fun _ _ => hR) hR
  | succ fuel ih =>
    intro bytes childLevel s hR
    refine emits_ite (fun _ => emits_ofExcept (fun _ _ => hR) hR) fun _ => ?_
    refine emits_ite (fun _ => emits_ofExcept (fun _ _ => hR) hR) fun _ => ?_
    refine emits_bind ((emits_encryptAll bytes childLevel hR).mono fun p s hR => ?_)
    refine emits_bind ((emits_shrinkLoop ih (fuel + 2) _ _ _ s hR).mono fun _ _ hR => ?_)
    exact emits_pure hR

theorem emits_shrinkDataMap {τ : Type} (fuel : ℕ) (t : τ) (dataMap : DataMap)
    (storeChunk : τ → XorName → Bytes → Except Error τ) (hR : R s) :
    Emits (shrinkDataMap P m fuel t dataMap storeChunk) s (Own P) (fun _ s' => R s') R :=
  emits_shrinkLoop (emits_encryptWithChildLevel fuel) (fuel + 2) t dataMap [] s hR

end Batch

/-! ## The hashes of a stream -/

section Stream

open EncryptionStream

/-- A chunk that waits has been read, and its hash is in its place. -/
def Kept (P : Primitives) (s : EncryptionStream) : Prop :=
  ∀ i data, s.deferredChunks[i]?.join = some data →
    i < s.chunksProcessed ∧ s.srcHashes[i]? = some (some (contentHash P data))

variable {s : EncryptionStream}

theorem getElem?_set_join {α : Type} {l : List (Option α)} {i k : ℕ} {x : Option α} {a : α}
    (h : (l.set k x)[i]?.join = some a) : (i = k ∧ x = some a) ∨ l[i]?.join = some a := by
  rcases eq_or_ne k i with rfl | hne
  · rw [List.getElem?_set_self'] at h
    cases hl : l[k]? with
    | none => rw [hl] at h; cases h
    | some y => rw [hl] at h; exact Or.inl ⟨rfl, h⟩
  · rw [List.getElem?_set_ne hne] at h
    exact Or.inr h

/-- The hash of a chunk that waits is not written again. -/
theorem Kept.record (h : Kept P s) (x : Option XorName) :
    Kept P { s with srcHashes := s.srcHashes.set s.chunksProcessed x } := by
  intro i data hi
  obtain ⟨hlt, hsrc⟩ := h i data hi
  exact ⟨hlt, by rwa [List.getElem?_set_ne hlt.ne']⟩

theorem Kept.advance (h : Kept P s) (bufferStart size : ℕ) : Kept P (s.advance bufferStart size) :=
  fun i data hi => ⟨Nat.lt_succ_of_lt (h i data hi).1, (h i data hi).2⟩

/-- The chunk that is read now is set aside. -/
theorem Kept.defer {data : Bytes} (h : Kept P s)
    (hsrc : s.srcHashes[s.chunksProcessed]? = some (some (contentHash P data)))
    (bufferStart size : ℕ) :
    Kept P (EncryptionStream.advance bufferStart size
      { s with deferredChunks := s.deferredChunks.set s.chunksProcessed (some data) }) := by
  intro i data' hi
  rcases getElem?_set_join hi with ⟨rfl, hdata⟩ | hi
  · obtain rfl := Option.some.inj hdata
    exact ⟨Nat.lt_succ_self _, hsrc⟩
  · exact ⟨Nat.lt_succ_of_lt (h i data' hi).1, (h i data' hi).2⟩

theorem Kept.take (h : Kept P s) (k : ℕ) :
    Kept P { s with deferredChunks := s.deferredChunks.set k none } := by
  intro i data hi
  rcases getElem?_set_join hi with ⟨-, hdata⟩ | hi
  · cases hdata
  · exact h i data hi

theorem emits_recordChunk {data : Bytes} (h : Kept P s) :
    Emits (lift (recordChunk P s.chunksProcessed data)) s (Own P)
      (fun _ s' => Kept P s' ∧ s'.chunksProcessed = s.chunksProcessed ∧
        s'.srcHashes[s.chunksProcessed]? = some (some (contentHash P data))) (Kept P) := by
  by_cases hhashes : s.srcHashes.length ≤ s.chunksProcessed
  · have hrun : ∃ e, recordChunk P s.chunksProcessed data s = some (.error e, s) := by
      rw [recordChunk, Act.get_bind]
      simp only [if_pos hhashes]
      exact ⟨_, rfl⟩
    exact emits_of_error hrun h
  · by_cases hinfos : s.chunkInfos.length ≤ s.chunksProcessed
    · refine emits_of_error ?_ (h.record (some (contentHash P data)))
      rw [recordChunk, Act.get_bind]
      simp only [if_neg hhashes, if_pos hinfos]
      exact ⟨_, rfl⟩
    · have hrun : recordChunk P s.chunksProcessed data s = some (.ok (), { s with
          srcHashes := s.srcHashes.set s.chunksProcessed (some (contentHash P data))
          chunkInfos := s.chunkInfos.set s.chunksProcessed (some ⟨s.chunksProcessed,
            contentHash P [], contentHash P data, data.length⟩) }) := by
        rw [recordChunk, Act.get_bind]
        simp only [if_neg hhashes, if_neg hinfos]
        rfl
      exact emits_of_ok hrun ⟨h.record _, rfl, List.getElem?_set_self (Nat.lt_of_not_le hhashes)⟩

theorem emits_deferChunk {data : Bytes} (h : Kept P s)
    (hsrc : s.srcHashes[s.chunksProcessed]? = some (some (contentHash P data))) :
    Emits (lift (deferChunk s.chunksProcessed data)) s (Own P)
      (fun _ s' => ∀ bufferStart size, Kept P (s'.advance bufferStart size)) (Kept P) := by
  by_cases hfull : s.deferredChunks.length ≤ s.chunksProcessed
  · have hrun : ∃ e, deferChunk s.chunksProcessed data s = some (.error e, s) := by
      rw [deferChunk, Act.get_bind]
      simp only [if_pos hfull]
      exact ⟨_, rfl⟩
    exact emits_of_error hrun h
  · refine emits_of_ok (a := ()) ?_ (h.defer hsrc)
    rw [deferChunk, Act.get_bind]
    simp only [if_neg hfull]
    rfl

theorem emits_streamEncryptChunk {hashes : List XorName} {chunkIndex : ℕ} {data : Bytes}
    (hhash : ∀ x, hashes[chunkIndex]? = some x → x = contentHash P data) (h : Kept P s) :
    Emits (streamEncryptChunk P hashes chunkIndex data) s (Own P)
      (fun _ s' => Kept P s' ∧ s'.srcHashes = s.srcHashes) (Kept P) := by
  refine emits_bind (emits_encryptChunk hhash (fun c => ?_) h)
  exact emits_bind (emits_modify (emits_pure ⟨h, rfl⟩))

/-- A known hash is the one that was entered. -/
theorem getElem?_knownHashes {i : ℕ} {x y : XorName} (h : s.srcHashes[i]? = some (some y))
    (hx : (s.knownHashes P)[i]? = some x) : x = y := by
  rw [knownHashes, List.getElem?_map] at hx
  obtain ⟨j, hj, hx⟩ := Option.map_eq_some_iff.1 hx
  obtain ⟨hlt, rfl⟩ := List.getElem?_eq_some_iff.1 hj
  rw [List.getElem_range, h] at hx
  exact hx.symm

theorem emits_processChunkData {bufferStart : ℕ} {data : Bytes} (h : Kept P s) :
    Emits (processChunkData P bufferStart s.chunksProcessed data) s (Own P) (fun _ s' => Kept P s')
      (Kept P) := by
  refine emits_bind ((emits_recordChunk h).mono ?_)
  rintro _ s' ⟨h', hchunk, hsrc⟩
  rw [← hchunk] at hsrc ⊢
  refine emits_bind (emits_get (emits_ite (fun _ => ?_) fun _ => emits_ite (fun _ => ?_) fun _ => ?_))
  · refine emits_bind ((emits_deferChunk h' hsrc).mono fun _ s'' hdefer => ?_)
    exact emits_bind (emits_modify (emits_pure (hdefer _ _)))
  · refine emits_bind ((emits_streamEncryptChunk (fun x => getElem?_knownHashes hsrc) h').mono
      fun c s'' hdone => ?_)
    exact emits_bind (emits_modify (emits_pure (hdone.1.advance _ _)))
  · exact emits_bind (emits_modify (emits_pure (h'.advance _ _)))

theorem emits_processTurn (h : Kept P s) :
    Emits (processTurn P m) s (Own P) (fun _ s' => Kept P s') (Kept P) := by
  refine emits_bind (emits_get (emits_ite (fun _ => ?_) fun _ => emits_pure h))
  refine emits_ite (fun _ => emits_pure h) fun _ => ?_
  exact emits_ite (fun _ => emits_processChunkData h) fun _ => emits_pure h

theorem emits_processLoop (turns : ℕ) : ∀ {s : EncryptionStream}, Kept P s →
    Emits (processLoop P m turns) s (Own P) (fun _ s' => Kept P s') (Kept P) := by
  induction turns with
  | zero => exact fun h => emits_pure h
  | succ turns ih =>
    intro s h
    refine emits_bind (emits_get (emits_ite (fun _ => ?_) fun _ => emits_pure h))
    refine emits_bind ((emits_processTurn h).mono fun turn s' h' => ?_)
    cases turn with
    | next => exact ih h'
    | stop => exact emits_pure h'
    | yield chunk => exact emits_pure h'

/-- Where no hash is missing, these are the ones that were entered. -/
theorem getElem?_allSrcHashes {hashes : List XorName} (hall : allSrcHashes s = .ok hashes) {i : ℕ}
    {x y : XorName} (h : s.srcHashes[i]? = some (some y)) (hx : hashes[i]? = some x) : x = y := by
  obtain ⟨hi, rfl⟩ := List.getElem?_eq_some_iff.1 hx
  have hget := List.forall₂_iff_get.1 (mapM_eq_ok.1 hall)
  have hget := hget.2 i (by rw [hget.1]; exact hi) hi
  simp only [List.get_eq_getElem, List.getElem_zipIdx, okOr_eq_ok] at hget
  obtain ⟨hi', hy⟩ := List.getElem?_eq_some_iff.1 h
  rw [hy] at hget
  exact (Option.some.inj hget).symm

theorem emits_encryptDeferred {hashes : List XorName} {chunkIndex : ℕ} (h : Kept P s)
    (hhashes : ∀ (i : ℕ) (x y : XorName),
      s.srcHashes[i]? = some (some y) → hashes[i]? = some x → x = y) :
    Emits (encryptDeferred P hashes chunkIndex) s (Own P)
      (fun _ s' => Kept P s' ∧ s'.srcHashes = s.srcHashes) (Kept P) := by
  refine emits_bind (emits_get ?_)
  cases hdata : s.deferredChunks[chunkIndex]?.join with
  | none => exact emits_pure ⟨h, rfl⟩
  | some data =>
    refine emits_bind (emits_set (emits_bind (Emits.mono (emits_streamEncryptChunk
      (fun x hx => ?_) (h.take chunkIndex)) fun c s' h' => emits_pure h')))
    exact hhashes chunkIndex x _ (h chunkIndex data hdata).2 hx

theorem emits_finalizeDataMap (fuel : ℕ) (h : Kept P s) :
    Emits (finalizeDataMap P m fuel) s (Own P) (fun _ s' => Kept P s') (Kept P) := by
  refine emits_bind (emits_get (emits_bind (emits_ofExcept (fun infos _ => ?_) h)))
  refine emits_bind ((emits_shrinkDataMap fuel () _ _ h).mono fun shrunk s' h' => ?_)
  refine emits_bind (emits_modify (emits_bind (emits_get ?_)))
  split
  · exact emits_bind (emits_set (emits_pure h'))
  · exact emits_bind (emits_set (emits_pure h'))

theorem emits_finalizeEncryption (fuel : ℕ) (h : Kept P s) :
    Emits (finalizeEncryption P m fuel) s (Own P) (fun _ s' => Kept P s') (Kept P) := by
  refine emits_bind (emits_get (emits_ite (fun _ => emits_pure h) fun _ => ?_))
  refine emits_bind (emits_ofExcept (fun hashes hall => ?_) h)
  have hhashes : ∀ (i : ℕ) (x y : XorName),
      s.srcHashes[i]? = some (some y) → hashes[i]? = some x → x = y :=
    fun _ _ _ => getElem?_allSrcHashes hall
  refine emits_bind ((emits_encryptDeferred h hhashes).mono ?_)
  rintro first s₁ ⟨h₁, hsrc⟩
  cases first with
  | some chunk => exact emits_pure h₁
  | none =>
    refine emits_bind ((emits_encryptDeferred h₁ (hsrc ▸ hhashes)).mono ?_)
    rintro second s₂ ⟨h₂, -⟩
    cases second with
    | some chunk => exact emits_pure h₂
    | none => exact emits_bind ((emits_finalizeDataMap fuel h₂).mono fun _ _ h => emits_pure h)

theorem emits_tryProcessChunks (fuel : ℕ) (h : Kept P s) :
    Emits (tryProcessChunks P m fuel) s (Own P) (fun _ s' => Kept P s') (Kept P) := by
  refine emits_bind (emits_get (emits_bind ((emits_processLoop _ h).mono fun r s' h' => ?_)))
  cases r with
  | some chunk => exact emits_pure h'
  | none =>
    refine emits_bind (emits_get (emits_ite (fun _ => ?_) fun _ => emits_pure h'))
    exact emits_finalizeEncryption fuel h'

theorem emits_nextLoop (fuel turns : ℕ) : ∀ {s : EncryptionStream}, Kept P s →
    Emits (nextLoop P m fuel turns) s (Own P) (fun _ s' => Kept P s') (Kept P) := by
  induction turns with
  | zero => exact fun h => emits_pure h
  | succ turns ih =>
    intro s h
    refine emits_bind (emits_get ?_)
    cases s.shrinkingChunks[s.shrinkingChunkIndex]? with
    | some chunk => exact emits_bind (emits_set (emits_pure h))
    | none =>
      refine emits_ite (fun _ => emits_pure h) fun _ => ?_
      refine emits_bind ((emits_tryProcessChunks fuel h).mono fun r s₁ h₁ => ?_)
      cases r with
      | some result => exact emits_pure h₁
      | none =>
        refine emits_bind (emits_get (emits_ite (fun _ => emits_pure h₁) fun _ => ?_))
        split
        · refine emits_bind (emits_set (emits_bind (Emits.mono (emits_tryProcessChunks fuel ?_)
            fun r s₂ h₂ => ?_)))
          · exact h₁
          · cases r with
            | some result => exact emits_pure h₂
            | none => exact ih h₂
        · exact emits_bind (emits_set (emits_tryProcessChunks fuel h₁))

/-- **One call of `next`**, from any state where the chunks that wait are in order. -/
theorem emits_nextInternal (fuel : ℕ) (h : Kept P s) :
    Emits (nextInternal P m fuel) s (Own P) (fun _ s' => Kept P s') (Kept P) :=
  emits_bind (emits_get (emits_nextLoop fuel _ h))

theorem kept_streamEncrypt {dataSize : ℕ} {dataIter : List Bytes}
    (h : streamEncrypt m dataSize dataIter = .ok s) : Kept P s := by
  have hs : s.deferredChunks = [none, none] := by
    rw [streamEncrypt, EncryptionStream.new] at h
    simp only at h
    split_ifs at h
    rw [← Except.ok.inj h]
  intro i data hi
  rw [hs] at hi
  match i, hi with
  | 0, hi => cases hi
  | 1, hi => cases hi
  | _ + 2, hi => cases hi

theorem Kept.next {fuel : ℕ} {r : Option (Except Error (XorName × Bytes))} {s' : EncryptionStream}
    (h : Kept P s) (hr : chunksNext P m fuel s = some (r, s')) : Kept P s' := by
  have hnext := emits_nextInternal (m := m) fuel h
  obtain ⟨⟨a, s₁⟩, ha, hr⟩ := Option.bind_eq_some_iff.1 hr
  have h₁ : Kept P s₁ := by
    rw [← erase_nextInternal] at ha
    cases a with
    | ok a => exact hnext.ok a s₁ ha
    | error e => exact hnext.error e s₁ ha
  match a, hr with
  | .ok (some (.chunk _)), hr => cases hr; exact h₁
  | .ok (some (.dataMap _)), hr => cases hr; exact h₁
  | .ok none, hr => cases hr; exact h₁
  | .error _, hr => cases hr; exact h₁

/-- **`stream_encrypt`** hashes the bytes that it encrypts. -/
theorem own_encryptions (fuel calls : ℕ) : ∀ {s : EncryptionStream}, Kept P s →
    ∀ e ∈ encryptions P m fuel calls s, e.Own P := by
  induction calls with
  | zero => exact fun _ e he => absurd he List.not_mem_nil
  | succ calls ih =>
    intro s h e he
    rcases List.mem_append.1 he with he | he
    · exact (emits_nextInternal (m := m) fuel h).events e he
    · cases hr : chunksNext P m fuel s with
      | none =>
        rw [hr] at he
        exact absurd he List.not_mem_nil
      | some r =>
        rw [hr] at he
        exact ih (h.next hr) e he

end Stream

end Logged

/-! ## Keys and nonces -/

/-- The chunk encryptions of one run: of `encrypt`, of `shrink_data_map` for a map of any level, or
    of the first calls of `next` on a stream. -/
inductive Performed (P : Primitives) (m : ℕ) : List Encryption → Prop
  | encrypt (fuel : ℕ) (bytes : Bytes) : Performed P m (Logged.encrypt P m fuel bytes ()).1
  | shrinkDataMap {τ : Type} (fuel : ℕ) (t : τ) (dataMap : DataMap)
      (storeChunk : τ → XorName → Bytes → Except Error τ) :
      Performed P m (Logged.shrinkDataMap P m fuel t dataMap storeChunk ()).1
  | streamEncrypt {dataSize : ℕ} {dataIter : List Bytes} {s : EncryptionStream}
      (h : streamEncrypt m dataSize dataIter = .ok s) (fuel calls : ℕ) :
      Performed P m (Logged.encryptions P m fuel calls s)

namespace Performed

variable {P : Primitives} {m : ℕ} {es : List Encryption}

/-- **Every key** is derived from the hash of the bytes that it encrypts. -/
theorem own (h : Performed P m es) : ∀ e ∈ es, e.Own P := by
  cases h with
  | encrypt fuel bytes =>
    exact (Logged.emits_encryptWithChildLevel (R := fun _ => True) fuel bytes 0 () trivial).events
  | shrinkDataMap fuel t dataMap storeChunk =>
    exact (Logged.emits_shrinkDataMap (R := fun _ => True) fuel t dataMap storeChunk trivial).events
  | streamEncrypt h fuel calls => exact Logged.own_encryptions fuel calls (Logged.kept_streamEncrypt h)

end Performed

/-- The hash and the key derivation are injective on what they are called with. -/
structure InjectiveOn (P : Primitives) (es : List Encryption) : Prop where
  hash : ∀ e ∈ es, ∀ e' ∈ es, contentHash P e.content = contentHash P e'.content →
    e.content = e'.content
  kdf : ∀ e ∈ es, ∀ e' ∈ es,
    (cutOutput (P.deriveKey e.context)).key = (cutOutput (P.deriveKey e'.context)).key →
    (cutOutput (P.deriveKey e.context)).nonce = (cutOutput (P.deriveKey e'.context)).nonce →
    e.context = e'.context

theorem contextMaterial_inj {s a b s' a' b' : XorName} {i l i' l' : ℕ} (hi : i < 2 ^ 64)
    (hl : l < 2 ^ 64) (hi' : i' < 2 ^ 64) (hl' : l' < 2 ^ 64)
    (h : contextMaterial s a b i l = contextMaterial s' a' b' i' l') : s = s' ∧ i = i' ∧ l = l' := by
  obtain ⟨h, hlevel⟩ := List.append_inj h (by simp)
  obtain ⟨h, hindex⟩ := List.append_inj h (by simp)
  obtain ⟨h, -⟩ := List.append_inj h (by simp)
  obtain ⟨hsrc, -⟩ := List.append_inj h (by simp)
  exact ⟨List.Vector.eq _ _ hsrc, leBytes_inj hi hi' hindex, leBytes_inj hl hl' hlevel⟩

/-- **No nonce is used for two plaintexts**: in any two runs, equal keys and nonces are those of one
    chunk, at one index and one level. -/
theorem nonce_not_reused {P : Primitives} {m m' : ℕ} {es es' : List Encryption}
    (h : Performed P m es) (h' : Performed P m' es') (hfree : InjectiveOn P (es ++ es')) :
    ∀ e ∈ es, ∀ e' ∈ es', e.pki.key = e'.pki.key → e.pki.nonce = e'.pki.nonce →
      e.content = e'.content ∧ e.chunkIndex = e'.chunkIndex ∧ e.childLevel = e'.childLevel := by
  intro e he e' he' hkey hnonce
  obtain ⟨hsrc, hpki⟩ := h.own e he
  obtain ⟨hsrc', hpki'⟩ := h'.own e' he'
  rw [hpki, hpki'] at hkey hnonce
  have hmem := List.mem_append_left es' he
  have hmem' := List.mem_append_right es he'
  have hcontext := hfree.kdf e hmem e' hmem' hkey hnonce
  obtain ⟨hhash, hindex, hlevel⟩ := contextMaterial_inj e.chunkIndex.toNat_lt e.childLevel.toNat_lt
    e'.chunkIndex.toNat_lt e'.childLevel.toNat_lt hcontext
  rw [hsrc, hsrc'] at hhash
  exact ⟨hfree.hash e hmem e' hmem' hhash, UInt64.toNat_inj.1 hindex, UInt64.toNat_inj.1 hlevel⟩

/-- Primitives whose keys start with the first byte of each of the three chunks. -/
def labelled : Primitives :=
  { clear with
    blake3 := padTo 32
    deriveKey := fun material => padTo 96 (List.replicate 52 0 ++ material.take 1 ++
      (material.drop 32).take 1 ++ (material.drop 64).take 1 ++ material.drop 96) }

/-- A file, and the stream of its two pieces. -/
theorem nonce_not_reused_pieces :
    (Logged.encrypt labelled 1 1 [1, 2, 3] ()).1.length = 3 ∧
      ∃ s, streamEncrypt 1 3 [[1, 2], [3]] = .ok s ∧
        (Logged.encryptions labelled 1 1 4 s).length = 3 ∧
        ∀ e ∈ (Logged.encrypt labelled 1 1 [1, 2, 3] ()).1,
          ∀ e' ∈ Logged.encryptions labelled 1 1 4 s, e.pki.key = e'.pki.key →
            e.pki.nonce = e'.pki.nonce → e.content = e'.content ∧ e.chunkIndex = e'.chunkIndex ∧
              e.childLevel = e'.childLevel :=
  ⟨by decide +kernel, _, rfl, by decide +kernel, nonce_not_reused (.encrypt 1 [1, 2, 3])
    (@Performed.streamEncrypt _ _ 3 [[1, 2], [3]] _ rfl 1 4)
    ⟨by decide +kernel, by decide +kernel⟩⟩

end Autonomi
