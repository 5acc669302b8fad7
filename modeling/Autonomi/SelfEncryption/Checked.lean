/-
  Reading with the arithmetic of the machine (`self_encryption/src/utils.rs`,
  `lib.rs`, `decrypt.rs`, `stream_decrypt.rs`).

  In `Checked` are the functions of the reader once more, with a `usize` that
  overflows, a subtraction that underflows and a range out of bounds as `none`.
  A sum of the lengths of buffers that are in memory side by side is taken to
  fit.  The recursion over child maps is the one of the source, with fuel.
-/
import Autonomi.Lib.Post
import Autonomi.Lib.Word
import Autonomi.SelfEncryption.StreamDecrypt

namespace Autonomi

open Lib DecryptionStream

/-- How many numbers a `usize` holds. -/
def usizeSize : ℕ := 2 ^ 64

namespace Checked

variable (W : ℕ) (P : Primitives) (B : ℕ) (fetch : Fetch)

/-! ## Keys -/

def getN1N2 (chunkIndex totalNumChunks : ℕ) : Run Error (ℕ × ℕ) :=
  if totalNumChunks < 3 then
    throw (.generic s!"total_num_chunks must be at least 3, got {totalNumChunks}")
  else if totalNumChunks ≤ chunkIndex then
    throw (.generic
      s!"chunk_index {chunkIndex} out of bounds for total_num_chunks {totalNumChunks}")
  else match chunkIndex with
    | 0 => do
      let n1 ← (Word.sub totalNumChunks 1 : Option ℕ)
      let n2 ← (Word.sub totalNumChunks 2 : Option ℕ)
      pure (n1, n2)
    | 1 => do
      let n2 ← (Word.sub totalNumChunks 1 : Option ℕ)
      pure (0, n2)
    | n => do
      let n1 ← (Word.sub n 1 : Option ℕ)
      let n2 ← (Word.sub n 2 : Option ℕ)
      pure (n1, n2)

def getPadKeyAndNonce (chunkIndex : ℕ) (chunkHashes : List XorName) (childLevel : ℕ) :
    Run Error Pki := do
  let (n1, n2) ← getN1N2 chunkIndex chunkHashes.length
  let srcHash ← (okOr (.generic s!"chunk_index {chunkIndex} out of bounds") chunkHashes[chunkIndex]? :
    Except Error XorName)
  let n1SrcHash ← (okOr (.generic s!"n_1 index {n1} out of bounds") chunkHashes[n1]? :
    Except Error XorName)
  let n2SrcHash ← (okOr (.generic s!"n_2 index {n2} out of bounds") chunkHashes[n2]? :
    Except Error XorName)
  pure (getPki P srcHash n1SrcHash n2SrcHash chunkIndex childLevel)

def decryptChunk (chunkIndex : ℕ) (content : Bytes) (srcHashes : List XorName) (childLevel : ℕ) :
    Run Error Bytes := do
  let pki ← getPadKeyAndNonce P chunkIndex srcHashes childLevel
  let xored := xor content pki.pad
  let decrypted ← (cipherDecrypt P xored pki.key pki.nonce : Except Error Bytes)
  (okOr .compression (P.decompress decrypted) : Except Error Bytes)

/-! ## A set of chunks -/

def decryptSortedSet (srcHashes : List XorName) (encryptedChunks : List EncryptedChunk)
    (childLevel : ℕ) : Run Error Bytes := do
  let decryptedChunks ← encryptedChunks.zipIdx.mapM fun chunk =>
    decryptChunk P chunk.2 chunk.1.content srcHashes childLevel
  pure decryptedChunks.flatten

def decryptFullSet (dataMap : DataMap) (chunks : List EncryptedChunk) : Run Error Bytes := do
  let srcHashes := extractHashes dataMap
  let childLevel := dataMap.child.getD 0
  let chunkMap := chunkMapOf P chunks
  let sortedChunks ← (dataMap.infos.mapM fun info =>
    okOr (.generic s!"Chunk with hash {P.debugName info.dstHash} not found in data map")
      (chunkMap info.dstHash) : Except Error (List EncryptedChunk))
  decryptSortedSet P srcHashes sortedChunks childLevel

/-! ## The root map -/

/-- `inner_get_root_map` of `get_root_data_map`. -/
def innerGetRootMap (getChunk : XorName → Except Error Bytes) :
    ℕ → ℕ → Lookup XorName Bytes → DataMap → Run Error DataMap
  | 0, _, _, _ => none
  | fuel + 1, depth, chunkCache, dataMap =>
    if 100 < depth then throw (.generic "Maximum data map recursion depth exceeded")
    else if ¬ dataMap.isChild then pure dataMap
    else do
      let (chunkCache, encryptedChunks) ←
        (dataMap.infos.foldlM (fetchChunk getChunk) (chunkCache, []) : Except Error _)
      let decryptedBytes ← decryptFullSet P dataMap encryptedChunks
      let parent ← (parentDataMap decryptedBytes : Except Error DataMap)
      let depth ← (Word.add W depth 1 : Option ℕ)
      innerGetRootMap getChunk fuel depth chunkCache parent

def getRootDataMap (fuel : ℕ) (dataMap : DataMap) (getChunk : XorName → Except Error Bytes) :
    Run Error DataMap :=
  innerGetRootMap W P getChunk fuel 0 .empty dataMap

def decrypt (fuel : ℕ) (dataMap : DataMap) (chunks : List EncryptedChunk) : Run Error Bytes := do
  let chunkMap := chunkMapOf P chunks
  let rootMap ← if dataMap.isChild then getRootDataMap W P fuel dataMap (getChunk P chunkMap)
    else pure dataMap
  let rootChunks ← (rootMap.infos.mapM fun info =>
    okOr (.generic s!"Missing chunk: {hexEncode info.dstHash}") (chunkMap info.dstHash) :
    Except Error (List EncryptedChunk))
  decryptFullSet P rootMap rootChunks

/-- `inner_get_root_map` of `get_root_data_map_parallel`. -/
def innerGetRootMapParallel :
    ℕ → ℕ → Lookup XorName Bytes → DataMap → ℕ → Run Error (DataMap × ℕ)
  | 0, _, _, _, _ => none
  | fuel + 1, depth, chunkCache, dataMap, calls =>
    if 100 < depth then throw (.generic "Maximum data map recursion depth exceeded")
    else if ¬ dataMap.isChild then pure (dataMap, calls)
    else do
      let (chunkCache, calls) ← (fetchMissing fetch dataMap chunkCache calls : Except Error _)
      let encryptedChunks ← (cachedChunks P dataMap chunkCache : Except Error _)
      let decryptedBytes ← decryptFullSet P dataMap encryptedChunks
      let parent ← (parentDataMap decryptedBytes : Except Error DataMap)
      let depth ← (Word.add W depth 1 : Option ℕ)
      innerGetRootMapParallel fuel depth chunkCache parent calls

def getRootDataMapParallel (fuel : ℕ) (dataMap : DataMap) : Run Error (DataMap × ℕ) :=
  innerGetRootMapParallel W P fetch fuel 0 .empty dataMap 0

def streamingDecrypt (fuel : ℕ) (dataMap : DataMap) : Run Error DecryptionStream := do
  let (rootMap, calls) ← if dataMap.isChild then getRootDataMapParallel W P fetch fuel dataMap
    else pure (dataMap, 0)
  pure {
    chunkInfos := sortByIndex rootMap.infos
    srcHashes := extractHashes rootMap
    childLevel := rootMap.child.getD 0
    calls := calls
    currentBatchStart := 0
    currentBatchChunks := []
    currentBatchIndex := 0 }

/-! ## The stream -/

def decryptBatch : List (ChunkInfo × (ℕ × Bytes)) → Decryption Unit
  | [] => pure ()
  | (info, (_, encryptedContent)) :: batch => do
    let s ← get
    let decryptedChunk ← Act.ofRun
      (decryptChunk P info.index encryptedContent s.srcHashes s.childLevel)
    set { s with currentBatchChunks := s.currentBatchChunks ++ [decryptedChunk] }
    decryptBatch batch

def fetchNextBatch : Decryption Bool := do
  let s ← get
  if s.chunkInfos.length ≤ s.currentBatchStart then pure false
  else do
    let sum ← Act.ofOption (Word.add W s.currentBatchStart B)
    let batchEnd := min sum s.chunkInfos.length
    let batchInfos ← Act.ofExcept (batchRange s.chunkInfos s.currentBatchStart batchEnd)
    let fetchedChunks ← callback fetch (batchInfos.map ChunkInfo.request)
    modify fun s => { s with currentBatchChunks := [] }
    decryptBatch P (batchInfos.zip (sortFetched fetchedChunks))
    modify fun s => { s with currentBatchStart := batchEnd, currentBatchIndex := 0 }
    pure true

def nextOfBatch (s : DecryptionStream) :
    Option (Option (Except Error Bytes) × DecryptionStream) :=
  match s.currentBatchChunks[s.currentBatchIndex]? with
  | some chunk => do
    let index ← Word.add W s.currentBatchIndex 1
    pure (some (.ok chunk), { s with currentBatchIndex := index })
  | none => pure (none, s)

def decryptionNext : Next DecryptionStream (Except Error Bytes) := fun s =>
  if s.currentBatchChunks.length ≤ s.currentBatchIndex then do
    let (r, s) ← fetchNextBatch W P B fetch s
    match r with
    | .ok hasMore => if hasMore then nextOfBatch W s else pure (none, s)
    | .error e => pure (some (.error e), s)
  else nextOfBatch W s

/-! ## Random access -/

def fileSize (s : DecryptionStream) : Option ℕ :=
  s.chunkInfos.foldlM (fun acc chunk => Word.add W acc chunk.srcSize) 0

def getChunkStartPosition (s : DecryptionStream) (chunkIndex : ℕ) : Option ℕ :=
  (s.chunkInfos.filter fun info => info.index < chunkIndex).foldlM
    (fun acc chunk => Word.add W acc chunk.srcSize) 0

/-- The second comparison is made only after the first. -/
def findPosition (position : ℕ) : ℕ → List ChunkInfo → Option (Option ℕ)
  | _, [] => some none
  | accumulatedSize, info :: infos => do
    let within ← if accumulatedSize ≤ position then do
        let next ← Word.add W accumulatedSize info.srcSize
        pure (decide (position < next))
      else pure false
    if within then pure (some info.index)
    else do
      let accumulatedSize ← Word.add W accumulatedSize info.srcSize
      findPosition position accumulatedSize infos

def getChunkIndexFromInfos (s : DecryptionStream) (position : ℕ) : Option ℕ := do
  match ← findPosition W position 0 s.chunkInfos with
  | some index => pure index
  | none => pure ((s.chunkInfos.getLast?.map ChunkInfo.index).getD 0)

def appendPresent (s : DecryptionStream) (chunkMap : Lookup ℕ Bytes) (allBytes : Bytes)
    (chunkIndex : ℕ) : Run Error Bytes :=
  match chunkMap chunkIndex with
  | some encryptedContent => do
    let decrypted ← decryptChunk P chunkIndex encryptedContent s.srcHashes s.childLevel
    pure (allBytes ++ decrypted)
  | none => pure allBytes

def decryptPresent (s : DecryptionStream) (chunkMap : Lookup ℕ Bytes) (chunkIndices : List ℕ) :
    Run Error Bytes :=
  chunkIndices.foldlM (appendPresent P s chunkMap) []

def extractRange (bytes : Bytes) (internalOffset actualLen : ℕ) : Option Bytes :=
  if bytes.length ≤ internalOffset then pure []
  else do
    let availableLen ← Word.sub bytes.length internalOffset
    let rangeLen := min actualLen availableLen
    let rangeEnd ← Word.add W internalOffset rangeLen
    Word.range bytes internalOffset rangeEnd

def getRange (start len : ℕ) : Decryption Bytes := do
  let s ← get
  let fileSize ← Act.ofOption (fileSize W s)
  if fileSize ≤ start then pure []
  else do
    let sum ← Act.ofOption (Word.add W start len)
    let endPos := min sum fileSize
    let actualLen ← Act.ofOption (Word.sub endPos start)
    if actualLen = 0 then pure []
    else do
      let startChunk ← Act.ofOption (getChunkIndexFromInfos W s start)
      let endChunk ← Act.ofOption (getChunkIndexFromInfos W s (endPos - 1))
      let fetchedChunks ← callback fetch (s.requiredHashes startChunk endChunk)
      let bytes ← Act.ofRun (decryptPresent P s (.ofList fetchedChunks)
        (List.range' startChunk (endChunk + 1 - startChunk)))
      let startChunkPos ← Act.ofOption (getChunkStartPosition W s startChunk)
      let internalOffset ← Act.ofOption (Word.sub start startChunkPos)
      Act.ofOption (extractRange W bytes internalOffset actualLen)

/-! ## No step stops -/

section Equal

variable {W} {P} {fetch}

theorem getN1N2_eq (i n : ℕ) : getN1N2 i n = some (Autonomi.getN1N2 i n) := by
  unfold getN1N2 Autonomi.getN1N2
  split_ifs with h3 hi
  · rfl
  · rfl
  · rcases i with _ | _ | i
    · simp only [Word.sub_of_le (show 1 ≤ n by omega), Word.sub_of_le (show 2 ≤ n by omega)]
      rfl
    · simp only [Word.sub_of_le (show 1 ≤ n by omega)]
      rfl
    · simp only [Word.sub_of_le (show 1 ≤ i + 1 + 1 by omega),
        Word.sub_of_le (show 2 ≤ i + 1 + 1 by omega)]
      rfl

theorem decryptChunk_eq (i : ℕ) (content : Bytes) (hashes : List XorName) (level : ℕ) :
    decryptChunk P i content hashes level = some (Autonomi.decryptChunk P i content hashes level) := by
  have hpki : getPadKeyAndNonce P i hashes level =
      some (Autonomi.getPadKeyAndNonce P i hashes level) := by
    refine Run.bind_eq_some (getN1N2_eq i hashes.length) fun n _ => ?_
    exact Run.bind_eq_some rfl fun s _ => Run.bind_eq_some rfl fun a _ =>
      Run.bind_eq_some rfl fun b _ => rfl
  exact Run.bind_eq_some hpki fun pki _ => Run.bind_eq_some rfl fun decrypted _ => rfl

theorem decryptFullSet_eq (map : DataMap) (chunks : List EncryptedChunk) :
    decryptFullSet P map chunks = some (Autonomi.decryptFullSet P map chunks) := by
  refine Run.bind_eq_some rfl fun sorted _ => ?_
  exact Run.bind_eq_some (Run.mapM_eq_some fun chunk _ => decryptChunk_eq ..) fun decrypted _ => rfl

/-- **The depth limit** stops the recursion before the fuel is used up. -/
theorem innerGetRootMap_eq (hW : 101 < W) {getChunk : XorName → Except Error Bytes} :
    ∀ {fuel depth : ℕ} {cache : Lookup XorName Bytes} {map : DataMap}, depth ≤ 101 →
    101 - depth < fuel → innerGetRootMap W P getChunk fuel depth cache map =
      some (Autonomi.innerGetRootMap P getChunk (101 - depth) cache map)
  | 0, _, _, _, _, hfuel => absurd hfuel (Nat.not_lt_zero _)
  | fuel + 1, depth, cache, map, hdepth, hfuel => by
    rw [innerGetRootMap]
    split_ifs with hlimit hchild
    · obtain rfl : depth = 101 := by omega
      rfl
    · obtain ⟨left, hleft⟩ := Nat.exists_eq_add_of_lt (show depth < 101 by omega)
      rw [show 101 - depth = left + 1 by omega, Autonomi.innerGetRootMap, if_neg (by simpa using hchild)]
      refine Run.bind_eq_some rfl fun fetched _ => ?_
      refine Run.bind_eq_some (decryptFullSet_eq _ _) fun bytes _ => ?_
      refine Run.bind_eq_some rfl fun parent _ => ?_
      have hadd : depth + 1 < W := by omega
      rw [Word.add_of_lt hadd, show left = 101 - (depth + 1) by omega]
      exact innerGetRootMap_eq hW (by omega) (by omega)
    · rw [show 101 - depth = 101 - (depth + 1) + 1 by omega, Autonomi.innerGetRootMap, if_pos hchild]
      rfl

/-- **Decryption from a list** never stops the program, and goes through at most 102 maps. -/
theorem decrypt_eq (hW : 101 < W) (map : DataMap) (chunks : List EncryptedChunk) :
    decrypt W P 102 map chunks = some (Autonomi.decrypt P map chunks) := by
  unfold decrypt Autonomi.decrypt
  split_ifs
  · refine Run.bind_eq_some (innerGetRootMap_eq hW (Nat.zero_le _) (by omega)) fun root _ => ?_
    exact Run.bind_eq_some rfl fun found _ => decryptFullSet_eq _ _
  · refine Run.bind_eq_some rfl fun root _ => ?_
    exact Run.bind_eq_some rfl fun found _ => decryptFullSet_eq _ _

theorem innerGetRootMapParallel_eq (hW : 101 < W) :
    ∀ {fuel depth : ℕ} {cache : Lookup XorName Bytes} {map : DataMap} {calls : ℕ}, depth ≤ 101 →
    101 - depth < fuel → innerGetRootMapParallel W P fetch fuel depth cache map calls =
      some (Autonomi.innerGetRootMapParallel P fetch (101 - depth) cache map calls)
  | 0, _, _, _, _, _, hfuel => absurd hfuel (Nat.not_lt_zero _)
  | fuel + 1, depth, cache, map, calls, hdepth, hfuel => by
    rw [innerGetRootMapParallel]
    split_ifs with hlimit hchild
    · obtain rfl : depth = 101 := by omega
      rfl
    · obtain ⟨left, hleft⟩ := Nat.exists_eq_add_of_lt (show depth < 101 by omega)
      rw [show 101 - depth = left + 1 by omega, Autonomi.innerGetRootMapParallel,
        if_neg (by simpa using hchild)]
      refine Run.bind_eq_some rfl fun fetched _ => ?_
      obtain ⟨cache', calls'⟩ := fetched
      simp only [stateT_lift_bind]
      refine Run.bind_eq_some rfl fun chunks _ => ?_
      refine Run.bind_eq_some (decryptFullSet_eq _ _) fun bytes _ => ?_
      refine Run.bind_eq_some rfl fun parent _ => ?_
      have hadd : depth + 1 < W := by omega
      rw [Word.add_of_lt hadd, show left = 101 - (depth + 1) by omega]
      exact innerGetRootMapParallel_eq hW (by omega) (by omega)
    · rw [show 101 - depth = 101 - (depth + 1) + 1 by omega, Autonomi.innerGetRootMapParallel,
        if_pos hchild]
      rfl

/-- **A stream is opened** without a stop, after at most 102 maps. -/
theorem streamingDecrypt_eq (hW : 101 < W) (map : DataMap) :
    streamingDecrypt W P fetch 102 map = some (Autonomi.streamingDecrypt P fetch map) := by
  unfold streamingDecrypt Autonomi.streamingDecrypt DecryptionStream.new
  split_ifs
  · exact Run.bind_eq_some (innerGetRootMapParallel_eq hW (Nat.zero_le _) (by omega)) fun root _ => rfl
  · rfl

theorem decryptBatch_eq : ∀ batch : List (ChunkInfo × (ℕ × Bytes)),
    decryptBatch P batch = Autonomi.decryptBatch P batch
  | [] => rfl
  | (info, (_, content)) :: batch => by
    simp only [decryptBatch, Autonomi.decryptBatch, decryptChunk_eq, Act.ofRun_some,
      decryptBatch_eq batch]

/-! ## Positions -/

theorem fileSize_eq (hW : 0 < W) (s : DecryptionStream) :
    fileSize W s = if s.fileSize < W then some s.fileSize else none :=
  Word.foldlM_add ChunkInfo.srcSize s.chunkInfos hW

theorem findPosition_eq {position : ℕ} : ∀ {infos : List ChunkInfo} {acc : ℕ},
    infos.foldl (fun acc chunk => acc + chunk.srcSize) acc < W →
    findPosition W position acc infos = some (DecryptionStream.findPosition position acc infos)
  | [], _, _ => rfl
  | info :: infos, acc, h => by
    have hle := Word.le_foldl_add ChunkInfo.srcSize infos (acc + info.srcSize)
    rw [List.foldl_cons] at h
    have hadd : Word.add W acc info.srcSize = some (acc + info.srcSize) :=
      Word.add_of_lt (hle.trans_lt h)
    have ih : findPosition W position (acc + info.srcSize) infos = _ := findPosition_eq h
    rw [findPosition, DecryptionStream.findPosition, hadd]
    by_cases hacc : acc ≤ position
    · by_cases hnext : position < acc + info.srcSize
      · simp [hacc, hnext]
      · simp [hacc, hnext, ih]
    · simp [hacc, ih]

theorem getChunkIndexFromInfos_eq {s : DecryptionStream} (h : s.fileSize < W) (position : ℕ) :
    getChunkIndexFromInfos W s position = some (s.getChunkIndexFromInfos position) := by
  rw [getChunkIndexFromInfos, findPosition_eq h, DecryptionStream.getChunkIndexFromInfos]
  cases DecryptionStream.findPosition position 0 s.chunkInfos <;> rfl

/-- A position of the file is in some chunk. -/
theorem exists_findPosition {position : ℕ} : ∀ {infos : List ChunkInfo} {acc : ℕ}, acc ≤ position →
    position < infos.foldl (fun acc chunk => acc + chunk.srcSize) acc →
    ∃ i, DecryptionStream.findPosition position acc infos = some i
  | [], acc, hacc, h => absurd h (Nat.not_lt_of_le hacc)
  | info :: infos, acc, hacc, h => by
    rw [DecryptionStream.findPosition]
    by_cases hnext : position < acc + info.srcSize
    · exact ⟨info.index, if_pos ⟨hacc, hnext⟩⟩
    · rw [if_neg fun h => hnext h.2]
      exact exists_findPosition (Nat.le_of_not_lt hnext) h

/-- In sorted infos the chunks with smaller indices lie before the position, also where indices
    are missing or come twice. -/
theorem foldl_filter_le {position i : ℕ} : ∀ {infos : List ChunkInfo} {acc : ℕ},
    infos.Pairwise (fun a b => a.index ≤ b.index) → acc ≤ position →
    DecryptionStream.findPosition position acc infos = some i →
    (infos.filter fun info => info.index < i).foldl (fun acc chunk => acc + chunk.srcSize) acc ≤ position
  | [], _, _, _, h => nomatch h
  | info :: infos, acc, hsorted, hacc, h => by
    obtain ⟨hfirst, hsorted⟩ := List.pairwise_cons.1 hsorted
    rw [DecryptionStream.findPosition] at h
    split_ifs at h with hwithin
    · obtain rfl := Option.some.inj h
      have hnone : (info :: infos).filter (fun c => c.index < info.index) = [] := by
        refine List.filter_eq_nil_iff.2 fun c hc => ?_
        rcases List.mem_cons.1 hc with rfl | hc
        · simp
        · simpa using hfirst c hc
      rw [hnone]
      exact hacc
    · have ih := foldl_filter_le hsorted (show acc + info.srcSize ≤ position by omega) h
      rw [List.filter_cons]
      split_ifs
      · exact ih
      · exact (Word.foldl_add_mono _ _ (Nat.le_add_right _ _)).trans ih

theorem getChunkStartPosition_le {s : DecryptionStream}
    (hsorted : s.chunkInfos.Pairwise fun a b => a.index ≤ b.index) {position : ℕ}
    (h : position < s.fileSize) :
    s.getChunkStartPosition (s.getChunkIndexFromInfos position) ≤ position := by
  obtain ⟨i, hi⟩ := exists_findPosition (Nat.zero_le position) h
  have heq : s.getChunkIndexFromInfos position = i := by
    rw [DecryptionStream.getChunkIndexFromInfos, hi]
  rw [heq]
  exact foldl_filter_le hsorted (Nat.zero_le position) hi

theorem getChunkStartPosition_eq {s : DecryptionStream} {i : ℕ}
    (h : s.getChunkStartPosition i < W) :
    getChunkStartPosition W s i = some (s.getChunkStartPosition i) :=
  (Word.foldlM_add ChunkInfo.srcSize _ (Nat.zero_lt_of_lt h)).trans (if_pos h)

/-! ## A range -/

theorem extractRange_eq {bytes : Bytes} {offset len : ℕ} (h : offset + len < W) :
    extractRange W bytes offset len = some (Autonomi.extractRange bytes offset len) := by
  unfold extractRange Autonomi.extractRange
  split_ifs with hle
  · rfl
  · have hle : offset ≤ bytes.length := (Nat.lt_of_not_le hle).le
    have hadd : offset + min len (bytes.length - offset) < W := by omega
    simp only [Word.sub_of_le hle, Word.add_of_lt hadd, Option.bind_eq_bind, Option.bind_some]
    exact Word.range_of_le (Nat.le_add_right _ _) (by omega)

theorem decryptPresent_eq (s : DecryptionStream) (chunkMap : Lookup ℕ Bytes) (indices : List ℕ) :
    decryptPresent P s chunkMap indices = some (Autonomi.decryptPresent P s chunkMap indices) := by
  refine Run.foldlM_eq_some fun bytes i => ?_
  unfold appendPresent Autonomi.appendPresent
  cases chunkMap i with
  | none => rfl
  | some content => exact Run.bind_eq_some (decryptChunk_eq ..) fun decrypted _ => rfl

/-- Nothing stops the reading of a range of a file whose size fits, up to an end that fits. -/
theorem getRange_eq {s : DecryptionStream}
    (hsorted : s.chunkInfos.Pairwise fun a b => a.index ≤ b.index) {start len : ℕ}
    (hsize : s.fileSize < W) (hend : s.fileSize ≤ start ∨ start + len < W) :
    getRange W P fetch start len s = Autonomi.getRange P fetch start len s := by
  rw [getRange, Autonomi.getRange, Act.get_bind, Act.get_bind, fileSize_eq (Nat.zero_lt_of_lt hsize),
    if_pos hsize, Act.ofOption_bind]
  by_cases hstart : s.fileSize ≤ start
  · rw [if_pos hstart, if_pos hstart]
  rw [if_neg hstart, if_neg hstart, Word.add_of_lt (hend.resolve_left hstart), Act.ofOption_bind,
    Word.sub_of_le (show start ≤ min (start + len) s.fileSize by omega), Act.ofOption_bind]
  by_cases hlen : min (start + len) s.fileSize - start = 0
  · rw [if_pos hlen, if_pos hlen]
  rw [if_neg hlen, if_neg hlen, getChunkIndexFromInfos_eq hsize, getChunkIndexFromInfos_eq hsize,
    Act.ofOption_bind, Act.ofOption_bind]
  have hpos := getChunkStartPosition_le hsorted (Nat.lt_of_not_le hstart)
  have hlt : s.getChunkStartPosition (s.getChunkIndexFromInfos start) < W := by omega
  refine Act.bind_congr_right fun fetched s₁ => ?_
  rw [decryptPresent_eq, Act.ofRun_some]
  refine Act.bind_congr_right fun bytes s₂ => ?_
  rw [getChunkStartPosition_eq hlt, Act.ofOption_bind, Word.sub_of_le hpos, Act.ofOption_bind,
    extractRange_eq (by omega)]
  rfl

/-- Else the program stops. -/
theorem getRange_eq_none (hW : 0 < W) {s : DecryptionStream} {start len : ℕ}
    (h : ¬ (s.fileSize < W ∧ (s.fileSize ≤ start ∨ start + len < W))) :
    getRange W P fetch start len s = none := by
  rw [getRange, Act.get_bind, fileSize_eq hW]
  by_cases hsize : s.fileSize < W
  · obtain ⟨hstart, hend⟩ := not_or.1 (not_and.1 h hsize)
    rw [if_pos hsize, Act.ofOption_bind, if_neg hstart, Word.add, if_neg hend]
    exact Act.ofOption_none_bind _
  · rw [if_neg hsize]
    exact Act.ofOption_none_bind _

end Equal

end Checked

end Autonomi
