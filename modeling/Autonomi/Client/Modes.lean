/-
  Uploads with a payment mode (`ant-core/src/data/client/data.rs`, `file.rs`): one
  merkle payment for all chunks or payments in waves.
-/
import Autonomi.Client.Data
import Autonomi.Client.Merkle

namespace Autonomi.AntClient

open Lib AntNode

def uploadWaveSize : ℕ := 64

/-! ## The spill -/

/-- Chunks written to disk, under their addresses. -/
structure ChunkSpill where
  addresses : List XorName
  files : Lookup XorName Bytes
  totalBytes : ℕ

/-- The chunks that the encryption of a file sends, and how it ends. -/
structure FileEncryption where
  chunks : List Bytes
  result : Except Error DataMap

structure FileUploadResult where
  dataMap : DataMap
  chunksStored : ℕ
  paymentModeUsed : PaymentMode

variable (P : Primitives)

namespace ChunkSpill

def new : ChunkSpill := ⟨[], .empty, 0⟩

/-- A chunk that is there already is skipped; `writeError` is the answer of the disk. -/
def push (writeError : XorName → Option String) (spill : ChunkSpill) (content : Bytes) :
    Except Error ChunkSpill :=
  let address := computeAddress P content
  if address ∈ spill.addresses then .ok spill
  else match writeError address with
    | some e => .error (.io e)
    | none => .ok ⟨spill.addresses ++ [address], spill.files.insert address content,
        spill.totalBytes + content.length⟩

variable (spill : ChunkSpill)

def avgChunkSize : UInt64 :=
  if spill.addresses.isEmpty then 0 else UInt64.ofNat (spill.totalBytes / spill.addresses.length)

def readChunk (readError : XorName → Option String) (address : XorName) : Except Error Bytes :=
  match readError address with
  | some e => .error (.io s!"reading spilled chunk {hexEncode address}: {e}")
  | none => okOr (.io s!"reading spilled chunk {hexEncode address}: not found") (spill.files address)

def waves : List (List XorName) := chunked uploadWaveSize spill.addresses

def readWave (readError : XorName → Option String) (waveAddrs : List XorName) :
    Except Error (List (Bytes × XorName)) :=
  waveAddrs.mapM fun addr => do
    let content ← spill.readChunk readError addr
    pure (content, addr)

end ChunkSpill

/-- What an upload meets after its merkle payment, if it makes one: for each of its waves on disk what
    the waves of payment meet, and the stores with merkle proofs. -/
structure UploadTurn where
  readError : XorName → Option String
  wave : ℕ → ℕ → Turn
  store : ℕ → MerkleStoreTurn

variable (C : MerkleEvm) (client : Client) (mode : PaymentMode) (merkle : ℕ → MerkleTurn)
  (u : UploadTurn)

/-! ## In memory -/

def avgSize (chunkContents : List Bytes) : UInt64 :=
  UInt64.ofNat ((chunkContents.map List.length).sum / max chunkContents.length 1)

/-- The chunks paid for in waves. -/
def dataUploadSingle (dataMap : DataMap) (chunkContents : List Bytes) : Upload DataUploadResult := do
  let addresses ← batchUploadChunks P C.toClientEvm client paymentWaves (u.wave 0) chunkContents
  pure ⟨dataMap, addresses.length, .single⟩

/-- Goes on with what `pay` returns, or falls back if it is short of peers and the mode is `Auto`. -/
def payOrFallBack {α : Type} (pay : Upload MerkleBatchPaymentResult) (fallback : Upload α)
    (upload : MerkleBatchPaymentResult → Upload α) : Upload α :=
  ExceptT.mk fun log =>
    match pay log with
    | none => none
    | some (.ok batchResult, log) => upload batchResult log
    | some (.error (.insufficientPeers msg), log) =>
      if mode = .auto then fallback log else some (.error (.insufficientPeers msg), log)
    | some (.error e, log) => some (.error e, log)

/-- `encrypted` is what the encryption of the data returns. -/
def dataUploadWithMode (encrypted : Except Error (DataMap × List Bytes)) : Upload DataUploadResult := do
  let (dataMap, chunkContents) ← Act.ofExcept encrypted
  if shouldUseMerkle chunkContents.length mode then
    let addresses := chunkContents.map (computeAddress P)
    payOrFallBack mode
      (payForMerkleBatch C client addresses dataTypeChunk (avgSize chunkContents) merkle)
      (dataUploadSingle P C client u dataMap chunkContents)
      fun batchResult => do
        let chunksStored ← Act.ofExcept
          (merkleUploadChunks C client P (u.store 0) chunkContents addresses batchResult)
        pure ⟨dataMap, chunksStored, .merkle⟩
  else dataUploadSingle P C client u dataMap chunkContents

/-! ## From a file -/

def encryptFileToSpill (writeError : XorName → Option String) (encryption : FileEncryption) :
    Except Error (ChunkSpill × DataMap) := do
  let spill ← encryption.chunks.foldlM (ChunkSpill.push P writeError) .new
  let dataMap ← encryption.result
  pure (spill, dataMap)

/-- One wave from disk, paid for in waves. -/
def uploadWaveSingle (spill : ChunkSpill) (totalStored : ℕ) (wave : List XorName × ℕ) : Upload ℕ := do
  let waveData ← Act.ofExcept (wave.1.mapM (spill.readChunk u.readError))
  let addresses ← batchUploadChunks P C.toClientEvm client paymentWaves (u.wave wave.2) waveData
  pure (totalStored + addresses.length)

def uploadWavesSingle (spill : ChunkSpill) : Upload ℕ :=
  spill.waves.zipIdx.foldlM (uploadWaveSingle P C client u spill) 0

def uploadWaveMerkle (spill : ChunkSpill) (batchResult : MerkleBatchPaymentResult) (totalStored : ℕ)
    (wave : List XorName × ℕ) : Except Error ℕ := do
  let wave' ← spill.readWave u.readError wave.1
  let stored ← merkleUploadChunks C client P (u.store wave.2) (wave'.map Prod.fst)
    (wave'.map Prod.snd) batchResult
  pure (totalStored + stored)

def uploadWavesMerkle (spill : ChunkSpill) (batchResult : MerkleBatchPaymentResult) :
    Except Error ℕ :=
  spill.waves.zipIdx.foldlM (uploadWaveMerkle P C client u spill batchResult) 0

def fileUploadSingle (dataMap : DataMap) (spill : ChunkSpill) : Upload FileUploadResult := do
  let stored ← uploadWavesSingle P C client u spill
  pure ⟨dataMap, stored, .single⟩

def fileUploadWithMode (spilled : Except Error (ChunkSpill × DataMap)) : Upload FileUploadResult := do
  let (spill, dataMap) ← Act.ofExcept spilled
  if shouldUseMerkle spill.addresses.length mode then
    payOrFallBack mode
      (payForMerkleBatch C client spill.addresses dataTypeChunk spill.avgChunkSize merkle)
      (fileUploadSingle P C client u dataMap spill)
      fun batchResult => do
        let stored ← Act.ofExcept (uploadWavesMerkle P C client u spill batchResult)
        pure ⟨dataMap, stored, .merkle⟩
  else fileUploadSingle P C client u dataMap spill

/-! ## What the spill holds -/

variable {P} {spill : ChunkSpill} {u}

/-- Every address has its chunk, once. -/
structure ChunkSpill.Holds (P : Primitives) (spill : ChunkSpill) : Prop where
  nodup : spill.addresses.Nodup
  files : ∀ a ∈ spill.addresses, ∃ content, spill.files a = some content ∧
    computeAddress P content = a

/-- A chunk is there already, or it is added. -/
theorem ChunkSpill.push_eq_ok {spill' : ChunkSpill} {writeError : XorName → Option String}
    {content : Bytes} (h : spill.push P writeError content = .ok spill') :
    computeAddress P content ∈ spill.addresses ∧ spill' = spill ∨
      computeAddress P content ∉ spill.addresses ∧
        spill' = ⟨spill.addresses ++ [computeAddress P content],
          spill.files.insert (computeAddress P content) content, spill.totalBytes + content.length⟩ := by
  unfold ChunkSpill.push at h
  dsimp only at h
  split_ifs at h with hmem
  · exact .inl ⟨hmem, (Except.ok.inj h).symm⟩
  · split at h
    · cases h
    · exact .inr ⟨hmem, (Except.ok.inj h).symm⟩

theorem ChunkSpill.Holds.push {spill spill' : ChunkSpill} {writeError : XorName → Option String}
    {content : Bytes} (h : spill.Holds P) (hpush : spill.push P writeError content = .ok spill') :
    spill'.Holds P := by
  rcases ChunkSpill.push_eq_ok hpush with ⟨-, rfl⟩ | ⟨hmem, rfl⟩
  · exact h
  constructor
  · refine List.Nodup.append h.nodup (List.nodup_singleton _) ?_
    rwa [List.disjoint_singleton]
  · intro a ha
    by_cases hself : a = computeAddress P content
    · subst hself
      exact ⟨content, Lookup.insert_self .., rfl⟩
    · obtain ⟨content', hfile, haddress⟩ := h.files a (by simpa [hself] using ha)
      exact ⟨content', (Lookup.insert_ne _ _ hself).trans hfile, haddress⟩

theorem encryptFileToSpill_eq_ok {writeError : XorName → Option String}
    {encryption : FileEncryption} {spill : ChunkSpill} {dataMap : DataMap}
    (h : encryptFileToSpill P writeError encryption = .ok (spill, dataMap)) : spill.Holds P := by
  simp only [encryptFileToSpill, bind_eq_ok] at h
  obtain ⟨spill', hfold, _, -, h⟩ := h
  cases h
  have hnew : ChunkSpill.new.Holds P := ⟨List.nodup_nil, nofun⟩
  revert hfold hnew
  generalize ChunkSpill.new = s
  induction encryption.chunks generalizing s with
  | nil =>
    rintro ⟨⟩ hnew
    exact hnew
  | cons content chunks ih =>
    intro hfold hnew
    rw [List.foldlM_cons, bind_eq_ok] at hfold
    obtain ⟨s', hpush, hfold⟩ := hfold
    exact ih s' hfold (hnew.push hpush)

/-- What is spilled: the chunks that come, under their addresses. -/
theorem foldlM_push {spill' : ChunkSpill} {writeError : XorName → Option String}
    {contents : List Bytes} (h : contents.foldlM (ChunkSpill.push P writeError) spill = .ok spill') :
    (∀ a ∈ spill.addresses, a ∈ spill'.addresses) ∧
      (∀ content ∈ contents, computeAddress P content ∈ spill'.addresses) ∧
      ∀ a content, spill'.files a = some content →
        spill.files a = some content ∨ content ∈ contents ∧ computeAddress P content = a := by
  induction contents generalizing spill with
  | nil =>
    obtain rfl := Except.ok.inj h
    exact ⟨fun _ ha => ha, nofun, fun _ _ => .inl⟩
  | cons content contents ih =>
    rw [List.foldlM_cons, bind_eq_ok] at h
    obtain ⟨s, hpush, hrest⟩ := h
    obtain ⟨hmono, haddresses, hfiles⟩ := ih hrest
    have hpushed : (∀ a ∈ spill.addresses, a ∈ s.addresses) ∧
        computeAddress P content ∈ s.addresses ∧
        ∀ a b, s.files a = some b →
          spill.files a = some b ∨ b = content ∧ computeAddress P content = a := by
      rcases ChunkSpill.push_eq_ok hpush with ⟨hmem, rfl⟩ | ⟨-, rfl⟩
      · exact ⟨fun _ ha => ha, hmem, fun _ _ => .inl⟩
      refine ⟨fun a ha => List.mem_append_left _ ha, by simp, fun a b hb => ?_⟩
      by_cases ha : a = computeAddress P content
      · subst ha
        exact .inr ⟨(Option.some.inj ((Lookup.insert_self ..).symm.trans hb)).symm, rfl⟩
      · exact .inl ((Lookup.insert_ne _ _ ha).symm.trans hb)
    refine ⟨fun a ha => hmono a (hpushed.1 a ha), fun b hb => ?_, fun a b hb => ?_⟩
    · rcases List.mem_cons.1 hb with rfl | hb
      · exact hmono _ hpushed.2.1
      · exact haddresses b hb
    · rcases hfiles a b hb with hb | hb
      · rcases hpushed.2.2 a b hb with hb | ⟨rfl, ha⟩
        · exact .inl hb
        · exact .inr ⟨List.mem_cons_self, ha⟩
      · exact .inr ⟨List.mem_cons_of_mem _ hb.1, hb.2⟩

/-- **The spill of an encryption** has its chunks, each under its address, and nothing else. -/
theorem files_encryptFileToSpill {writeError : XorName → Option String} {encryption : FileEncryption}
    {map : DataMap} (h : encryptFileToSpill P writeError encryption = .ok (spill, map)) :
    encryption.result = .ok map ∧
      (∀ content ∈ encryption.chunks, ∃ b, spill.files (computeAddress P content) = some b) ∧
      ∀ a b, spill.files a = some b → b ∈ encryption.chunks ∧ computeAddress P b = a := by
  have hholds := encryptFileToSpill_eq_ok h
  simp only [encryptFileToSpill, bind_eq_ok] at h
  obtain ⟨spill', hfold, map', hresult, h⟩ := h
  cases h
  obtain ⟨-, haddresses, hfiles⟩ := foldlM_push hfold
  refine ⟨hresult, fun content hcontent => ?_, fun a b hb => ?_⟩
  · obtain ⟨b, hb, -⟩ := hholds.files _ (haddresses content hcontent)
    exact ⟨b, hb⟩
  · rcases hfiles a b hb with hb | hb
    · cases hb
    · exact hb

/-- What is read back is the wave that was spilled. -/
theorem ChunkSpill.Holds.read (h : spill.Holds P) {wave : List XorName} {waveData : List Bytes}
    (hwave : wave ⊆ spill.addresses)
    (hread : wave.mapM (spill.readChunk u.readError) = .ok waveData) :
    waveData.map (computeAddress P) = wave := by
  rw [mapM_eq_ok] at hread
  induction hread with
  | nil => rfl
  | @cons a content wave waveData hcontent _ ih =>
    rw [List.map_cons, ih (List.Subset.trans (List.subset_cons_self ..) hwave)]
    congr 1
    obtain ⟨content', hfile, haddress⟩ := h.files a (hwave (List.mem_cons_self ..))
    unfold ChunkSpill.readChunk at hcontent
    split at hcontent
    · cases hcontent
    · rw [hfile] at hcontent
      cases hcontent
      exact haddress

theorem ChunkSpill.Holds.readable (h : spill.Holds P) {wave : List XorName}
    (hwave : wave ⊆ spill.addresses) (hu : ∀ a, u.readError a = none) :
    ∃ waveData, wave.mapM (spill.readChunk u.readError) = .ok waveData := by
  induction wave with
  | nil => exact ⟨[], rfl⟩
  | cons a wave ih =>
    obtain ⟨waveData, hread⟩ := ih (List.Subset.trans (List.subset_cons_self ..) hwave)
    obtain ⟨content, hfile, -⟩ := h.files a (hwave (List.mem_cons_self ..))
    have hcontent : spill.readChunk u.readError a = .ok content := by
      rw [ChunkSpill.readChunk, hu a, hfile]
      rfl
    exact ⟨content :: waveData, by rw [List.mapM_cons, hcontent, hread]; rfl⟩

end Autonomi.AntClient
