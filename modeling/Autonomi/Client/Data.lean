/-
  In-memory upload and download (`ant-core/src/data/client/data.rs`).
-/
import Autonomi.Client.Upload
import Autonomi.SelfEncryption.RoundTrip

namespace Autonomi

open Lib

variable (P : Primitives) (m : ℕ) (S : Services)

inductive PaymentMode where
  | auto
  | merkle
  | single
  deriving DecidableEq

structure DataUploadResult where
  dataMap : DataMap
  chunksStored : ℕ
  paymentModeUsed : PaymentMode

structure PaymentIntent where
  payments : List (QuoteHash × RewardsAddress × ℕ)
  totalAmount : ℕ

structure PreparedUpload where
  dataMap : DataMap
  preparedChunks : List PreparedChunk
  paymentIntent : PaymentIntent

/-! ## Upload -/

def defaultMerkleThreshold : ℕ := 64

def shouldUseMerkle (chunkCount : ℕ) : PaymentMode → Bool
  | .auto => defaultMerkleThreshold ≤ chunkCount
  | .merkle => 2 ≤ chunkCount
  | .single => false

/-- The first step of every upload. -/
def encryptContent (fuel : ℕ) (content : Bytes) : Run ClientError (DataMap × List Bytes) := do
  let (dataMap, encryptedChunks) ← Run.mapError
    (fun e => .encryption s!"Failed to encrypt data: {e.text}") (encrypt P m fuel content)
  pure (dataMap, encryptedChunks.map EncryptedChunk.content)

def uploadSingle (dataMap : DataMap) (chunkContents : List Bytes) : Client DataUploadResult := do
  let addresses ← batchUploadChunks P S chunkContents
  pure ⟨dataMap, addresses.length, .single⟩

def dataUpload (fuel : ℕ) (content : Bytes) : Run ClientError (DataUploadResult × List Bytes) := do
  let (dataMap, chunkContents) ← encryptContent P m fuel content
  (uploadSingle P S dataMap chunkContents [] : Except ClientError _)

def uploadMerkle (mode : PaymentMode) (dataMap : DataMap) (chunkContents : List Bytes) :
    Client DataUploadResult :=
  let addresses := chunkContents.map (computeAddress P)
  let avgSize := (chunkContents.map List.length).sum / max chunkContents.length 1
  match S.payForMerkleBatch addresses avgSize with
  | .ok proofs => do
    let chunksStored ← merkleUploadChunks P S chunkContents addresses (.ofList proofs)
    pure ⟨dataMap, chunksStored, .merkle⟩
  | .error (.insufficientPeers msg) =>
    -- in `Auto` mode, back to payment chunk by chunk
    if mode = .auto then uploadSingle P S dataMap chunkContents
    else throw (.insufficientPeers msg)
  | .error e => throw e

def dataUploadWithMode (fuel : ℕ) (content : Bytes) (mode : PaymentMode) :
    Run ClientError (DataUploadResult × List Bytes) := do
  let (dataMap, chunkContents) ← encryptContent P m fuel content
  let upload := if shouldUseMerkle chunkContents.length mode then
      uploadMerkle P S mode dataMap chunkContents
    else uploadSingle P S dataMap chunkContents
  (upload [] : Except ClientError _)

def PaymentIntent.fromPreparedChunks (prepared : List PreparedChunk) : PaymentIntent :=
  let payments := (prepared.flatMap PreparedChunk.quotes).filter fun info => info.amount ≠ 0
  ⟨payments.map fun info => (info.quoteHash, info.rewardsAddress, info.amount),
    (payments.map QuotePaymentInfo.amount).sum⟩

def dataPrepareUpload (fuel : ℕ) (content : Bytes) :
    Run ClientError (PreparedUpload × List Bytes) := do
  let (dataMap, chunkContents) ← encryptContent P m fuel content
  let (prepared, stored) ← (chunkContents.mapM (prepareChunkPayment P S) [] : Except ClientError _)
  let preparedChunks := prepared.reduceOption
  pure (⟨dataMap, preparedChunks, .fromPreparedChunks preparedChunks⟩, stored)

def finalizeUpload (prepared : PreparedUpload) (txHashMap : Lookup QuoteHash TxHash) :
    Client DataUploadResult := do
  let paidChunks ← finalizeBatchPayment S prepared.preparedChunks txHashMap
  let addresses ← storePaidChunks P S paidChunks
  pure ⟨prepared.dataMap, addresses.length, .single⟩

/-- **The three ways to upload**: `dataMap` is what the caller gets, `stored` what the network
    then holds of the upload. -/
inductive Uploads (fuel : ℕ) (content : Bytes) : DataMap → List Bytes → Prop
  | upload {r : DataUploadResult} {stored : List Bytes}
      (h : dataUpload P m S fuel content = some (.ok (r, stored))) :
      Uploads fuel content r.dataMap stored
  | withMode {r : DataUploadResult} {stored : List Bytes} {mode : PaymentMode}
      (h : dataUploadWithMode P m S fuel content mode = some (.ok (r, stored))) :
      Uploads fuel content r.dataMap stored
  | external {prepared : PreparedUpload} {r : DataUploadResult} {stored stored' : List Bytes}
      {txHashMap : Lookup QuoteHash TxHash}
      (h : dataPrepareUpload P m S fuel content = some (.ok (prepared, stored)))
      (h' : finalizeUpload P S prepared txHashMap stored = .ok (r, stored')) :
      Uploads fuel content r.dataMap stored'

/-! ## Download -/

def downloadChunk (chunkGet : XorName → Except ClientError (Option Bytes)) (address : XorName) :
    Except ClientError EncryptedChunk := do
  let chunk ← chunkGet address
  let content ← okOr
    (.invalidData s!"Missing chunk {hexEncode address} required for data reconstruction") chunk
  pure ⟨content⟩

def dataDownload (chunkGet : XorName → Except ClientError (Option Bytes)) (dataMap : DataMap) :
    Except ClientError Bytes := do
  let addresses := dataMap.infos.map ChunkInfo.dstHash
  let encryptedChunks ← addresses.mapM (downloadChunk chunkGet)
  (decrypt P dataMap encryptedChunks).mapError fun e =>
    .encryption s!"Failed to decrypt data: {e.text}"

/-- A network that holds exactly `stored`. -/
def network (stored : List Bytes) (address : XorName) : Except ClientError (Option Bytes) :=
  .ok ((chunkMapOf P (stored.map EncryptedChunk.mk) address).map EncryptedChunk.content)

/-! ## What an upload leaves -/

variable {P m S} {fuel : ℕ} {content : Bytes} {map : DataMap} {stored : List Bytes}

theorem encryptContent_eq_ok {contents : List Bytes} :
    encryptContent P m fuel content = some (.ok (map, contents)) ↔
      ∃ chunks, encrypt P m fuel content = some (.ok (map, chunks)) ∧
        contents = chunks.map EncryptedChunk.content := by
  simp only [encryptContent, Run.bind_eq_ok, Run.mapError_eq_ok, Run.pure_eq_ok]
  constructor
  · rintro ⟨⟨map', chunks⟩, h, he⟩
    obtain ⟨rfl, rfl⟩ := Prod.mk.inj he
    exact ⟨chunks, h, rfl⟩
  · rintro ⟨chunks, h, rfl⟩; exact ⟨(map, chunks), h, rfl⟩

theorem uploadSingle_eq_ok {contents : List Bytes} {r : DataUploadResult}
    (h : uploadSingle P S map contents [] = .ok (r, stored)) :
    r.dataMap = map ∧ StoresAll P contents stored := by
  simp only [uploadSingle, stateT_bind_eq_ok, stateT_pure_eq_ok] at h
  obtain ⟨_, _, h, rfl, rfl⟩ := h
  exact ⟨rfl, batchUploadChunks_eq_ok h⟩

theorem uploadMerkle_eq_ok {mode : PaymentMode} {contents : List Bytes} {r : DataUploadResult}
    (h : uploadMerkle P S mode map contents [] = .ok (r, stored)) :
    r.dataMap = map ∧ StoresAll P contents stored := by
  simp only [uploadMerkle] at h
  rcases hq : S.payForMerkleBatch (contents.map (computeAddress P))
    ((contents.map List.length).sum / max contents.length 1) with e | proofs
  · cases e
    case insufficientPeers msg =>
      simp only [hq] at h
      split_ifs at h
      · exact uploadSingle_eq_ok h
      · cases h
    all_goals rw [hq] at h; cases h
  · simp only [hq, stateT_bind_eq_ok, stateT_pure_eq_ok] at h
    obtain ⟨_, _, h, rfl, rfl⟩ := h
    rw [merkleUploadChunks_eq_ok h]
    exact ⟨rfl, .of_perm (.refl _)⟩

theorem finalizeUpload_eq_ok {prepared : PreparedUpload} {txs : Lookup QuoteHash TxHash}
    {r : DataUploadResult} {stored' : List Bytes}
    (h : finalizeUpload P S prepared txs stored = .ok (r, stored')) :
    r.dataMap = prepared.dataMap ∧
      stored' = stored ++ prepared.preparedChunks.map PreparedChunk.content := by
  simp only [finalizeUpload, stateT_bind_eq_ok, stateT_lift_eq_ok, stateT_pure_eq_ok] at h
  obtain ⟨_, _, ⟨hp, rfl⟩, _, _, hs, rfl, rfl⟩ := h
  rw [storePaidChunks_eq_ok hs, buildPaidChunks_eq_ok hp]; exact ⟨rfl, rfl⟩

/-- **Every way to upload stores all chunks** of the map it returns. -/
theorem Uploads.storesAll (h : Uploads P m S fuel content map stored) :
    ∃ chunks, encrypt P m fuel content = some (.ok (map, chunks)) ∧
      StoresAll P (chunks.map EncryptedChunk.content) stored := by
  cases h with
  | upload h =>
    simp only [dataUpload, Run.bind_eq_ok, Run.lift_eq_ok] at h
    obtain ⟨⟨map, _⟩, henc, h⟩ := h
    obtain ⟨chunks, hchunks, rfl⟩ := encryptContent_eq_ok.1 henc
    obtain ⟨rfl, h⟩ := uploadSingle_eq_ok h
    exact ⟨chunks, hchunks, h⟩
  | withMode h =>
    simp only [dataUploadWithMode, Run.bind_eq_ok, Run.lift_eq_ok] at h
    obtain ⟨⟨map, _⟩, henc, h⟩ := h
    obtain ⟨chunks, hchunks, rfl⟩ := encryptContent_eq_ok.1 henc
    split_ifs at h
    · obtain ⟨rfl, h⟩ := uploadMerkle_eq_ok h
      exact ⟨chunks, hchunks, h⟩
    · obtain ⟨rfl, h⟩ := uploadSingle_eq_ok h
      exact ⟨chunks, hchunks, h⟩
  | external h h' =>
    simp only [dataPrepareUpload, Run.bind_eq_ok, Run.lift_eq_ok, Run.pure_eq_ok] at h
    obtain ⟨⟨map, _⟩, henc, ⟨prepared, _⟩, hprep, he⟩ := h
    obtain ⟨rfl, rfl⟩ := Prod.mk.inj he
    obtain ⟨chunks, hchunks, rfl⟩ := encryptContent_eq_ok.1 henc
    obtain ⟨hmap, rfl⟩ := finalizeUpload_eq_ok h'
    rw [hmap]
    exact ⟨chunks, hchunks, .of_perm (mapM_prepareChunkPayment hprep)⟩

/-! ## Download after upload -/

theorem StoresAll.mem_iff {chunks : List EncryptedChunk} (hcf : CollisionFree P chunks)
    (h : StoresAll P (chunks.map EncryptedChunk.content) stored) {c : EncryptedChunk} :
    c ∈ stored.map EncryptedChunk.mk ↔ c ∈ chunks := by
  have hsub : ∀ d ∈ stored, EncryptedChunk.mk d ∈ chunks := by
    intro d hd
    obtain ⟨c, hc, rfl⟩ := List.mem_map.1 (h.subset hd)
    exact hc
  constructor
  · intro hc
    obtain ⟨d, hd, rfl⟩ := List.mem_map.1 hc
    exact hsub d hd
  · intro hc
    obtain ⟨d, hd, he⟩ := h.all c.content (List.mem_map_of_mem hc)
    rw [← hcf _ (hsub d hd) c hc he]
    exact List.mem_map_of_mem hd

theorem network_of_mem {chunks : List EncryptedChunk} (hcf : CollisionFree P chunks)
    (h : StoresAll P (chunks.map EncryptedChunk.content) stored) {c : EncryptedChunk}
    (hc : c ∈ chunks) : network P stored (contentHash P c.content) = .ok (some c.content) := by
  have hcf' : CollisionFree P (stored.map EncryptedChunk.mk) :=
    hcf.subset fun _ hc => (h.mem_iff hcf).1 hc
  rw [network, chunkMapOf_of_mem hcf' ((h.mem_iff hcf).2 hc)]; rfl

/-- The chunks that a download fetches are those of the map it is given. -/
theorem dataDownload_infosOf {chunks : List EncryptedChunk} (hcf : CollisionFree P chunks)
    (h : StoresAll P (chunks.map EncryptedChunk.content) stored) {level : ℕ} {data : Bytes}
    (hsub : chunksOf P m level data ⊆ chunks) (child : Option ℕ) :
    dataDownload P (network P stored) ⟨infosOf P m level data, child⟩ =
      (decrypt P ⟨infosOf P m level data, child⟩ (chunksOf P m level data)).mapError fun e =>
        .encryption s!"Failed to decrypt data: {e.text}" := by
  have hfetch : ((infosOf P m level data).map ChunkInfo.dstHash).mapM
      (downloadChunk (network P stored)) = .ok (chunksOf P m level data) := by
    rw [infosOf, chunksOf, List.map_map, mapM_eq_ok, List.forall₂_map_left_iff,
      List.forall₂_map_right_iff, List.forall₂_same]
    intro i hi
    have hnet := network_of_mem hcf h (hsub (mem_chunksOf.2 ⟨i, List.mem_range.1 hi, rfl⟩))
    simp only [Function.comp_apply, downloadChunk, infoAt, hnet, okOr_some, bind, Except.bind, pure,
      Except.pure]
  rw [dataDownload, DataMap.infos_mk]
  simp only [hfetch, bind, Except.bind]

/-- Chunk 3 of the map below is not among the chunks of the returned one. -/
theorem LastLevels.missing {chunks : List EncryptedChunk} {level : ℕ} {data : Bytes}
    (hP : P.Ideal) (hcf : CollisionFree P chunks) (hl : LastLevels P m map chunks level data)
    (hlevel : level < 2 ^ 64) :
    chunkMapOf P (chunksOf P m 1 (DataMap.mk (infosOf P m level data) none).encode)
      (infoAt P m level data 3).dstHash = none := by
  have h3 := hl.three_lt
  have hle := hl.map_le
  rcases hc : chunkMapOf P _ (infoAt P m level data 3).dstHash with _ | c
  · rfl
  · obtain ⟨hmem, hhash⟩ := mem_of_chunkMapOf hc
    have heq := hcf _ (hl.subset_map hmem) _ (hl.subset (mem_chunksOf.2 ⟨3, h3, rfl⟩)) hhash
    obtain ⟨j, hj, rfl⟩ := mem_chunksOf.1 hmem
    refine absurd (EncryptedChunk.mk.inj heq) ?_
    exact encryptChunk_ne hP (by omega) (by omega) (by omega) hlevel (by omega)
      (hl.sealed_map.cipher j hj) (hl.sealed.cipher 3 h3)

/-- **Download after upload**: only the contents of three chunks come back.  A longer
    one has a child map, and the chunks below it are never fetched. -/
theorem dataDownload_iff (hP : P.Ideal) (hd : content.length ≤ isizeMax)
    (h : Uploads P m S fuel content map stored)
    (hcf : ∀ chunks, encrypt P m fuel content = some (.ok (map, chunks)) → CollisionFree P chunks) :
    dataDownload P (network P stored) map = .ok content ↔ getNumChunks m content.length ≤ 3 := by
  obtain ⟨chunks, henc, hs⟩ := h.storesAll
  have hcf := hcf chunks henc
  have henc := encrypts_of_eq_ok henc
  rcases Nat.lt_or_ge 3 (getNumChunks m content.length) with hN | hN
  · refine iff_of_false ?_ (by omega)
    obtain ⟨level, data, hlevel, hl⟩ : ∃ level data, level < 2 ^ 64 ∧
        LastLevels P m map chunks level data := by
      obtain ⟨-, hl⟩ | ⟨-, data, -, hl⟩ := henc.lastLevels hN hd
      · exact ⟨0, content, by omega, hl⟩
      · exact ⟨1, data, by omega, hl⟩
    rw [hl.map_eq, dataDownload_infosOf hcf hs hl.subset_map, mapError_eq_ok,
      decrypt_child hP.toLawful hl.sealed_map hl.fits rfl (hcf.subset hl.subset_map)
        (List.Subset.refl _)]
    exact ne_ok_of_error (decrypt_missing rfl (mem_infosOf.2 ⟨3, hl.three_lt, rfl⟩)
      (hl.missing hP hcf hlevel))
  · refine iff_of_true ?_ hN
    cases henc with
    | root hsealed =>
      rw [dataDownload_infosOf hcf hs (List.Subset.refl _), mapError_eq_ok,
        decrypt_root hcf (List.Subset.refl _)]
      exact hsealed.decryptFullSet_eq hP.toLawful rfl hcf (List.Subset.refl _)
    | shrink _ hN' => omega

/-- Services without prices, that store whatever they get. -/
def freeServices : Services where
  getStoreQuotes _ _ := .ok []
  payForQuotes _ := .ok []
  serializeProof _ _ := .ok []
  payForStorage _ _ := .ok []
  payForMerkleBatch addresses _ := .ok (addresses.map fun address => (address, []))
  closeGroupPut _ _ := .ok ()

/-- Three chunks. -/
theorem dataDownload_300 : ∃ map stored,
    Uploads clear 110 freeServices 1 (List.replicate 300 7) map stored ∧
    (dataDownload clear (network clear stored) map = .ok (List.replicate 300 7) ↔
      getNumChunks 110 300 ≤ 3) := by
  obtain ⟨⟨_, chunks⟩, henc, hcf⟩ := Run.of_okWith (x := encrypt clear 110 1 (List.replicate 300 7))
    (p := fun r => decide (CollisionFree clear r.2)) (by decide +kernel)
  obtain ⟨⟨r, stored⟩, hup, -⟩ := Run.of_okWith
    (x := dataUpload clear 110 freeServices 1 (List.replicate 300 7)) (p := fun _ => true)
    (by decide +kernel)
  have hiff := dataDownload_iff clear_ideal (by rw [List.length_replicate]; decide) (.upload hup)
    (by rintro chunks' h; rw [henc] at h; cases h; exact of_decide_eq_true hcf)
  rw [List.length_replicate] at hiff
  exact ⟨r.dataMap, stored, .upload hup, hiff⟩

/-- Four chunks are stored with the three of their map, and only these three are fetched. -/
theorem not_dataDownload : ∃ map stored,
    Uploads clear 110 freeServices 2 (List.replicate 331 7) map stored ∧
    dataDownload clear (network clear stored) map ≠ .ok (List.replicate 331 7) := by
  obtain ⟨⟨r, stored⟩, hup, hne⟩ := Run.of_okWith
    (x := dataUpload clear 110 freeServices 2 (List.replicate 331 7))
    (p := fun r => decide (dataDownload clear (network clear r.2) r.1.dataMap ≠
      .ok (List.replicate 331 7))) (by decide +kernel)
  rw [decide_eq_true_iff] at hne
  exact ⟨r.dataMap, stored, .upload hup, hne⟩

end Autonomi
