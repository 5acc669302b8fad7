/-
  Paying for chunks and storing them (`ant-core/src/data/client/batch.rs`,
  `merkle.rs`, `chunk.rs`).

  Quotes, the payment contract, the proofs and the storing peers are the
  parameter `S : Services`.  The state of a client action is what the network
  holds of the upload: the contents stored so far, in any order.
-/
import Autonomi.SelfEncryption.Decrypt

namespace Autonomi

open Lib

abbrev QuoteHash := List.Vector UInt8 32
abbrev RewardsAddress := List.Vector UInt8 20
abbrev TxHash := List.Vector UInt8 32

/-- The errors of `data/error.rs` that the modelled functions make or match on. -/
inductive ClientError where
  | encryption (msg : String)
  | serialization (msg : String)
  | invalidData (msg : String)
  | payment (msg : String)
  | insufficientPeers (msg : String)
  | alreadyStored
  | other (msg : String)
  deriving DecidableEq

structure QuotePaymentInfo where
  quoteHash : QuoteHash
  rewardsAddress : RewardsAddress
  amount : ℕ
  deriving DecidableEq

structure PreparedChunk where
  content : Bytes
  address : XorName
  quotes : List QuotePaymentInfo
  deriving DecidableEq

structure PaidChunk where
  content : Bytes
  address : XorName
  proofBytes : Bytes
  deriving DecidableEq

/-- What the network and the payment network answer. -/
structure Services where
  /-- `get_store_quotes`, priced by the contract. -/
  getStoreQuotes : XorName → ℕ → Except ClientError (List QuotePaymentInfo)
  payForQuotes : List QuotePaymentInfo → Except ClientError (List (QuoteHash × TxHash))
  serializeProof : PreparedChunk → List TxHash → Except String Bytes
  payForStorage : XorName → ℕ → Except ClientError Bytes
  payForMerkleBatch : List XorName → ℕ → Except ClientError (List (XorName × Bytes))
  closeGroupPut : Bytes → Bytes → Except ClientError Unit

abbrev Client (α : Type) := StateT (List Bytes) (Except ClientError) α

variable (P : Primitives) (S : Services)

def computeAddress (content : Bytes) : XorName := P.blake3 content

def chunkPutToCloseGroup (content proof : Bytes) : Client XorName := do
  let address := computeAddress P content
  S.closeGroupPut content proof
  modify fun stored => stored ++ [content]
  pure address

/-- One chunk, paid for by itself. -/
def chunkPut (content : Bytes) : Client XorName :=
  let address := computeAddress P content
  match S.payForStorage address content.length with
  | .ok proof => chunkPutToCloseGroup P S content proof
  | .error .alreadyStored => do
    modify fun stored => stored ++ [content]
    pure address
  | .error e => throw e

/-- `none` for a chunk that the network has already. -/
def prepareChunkPayment (content : Bytes) : Client (Option PreparedChunk) :=
  let address := computeAddress P content
  match S.getStoreQuotes address content.length with
  | .ok quotes => pure (some ⟨content, address, quotes⟩)
  | .error .alreadyStored => do
    modify fun stored => stored ++ [content]
    pure none
  | .error e => throw e

def buildPaidChunk (txHashMap : Lookup QuoteHash TxHash) (chunk : PreparedChunk) :
    Except ClientError PaidChunk := do
  let txHashes ← (chunk.quotes.filter fun info => info.amount ≠ 0).mapM fun info =>
    okOr (.payment s!"Missing tx hash for quote {hexEncode info.quoteHash} — external signer did not return a receipt for this payment")
      (txHashMap info.quoteHash)
  let proofBytes ← (S.serializeProof chunk txHashes).mapError fun e =>
    .serialization s!"Failed to serialize payment proof: {e}"
  pure ⟨chunk.content, chunk.address, proofBytes⟩

def buildPaidChunks (prepared : List PreparedChunk) (txHashMap : Lookup QuoteHash TxHash) :
    Except ClientError (List PaidChunk) :=
  prepared.mapM (buildPaidChunk S txHashMap)

def finalizeBatchPayment (prepared : List PreparedChunk) (txHashMap : Lookup QuoteHash TxHash) :
    Except ClientError (List PaidChunk) :=
  buildPaidChunks S prepared txHashMap

def batchPay (prepared : List PreparedChunk) : Except ClientError (List PaidChunk) :=
  if prepared.isEmpty then .ok []
  else do
    let txHashMap ← S.payForQuotes (prepared.flatMap PreparedChunk.quotes)
    buildPaidChunks S prepared (.ofList txHashMap)

def storePaidChunks (paidChunks : List PaidChunk) : Client (List XorName) :=
  paidChunks.mapM fun chunk => chunkPutToCloseGroup P S chunk.content chunk.proofBytes

def prepareWave (chunks : List Bytes) : Client (List PreparedChunk × List XorName) := do
  let results ← chunks.mapM (prepareChunkPayment P S)
  let alreadyStored := ((chunks.map (computeAddress P)).zip results).filterMap fun r =>
    if r.2.isNone then some r.1 else none
  pure (results.reduceOption, alreadyStored)

def paymentWaveSize : ℕ := 64

/-- The chunks without repetition, and the addresses of the repeated ones. -/
def dedupChunks (chunks : List Bytes) : List Bytes × List XorName :=
  chunks.foldl (fun s chunk =>
    if computeAddress P chunk ∈ s.1.map (computeAddress P) then
      (s.1, s.2 ++ [computeAddress P chunk])
    else (s.1 ++ [chunk], s.2)) ([], [])

def wavesOf (chunks : List Bytes) : List (List Bytes) :=
  (List.range ((chunks.length + paymentWaveSize - 1) / paymentWaveSize)).map fun i =>
    slice chunks (paymentWaveSize * i) (paymentWaveSize * (i + 1))

/-- One turn of the loop over the waves: the wave before, paid for, is stored. -/
def uploadWave (s : Option (List PaidChunk) × List XorName) (wave : List Bytes) :
    Client (Option (List PaidChunk) × List XorName) := do
  let stored ← storePaidChunks P S (s.1.getD [])
  let (preparedChunks, alreadyStored) ← prepareWave P S wave
  let allAddresses := s.2 ++ stored ++ alreadyStored
  if preparedChunks.isEmpty then pure (none, allAddresses)
  else do
    let paidChunks ← batchPay S preparedChunks
    pure (some paidChunks, allAddresses)

def batchUploadChunks (chunks : List Bytes) : Client (List XorName) :=
  if chunks.isEmpty then pure []
  else do
    let (uniqueChunks, duplicates) := dedupChunks P chunks
    let (pendingStore, allAddresses) ← (wavesOf uniqueChunks).foldlM (uploadWave P S)
      (none, duplicates)
    let stored ← storePaidChunks P S (pendingStore.getD [])
    pure (allAddresses ++ stored)

def merkleUploadChunks (chunkContents : List Bytes) (addresses : List XorName)
    (proofs : Lookup XorName Bytes) : Client ℕ := do
  let results ← (chunkContents.zip addresses).mapM fun chunk => do
    let proof ← (okOr (.payment s!"Missing merkle proof for chunk {hexEncode chunk.2}")
      (proofs chunk.2) : Except ClientError Bytes)
    chunkPutToCloseGroup P S chunk.1 proof
  pure results.length

/-! ## What is stored -/

variable {P S} {stored stored' : List Bytes}

theorem chunkPutToCloseGroup_eq_ok {content proof : Bytes} {address : XorName}
    (h : chunkPutToCloseGroup P S content proof stored = .ok (address, stored')) :
    address = computeAddress P content ∧ stored' = stored ++ [content] := by
  simp only [chunkPutToCloseGroup, stateT_bind_eq_ok, stateT_lift_eq_ok, stateT_modify_eq_ok,
    stateT_pure_eq_ok] at h
  obtain ⟨_, _, ⟨-, rfl⟩, _, _, rfl, rfl, rfl⟩ := h
  exact ⟨rfl, rfl⟩

theorem chunkPut_eq_ok {content : Bytes} {address : XorName}
    (h : chunkPut P S content stored = .ok (address, stored')) :
    address = computeAddress P content ∧ stored' = stored ++ [content] := by
  simp only [chunkPut] at h
  rcases hq : S.payForStorage (computeAddress P content) content.length with e | proof
  · cases e
    case alreadyStored =>
      simp only [hq, stateT_bind_eq_ok, stateT_modify_eq_ok, stateT_pure_eq_ok] at h
      obtain ⟨_, _, rfl, rfl, rfl⟩ := h
      exact ⟨rfl, rfl⟩
    all_goals rw [hq] at h; cases h
  · rw [hq] at h
    exact chunkPutToCloseGroup_eq_ok h

theorem storePaidChunks_eq_ok {paid : List PaidChunk} {addresses : List XorName}
    (h : storePaidChunks P S paid stored = .ok (addresses, stored')) :
    stored' = stored ++ paid.map PaidChunk.content := by
  induction paid generalizing stored addresses with
  | nil =>
    obtain ⟨-, rfl⟩ := stateT_pure_eq_ok.1 h
    rw [List.map_nil, List.append_nil]
  | cons chunk paid ih =>
    simp only [storePaidChunks, List.mapM_cons, stateT_bind_eq_ok, stateT_pure_eq_ok] at h
    obtain ⟨_, _, hput, _, _, hrest, -, rfl⟩ := h
    obtain ⟨-, rfl⟩ := chunkPutToCloseGroup_eq_ok hput
    rw [ih hrest, List.append_assoc]; rfl

/-- A chunk is prepared, or counted as stored. -/
theorem prepareChunkPayment_eq_ok {content : Bytes} {r : Option PreparedChunk}
    (h : prepareChunkPayment P S content stored = .ok (r, stored')) :
    stored' ++ r.toList.map PreparedChunk.content = stored ++ [content] := by
  simp only [prepareChunkPayment] at h
  rcases hq : S.getStoreQuotes (computeAddress P content) content.length with e | quotes
  · cases e
    case alreadyStored =>
      simp only [hq, stateT_bind_eq_ok, stateT_modify_eq_ok, stateT_pure_eq_ok] at h
      obtain ⟨_, _, rfl, rfl, rfl⟩ := h
      exact List.append_nil _
    all_goals rw [hq] at h; cases h
  · rw [hq] at h
    obtain ⟨rfl, rfl⟩ := stateT_pure_eq_ok.1 h; rfl

theorem mapM_prepareChunkPayment {chunks : List Bytes} {results : List (Option PreparedChunk)}
    (h : chunks.mapM (prepareChunkPayment P S) stored = .ok (results, stored')) :
    (stored' ++ results.reduceOption.map PreparedChunk.content).Perm (stored ++ chunks) := by
  induction chunks generalizing stored results with
  | nil =>
    obtain ⟨rfl, rfl⟩ := stateT_pure_eq_ok.1 h; rfl
  | cons content chunks ih =>
    simp only [List.mapM_cons, stateT_bind_eq_ok, stateT_pure_eq_ok] at h
    obtain ⟨prepared, s₁, hp, rest, _, hrest, rfl, rfl⟩ := h
    have hhead := prepareChunkPayment_eq_ok hp
    have htail := ih hrest
    cases prepared with
    | none =>
      rw [Option.toList_none, List.map_nil, List.append_nil] at hhead
      rw [hhead, List.append_assoc] at htail; exact htail
    | some p =>
      rw [Option.toList_some, List.map_cons, List.map_nil] at hhead
      have heq : s₁ ++ ([p.content] ++ chunks) = stored ++ content :: chunks := by
        rw [← List.append_assoc, hhead, List.append_assoc]; rfl
      rw [List.reduceOption_cons_of_some, List.map_cons, ← List.singleton_append, ← heq]
      exact (List.perm_append_comm_assoc _ _ _).trans
        ((htail.append_left _).trans (List.perm_append_comm_assoc _ _ _))

theorem prepareWave_eq_ok {chunks : List Bytes} {r : List PreparedChunk × List XorName}
    (h : prepareWave P S chunks stored = .ok (r, stored')) :
    (stored' ++ r.1.map PreparedChunk.content).Perm (stored ++ chunks) := by
  simp only [prepareWave, stateT_bind_eq_ok, stateT_pure_eq_ok] at h
  obtain ⟨results, _, h, rfl, rfl⟩ := h
  exact mapM_prepareChunkPayment h

theorem buildPaidChunks_eq_ok {prepared : List PreparedChunk} {txs : Lookup QuoteHash TxHash}
    {paid : List PaidChunk} (h : buildPaidChunks S prepared txs = .ok paid) :
    paid.map PaidChunk.content = prepared.map PreparedChunk.content := by
  rw [buildPaidChunks, mapM_eq_ok] at h
  induction h with
  | nil => rfl
  | @cons chunk p _ _ hc _ ih =>
    simp only [buildPaidChunk, bind_eq_ok] at hc
    obtain ⟨_, -, _, -, hc⟩ := hc
    rw [List.map_cons, List.map_cons, ih, ← Except.ok.inj hc]

theorem batchPay_eq_ok {prepared : List PreparedChunk} {paid : List PaidChunk}
    (h : batchPay S prepared = .ok paid) :
    paid.map PaidChunk.content = prepared.map PreparedChunk.content := by
  unfold batchPay at h
  split_ifs at h with hp
  · rw [← Except.ok.inj h, List.isEmpty_iff.1 hp]; rfl
  · obtain ⟨txs, -, h⟩ := bind_eq_ok.1 h
    exact buildPaidChunks_eq_ok h

/-- The contents that are paid for but not stored yet. -/
def pendingContents (pending : Option (List PaidChunk)) : List Bytes :=
  (pending.getD []).map PaidChunk.content

/-- A turn stores or keeps for the next turn everything it gets. -/
theorem uploadWave_eq_ok {s s' : Option (List PaidChunk) × List XorName} {wave : List Bytes}
    (h : uploadWave P S s wave stored = .ok (s', stored')) :
    (stored' ++ pendingContents s'.1).Perm (stored ++ pendingContents s.1 ++ wave) := by
  simp only [uploadWave, stateT_bind_eq_ok] at h
  obtain ⟨_, s₁, hstore, ⟨prepared, already⟩, s₂, hprep, h⟩ := h
  have hwave := prepareWave_eq_ok hprep
  rw [storePaidChunks_eq_ok hstore] at hwave
  split_ifs at h with hp
  · obtain ⟨rfl, rfl⟩ := stateT_pure_eq_ok.1 h
    rwa [List.isEmpty_iff.1 hp] at hwave
  · simp only [stateT_bind_eq_ok, stateT_lift_eq_ok, stateT_pure_eq_ok] at h
    obtain ⟨paid, _, ⟨hpay, rfl⟩, rfl, rfl⟩ := h
    rwa [← batchPay_eq_ok hpay] at hwave

/-- The invariant of the loop over the waves. -/
theorem foldlM_uploadWave_eq_ok {waves : List (List Bytes)} :
    ∀ {s s' : Option (List PaidChunk) × List XorName} {stored : List Bytes},
    waves.foldlM (uploadWave P S) s stored = .ok (s', stored') →
    (stored' ++ pendingContents s'.1).Perm (stored ++ pendingContents s.1 ++ waves.flatten) := by
  induction waves with
  | nil =>
    intro s s' stored h
    obtain ⟨rfl, rfl⟩ := stateT_pure_eq_ok.1 h
    rw [List.flatten_nil, List.append_nil]
  | cons wave waves ih =>
    intro s s' stored h
    rw [List.foldlM_cons, stateT_bind_eq_ok] at h
    obtain ⟨_, _, hwave, hrest⟩ := h
    rw [List.flatten_cons, ← List.append_assoc]
    exact (ih hrest).trans ((uploadWave_eq_ok hwave).append_right _)

theorem flatten_wavesOf (chunks : List Bytes) : (wavesOf chunks).flatten = chunks :=
  flatten_chunked (by decide : 0 < paymentWaveSize) chunks

theorem dedupChunks_append_singleton (chunks : List Bytes) (c : Bytes) :
    dedupChunks P (chunks ++ [c]) =
      if computeAddress P c ∈ (dedupChunks P chunks).1.map (computeAddress P) then
        ((dedupChunks P chunks).1, (dedupChunks P chunks).2 ++ [computeAddress P c])
      else ((dedupChunks P chunks).1 ++ [c], (dedupChunks P chunks).2) := by
  rw [dedupChunks, List.foldl_append]; rfl

theorem dedupChunks_spec (chunks : List Bytes) :
    (dedupChunks P chunks).1 ⊆ chunks ∧
      ∀ c ∈ chunks, ∃ c' ∈ (dedupChunks P chunks).1, computeAddress P c' = computeAddress P c := by
  induction chunks using List.reverseRecOn with
  | nil => exact ⟨List.Subset.refl _, nofun⟩
  | append_singleton chunks c ih =>
    rw [dedupChunks_append_singleton]
    split_ifs with hc
    · refine ⟨List.subset_append_of_subset_left _ ih.1, fun d hd => ?_⟩
      rcases List.mem_append.1 hd with hd | hd
      · exact ih.2 d hd
      · obtain rfl := List.mem_singleton.1 hd
        exact List.mem_map.1 hc
    · refine ⟨List.append_subset.2 ⟨List.subset_append_of_subset_left _ ih.1,
        List.subset_append_right _ _⟩, fun d hd => ?_⟩
      rcases List.mem_append.1 hd with hd | hd
      · obtain ⟨c', hc', he⟩ := ih.2 d hd
        exact ⟨c', List.mem_append_left _ hc', he⟩
      · exact ⟨d, List.mem_append_right _ hd, rfl⟩

/-- No address is left out, and none is there twice among the chunks that are kept. -/
theorem dedupChunks_perm (chunks : List Bytes) :
    ((dedupChunks P chunks).1.map (computeAddress P) ++ (dedupChunks P chunks).2).Perm
      (chunks.map (computeAddress P)) ∧
    ((dedupChunks P chunks).1.map (computeAddress P)).Nodup := by
  induction chunks using List.reverseRecOn with
  | nil => exact ⟨.rfl, List.nodup_nil⟩
  | append_singleton chunks c ih =>
    obtain ⟨hperm, hnodup⟩ := ih
    rw [dedupChunks_append_singleton, List.map_append]
    split_ifs with hc
    · refine ⟨?_, hnodup⟩
      rw [← List.append_assoc]
      exact hperm.append_right _
    · refine ⟨?_, ?_⟩
      · rw [List.map_append, List.append_assoc]
        refine (List.perm_append_comm.append_left _).trans ?_
        rw [← List.append_assoc]
        exact hperm.append_right _
      · rw [List.map_append]
        refine List.Nodup.append hnodup (List.nodup_singleton _) ?_
        rw [List.map_singleton, List.disjoint_singleton]
        exact hc

/-- Nothing but `chunks` is stored, and each of them, or another with its address, is. -/
structure StoresAll (P : Primitives) (chunks stored : List Bytes) : Prop where
  subset : stored ⊆ chunks
  all : ∀ c ∈ chunks, ∃ c' ∈ stored, computeAddress P c' = computeAddress P c

theorem StoresAll.of_perm {chunks : List Bytes} (h : stored.Perm chunks) :
    StoresAll P chunks stored :=
  ⟨h.subset, fun c hc => ⟨c, h.symm.subset hc, rfl⟩⟩

/-- **An upload in waves stores everything.** -/
theorem batchUploadChunks_eq_ok {chunks : List Bytes} {addresses : List XorName}
    (h : batchUploadChunks P S chunks [] = .ok (addresses, stored')) :
    StoresAll P chunks stored' := by
  unfold batchUploadChunks at h
  split_ifs at h with he
  · obtain ⟨rfl, rfl⟩ := stateT_pure_eq_ok.1 h
    rw [List.isEmpty_iff.1 he]; exact ⟨List.Subset.refl _, nofun⟩
  · simp only [stateT_bind_eq_ok, stateT_pure_eq_ok] at h
    obtain ⟨s, s₁, hfold, _, _, hstore, rfl, rfl⟩ := h
    have hperm := foldlM_uploadWave_eq_ok hfold
    rw [flatten_wavesOf] at hperm
    have hunique : (s₁ ++ (s.1.getD []).map PaidChunk.content).Perm (dedupChunks P chunks).1 :=
      hperm
    rw [storePaidChunks_eq_ok hstore]
    obtain ⟨hsub, hall⟩ := dedupChunks_spec (P := P) chunks
    refine ⟨List.Subset.trans hunique.subset hsub, fun c hc => ?_⟩
    obtain ⟨c', hc', he⟩ := hall c hc
    exact ⟨c', hunique.symm.subset hc', he⟩

/-- The same for the merkle path. -/
theorem merkleUploadChunks_eq_ok {chunks : List Bytes} {proofs : Lookup XorName Bytes} {n : ℕ}
    (h : merkleUploadChunks P S chunks (chunks.map (computeAddress P)) proofs stored =
      .ok (n, stored')) : stored' = stored ++ chunks := by
  simp only [merkleUploadChunks, stateT_bind_eq_ok, stateT_pure_eq_ok] at h
  obtain ⟨results, _, h, -, rfl⟩ := h
  induction chunks generalizing stored results with
  | nil =>
    obtain ⟨-, rfl⟩ := stateT_pure_eq_ok.1 h
    rw [List.append_nil]
  | cons c chunks ih =>
    simp only [List.map_cons, List.zip_cons_cons, List.mapM_cons, stateT_bind_eq_ok,
      stateT_lift_eq_ok, stateT_pure_eq_ok] at h
    obtain ⟨_, _, ⟨_, _, ⟨-, rfl⟩, hput⟩, rest, _, hrest, -, rfl⟩ := h
    obtain ⟨-, rfl⟩ := chunkPutToCloseGroup_eq_ok hput
    rw [ih _ hrest, List.append_assoc]; rfl

end Autonomi
