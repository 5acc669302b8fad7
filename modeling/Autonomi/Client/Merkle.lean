/-
  Merkle batch payments (`ant-core/src/data/client/merkle.rs`): one payment on
  chain for a whole batch of chunks.
-/
import Autonomi.Client.Batch
import Autonomi.Lib.Log

namespace Autonomi.AntClient

open Lib AntNode

def candidatesPerPool : ℕ := 16

/-- The merkle trees and payments of `evmlib`.  A tree is a function of its leaves. -/
structure MerkleEvm extends ClientEvm where
  maxLeaves : ℕ
  one_lt_maxLeaves : 1 < maxLeaves
  /-- `MerkleTree::from_xornames`: the depth of the tree. -/
  fromXornames : List XorName → Except String ℕ
  rewardCandidates : List XorName → UInt64 → Except String (List Bytes)
  midpointAddress : Bytes → XorName
  toCommitment : MerklePaymentCandidatePool → Bytes
  generateAddressProof : List XorName → ℕ → XorName → Except String Bytes
  readCandidate : Bytes → Except String MerklePaymentCandidateNode
  writeMerkleProof : MerklePaymentProof → Except String Bytes

theorem one_lt_max_leaves : 1 < 256 := by decide

/-- What comes of one candidate request. -/
abbrev CandidateResult := PeerId × Except Error MerklePaymentCandidateNode

/-- What the query of one pool meets. -/
structure PoolTurn where
  net : Network
  connectedPeers : List PeerId
  order : Unordered CandidateResult

/-- What the payment of one batch meets. -/
structure MerkleTurn where
  now : Except String UInt64
  pool : ℕ → PoolTurn
  poolOrder : Unordered (Except Error MerklePaymentCandidatePool)
  payForMerkleTree : ℕ → List Bytes → UInt64 → Except String PoolHash

/-- The proofs, ready to be sent with the chunks. -/
structure MerkleBatchPaymentResult where
  proofs : List (XorName × Bytes)
  chunkCount : ℕ

variable (C : MerkleEvm) (client : Client)

/-! ## Candidate pools -/

def candidateHandler (peerId : PeerId) :
    ChunkMessageBody → Option (Except Error MerklePaymentCandidateNode)
  | .merkleCandidateQuoteResponse (.success candidateNode) =>
    match C.readCandidate candidateNode with
    | .ok node => some (.ok node)
    | .error e => some (.error (.serialization
        s!"Failed to deserialize candidate node from {C.displayPeerId peerId}: {e}"))
  | .merkleCandidateQuoteResponse (.error e) => some (.error (.protocol
      s!"Merkle quote error from {C.displayPeerId peerId}: {e.text}"))
  | _ => none

/-- The request to the peer that is asked in this turn. -/
def requestCandidate (net : Network) (request : MerkleCandidateQuoteRequest) (peer : PeerId × ℕ) :
    CandidateResult :=
  let (peerId, turn) := peer
  let requestId := net.requestIds turn
  let message : ChunkMessage := ⟨requestId, .merkleCandidateQuoteRequest request⟩
  (peerId, sendAndAwaitChunkResponse net.p2p turn peerId message.encode requestId
    (candidateHandler C peerId)
    (fun e => .network s!"Failed to send merkle candidate request to {C.displayPeerId peerId}: {e}")
    (.timeout s!"Timeout waiting for merkle candidate from {C.displayPeerId peerId}"))

/-- What becomes of the candidates once no more are waited for. -/
def finishCandidates (candidates : List MerklePaymentCandidateNode) (failures : List String) :
    Except Error (List MerklePaymentCandidateNode) :=
  let failed := "; ".intercalate failures
  if candidates.length < candidatesPerPool then
    .error (.insufficientPeers
      s!"Got {candidates.length} merkle candidates, need {candidatesPerPool}. Failures: [{failed}]")
  else
    let truncated := candidates.take candidatesPerPool
    if truncated.length = candidatesPerPool then .ok truncated
    else .error (.payment "Failed to convert candidates to fixed array")

/-- The loop over the answers, as they come. -/
def collectValidatedCandidates (merklePaymentTimestamp : UInt64) (expectedDataType : UInt32)
    (candidates : List MerklePaymentCandidateNode) (failures : List String) :
    List CandidateResult → Except Error (List MerklePaymentCandidateNode)
  | [] => finishCandidates candidates failures
  | (peerId, .ok candidate) :: results =>
    if ¬ verifyMerkleCandidateSignature C.toEvm candidate then
      collectValidatedCandidates merklePaymentTimestamp expectedDataType candidates
        (failures ++ [s!"{C.displayPeerId peerId}: invalid signature"]) results
    else if candidate.merklePaymentTimestamp ≠ merklePaymentTimestamp.toNat then
      collectValidatedCandidates merklePaymentTimestamp expectedDataType candidates
        (failures ++ [s!"{C.displayPeerId peerId}: timestamp mismatch"]) results
    else if candidate.quotingMetrics.dataType ≠ expectedDataType then
      collectValidatedCandidates merklePaymentTimestamp expectedDataType candidates
        (failures ++ [s!"{C.displayPeerId peerId}: wrong data_type"]) results
    else if candidatesPerPool ≤ candidates.length + 1 then
      finishCandidates (candidates ++ [candidate]) failures
    else
      collectValidatedCandidates merklePaymentTimestamp expectedDataType
        (candidates ++ [candidate]) failures results
  | (peerId, .error e) :: results =>
    collectValidatedCandidates merklePaymentTimestamp expectedDataType candidates
      (failures ++ [s!"{C.displayPeerId peerId}: {e.text}"]) results

/-- The connected peers that are not there yet are added. -/
def supplementPeers (connected remotePeers : List PeerId) : List PeerId :=
  if remotePeers.length < candidatesPerPool then
    connected.foldl (fun peers peer => if peer ∈ peers then peers else peers ++ [peer]) remotePeers
  else remotePeers

def getMerkleCandidatePool (turn : PoolTurn) (request : MerkleCandidateQuoteRequest) :
    Except Error (List MerklePaymentCandidateNode) := do
  let queryCount := candidatesPerPool * 2
  let closest ← turn.net.findClosestPeers request.address queryCount
  let remotePeers := supplementPeers turn.connectedPeers closest
  if remotePeers.length < candidatesPerPool then
    .error (.insufficientPeers
      s!"Found {remotePeers.length} peers, need {candidatesPerPool} for merkle candidate pool. Use --no-merkle or a larger network.")
  else
    collectValidatedCandidates C request.merklePaymentTimestamp request.dataType [] []
      (turn.order (remotePeers.zipIdx.map (requestCandidate C turn.net request)))

/-- All pools at once; the first failure ends it. -/
def buildCandidatePools (turn : MerkleTurn) (midpointProofs : List Bytes) (dataType : UInt32)
    (dataSize merklePaymentTimestamp : UInt64) : Except Error (List MerklePaymentCandidatePool) :=
  (turn.poolOrder (midpointProofs.zipIdx.map fun mp => do
    let candidateNodes ← getMerkleCandidatePool C (turn.pool mp.2)
      ⟨C.midpointAddress mp.1, dataType, dataSize, merklePaymentTimestamp⟩
    pure ⟨mp.1, candidateNodes⟩)).mapM id

/-! ## Payment -/

variable (turn : MerkleTurn) (addresses : List XorName) (dataType : UInt32) (dataSize : UInt64)

/-- `pay_for_merkle_single_batch` up to the payment: the pools, and the one that has won. -/
def payMerkleTree : Except Error (PoolHash × List MerklePaymentCandidatePool) := do
  client.requireWallet
  let depth ← (C.fromXornames addresses).mapError fun e =>
    .payment s!"Failed to build merkle tree: {e}"
  let merklePaymentTimestamp ← turn.now.mapError fun e => .payment s!"System time error: {e}"
  let midpointProofs ← (C.rewardCandidates addresses merklePaymentTimestamp).mapError fun e =>
    .payment s!"Failed to generate reward candidates: {e}"
  let candidatePools ←
    buildCandidatePools C turn midpointProofs dataType dataSize merklePaymentTimestamp
  let poolCommitments := candidatePools.map C.toCommitment
  let winnerPoolHash ← (turn.payForMerkleTree depth poolCommitments merklePaymentTimestamp).mapError
    fun e => .payment s!"Merkle batch payment failed: {e}"
  pure (winnerPoolHash, candidatePools)

def merkleProof (winnerPool : MerklePaymentCandidatePool) (leaf : XorName × ℕ) :
    Except Error (XorName × Bytes) := do
  let addressProof ← (C.generateAddressProof addresses leaf.2 leaf.1).mapError fun e =>
    .payment s!"Failed to generate address proof for chunk {leaf.2}: {e}"
  let body ← (C.writeMerkleProof ⟨leaf.1, addressProof, winnerPool⟩).mapError fun e =>
    .serialization s!"Failed to serialize merkle proof: {e}"
  pure (leaf.1, proofTagMerkle :: body)

/-- The rest of it: the proofs, one for each chunk. -/
def merkleProofs (winnerPoolHash : PoolHash) (candidatePools : List MerklePaymentCandidatePool) :
    Except Error MerkleBatchPaymentResult := do
  let winnerPool ← okOr
    (.payment s!"Winner pool {hexEncode winnerPoolHash} not found in candidate pools")
    (candidatePools.find? fun pool => C.poolHash pool = winnerPoolHash)
  let proofs ← addresses.zipIdx.mapM (merkleProof C addresses winnerPool)
  pure ⟨proofs, addresses.length⟩

def payForMerkleSingleBatch : Upload MerkleBatchPaymentResult := do
  let (winnerPoolHash, candidatePools) ←
    Act.ofExcept (payMerkleTree C client turn addresses dataType dataSize)
  modify fun log => log ++ [.charged addresses]
  Act.ofExcept (merkleProofs C addresses winnerPoolHash candidatePools)

/-- One sub-batch after the other. -/
def payForMerkleSubBatch (allProofs : List (XorName × Bytes)) (batch : MerkleTurn × List XorName) :
    Upload (List (XorName × Bytes)) := do
  let subResult ← payForMerkleSingleBatch C client batch.1 batch.2 dataType dataSize
  pure (allProofs ++ subResult.proofs)

/-- The sub-batches with what their payments meet. -/
def subBatches (turns : ℕ → MerkleTurn) : List (MerkleTurn × List XorName) :=
  (chunked C.maxLeaves addresses).mapIdx fun i chunk => (turns i, chunk)

def payForMerkleMultiBatch (turns : ℕ → MerkleTurn) : Upload MerkleBatchPaymentResult := do
  let allProofs ← (subBatches C addresses turns).foldlM
    (payForMerkleSubBatch C client dataType dataSize) []
  pure ⟨allProofs, addresses.length⟩

def payForMerkleBatch (turns : ℕ → MerkleTurn) : Upload MerkleBatchPaymentResult := do
  let chunkCount := addresses.length
  if chunkCount < 2 then
    Act.ofExcept (.error (.payment "Merkle batch payment requires at least 2 chunks"))
  else if C.maxLeaves < chunkCount then
    payForMerkleMultiBatch C client addresses dataType dataSize turns
  else payForMerkleSingleBatch C client (turns 0) addresses dataType dataSize

/-! ## Storing with the proofs -/

/-- What the stores of merkle-paid chunks meet. -/
structure MerkleStoreTurn where
  net : XorName → Network
  order : XorName → ℕ → Unordered (PeerId × ℕ)
  storeOrder : Unordered (Except Error XorName)

def storeWithMerkleProof (P : Primitives) (store : MerkleStoreTurn)
    (proofs : Lookup XorName Bytes) (chunk : Bytes × XorName) : Except Error XorName := do
  let (content, addr) := chunk
  let proof ← okOr (.payment s!"Missing merkle proof for chunk {hexEncode addr}") (proofs addr)
  let peers ← (store.net addr).closeGroupPeers client addr
  storeChunk P C.toClientEvm client (store.net addr) (store.order addr) ⟨content, addr, peers, proof⟩

/-- As they complete, up to the first failure. -/
def merkleUploadChunks (P : Primitives) (store : MerkleStoreTurn) (chunkContents : List Bytes)
    (addresses : List XorName) (batchResult : MerkleBatchPaymentResult) : Except Error ℕ := do
  let stored ← (store.storeOrder ((chunkContents.zip addresses).map
    (storeWithMerkleProof C client P store (.ofList batchResult.proofs)))).mapM id
  pure stored.length

end Autonomi.AntClient
