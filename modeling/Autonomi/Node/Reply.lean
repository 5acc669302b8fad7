/-
  The handlers of a node, each from its first check to its answer
  (`ant-node/src/storage/handler.rs`, `payment/quote.rs`).
-/
import Autonomi.Node.Fetch
import Autonomi.Node.Store

namespace Autonomi.AntNode

open Lib

/-- What a request meets in a node: its store and what fails of it, what the verifier and
    `LmdbStorage::put` come to, the generator of quotes, and how `rmp_serde` writes. -/
structure Moment where
  storage : LmdbStorage
  faults : Faults
  payment : Except Error PaymentStatus
  stored : Except Error Bool
  generator : QuoteGenerator
  metrics : QuotingMetricsTracker
  timestamp : SystemTime
  liveTimeHours : ℕ
  writeQuote : PaymentQuote → Except String Bytes
  writeCandidate : MerklePaymentCandidateNode → Except String Bytes

namespace Moment

variable (P : Primitives) (E : Evm) (t : Moment)

def handlePut (request : ChunkPutRequest) : ChunkPutResponse :=
  match NodeState.putChecked P t.storage request t.faults with
  | some response => response
  | none =>
    match NodeState.paymentRefused t.payment with
    | some response => response
    | none =>
      match t.stored with
      | .ok _ => .success request.address
      | .error e => .error (.storageFailed e.text)

def createMerkleCandidateQuote (dataSize : ℕ) (dataType : UInt32) (merklePaymentTimestamp : UInt64) :
    Except Error MerklePaymentCandidateNode := do
  let signFn ← okOr (.payment "Quote signing not configured") t.generator.signFn
  let quotingMetrics := t.metrics.getMetrics t.liveTimeHours dataSize dataType
  let rewardsAddress := t.generator.rewardsAddress
  let msg := E.bytesToSign quotingMetrics rewardsAddress merklePaymentTimestamp.toNat
  let signature := signFn msg
  ensure (signature ≠ []) "ML-DSA-65 signing produced empty signature for merkle candidate"
  pure ⟨t.generator.pubKey, quotingMetrics, rewardsAddress, merklePaymentTimestamp.toNat, signature⟩

def handleMerkleCandidateQuote (request : MerkleCandidateQuoteRequest) :
    MerkleCandidateQuoteResponse :=
  let dataSize := request.dataSize.toNat
  if maxChunkSize < dataSize then .error (.chunkTooLarge dataSize maxChunkSize)
  else match t.createMerkleCandidateQuote E dataSize request.dataType
      request.merklePaymentTimestamp with
    | .ok candidateNode =>
      match t.writeCandidate candidateNode with
      | .ok bytes => .success bytes
      | .error e => .error (.quoteFailed s!"Failed to serialize merkle candidate node: {e}")
    | .error e => .error (.quoteFailed e.text)

def protocol : AntProtocol where
  handlePut := t.handlePut P
  handleGet := handleGet P t.storage t.faults
  handleQuote request := handleQuote E (t.storage.existsAt request.address t.faults) t.writeQuote
    t.generator t.metrics t.timestamp t.liveTimeHours request
  handleMerkleCandidateQuote := t.handleMerkleCandidateQuote E

end Moment

/-! ## The sizes that the handlers name -/

def ProtocolError.sizes : ProtocolError → Option (ℕ × ℕ)
  | .messageTooLarge size maxSize | .chunkTooLarge size maxSize => some (size, maxSize)
  | _ => none

/-- The sizes that the error of a response names. -/
def ChunkMessageBody.sizes : ChunkMessageBody → Option (ℕ × ℕ)
  | .putResponse (.error e) | .getResponse (.error e) | .quoteResponse (.error e)
  | .merkleCandidateQuoteResponse (.error e) => e.sizes
  | _ => none

variable {P : Primitives} {E : Evm} {t : Moment}

theorem paymentRefused_sizes {payment : Except Error PaymentStatus} {response : ChunkPutResponse}
    (h : NodeState.paymentRefused payment = some response) :
    (ChunkMessageBody.putResponse response).sizes = none := by
  unfold NodeState.paymentRefused at h
  split at h
  · split_ifs at h
    cases h
    rfl
  · cases h
    rfl

theorem putChecked_sizes {request : ChunkPutRequest} {response : ChunkPutResponse}
    (h : NodeState.putChecked P t.storage request t.faults = some response) :
    (ChunkMessageBody.putResponse response).sizes = none ∨
      (ChunkMessageBody.putResponse response).sizes =
        some (request.content.length, maxChunkSize) := by
  unfold NodeState.putChecked at h
  dsimp only at h
  split_ifs at h
  · cases h
    exact .inr rfl
  · cases h
    exact .inl rfl
  · split at h
    · cases h
      exact .inl rfl
    · cases h
      exact .inl rfl
    · cases h

theorem handlePut_sizes (request : ChunkPutRequest) :
    (ChunkMessageBody.putResponse (t.handlePut P request)).sizes = none ∨
      (ChunkMessageBody.putResponse (t.handlePut P request)).sizes =
        some (request.content.length, maxChunkSize) := by
  unfold Moment.handlePut
  split
  · rename_i hchecked
    exact putChecked_sizes hchecked
  · split
    · rename_i hrefused
      exact .inl (paymentRefused_sizes hrefused)
    · split
      · exact .inl rfl
      · exact .inl rfl

theorem handleGet_sizes (request : ChunkGetRequest) :
    (ChunkMessageBody.getResponse (handleGet P t.storage t.faults request)).sizes = none := by
  unfold handleGet
  split <;> rfl

theorem handleQuote_sizes (stored : Except Error Bool) (request : ChunkQuoteRequest) :
    (ChunkMessageBody.quoteResponse (handleQuote E stored t.writeQuote t.generator t.metrics
      t.timestamp t.liveTimeHours request)).sizes =
    if maxChunkSize < request.dataSize.toNat then some (request.dataSize.toNat, maxChunkSize)
    else none := by
  unfold handleQuote
  dsimp only
  split_ifs
  · rfl
  · split
    · split <;> rfl
    · rfl

theorem handleMerkleCandidateQuote_sizes (request : MerkleCandidateQuoteRequest) :
    (ChunkMessageBody.merkleCandidateQuoteResponse (t.handleMerkleCandidateQuote E request)).sizes =
    if maxChunkSize < request.dataSize.toNat then some (request.dataSize.toNat, maxChunkSize)
    else none := by
  unfold Moment.handleMerkleCandidateQuote
  dsimp only
  split_ifs
  · rfl
  · split
    · split <;> rfl
    · rfl

/-- The content of a PUT is no longer than the message that it came in. -/
theorem content_le_of_decode {data : Bytes} {m : ChunkMessage} {r : ChunkPutRequest}
    (h : ChunkMessage.decode data = .ok m) (hbody : m.body = .putRequest r) :
    r.content.length ≤ maxWireMessageSize := by
  rw [ChunkMessage.decode] at h
  split_ifs at h with hlen
  split at h
  · rename_i m' t hread
    cases h
    obtain ⟨id, t₁, hid, hread⟩ := stateT_bind_eq_ok.1 hread
    obtain ⟨n, hn, -⟩ := map_eq_ok.1 hid
    obtain ⟨body, hvariant, rfl⟩ := map_eq_ok.1 hread
    obtain rfl : body = .putRequest r := hbody
    obtain ⟨tag, t₂, htag, hvariant⟩ := stateT_bind_eq_ok.1 hvariant
    have h₁ := length_of_readLeb128 hn
    have h₂ := length_of_readLeb128 htag
    unfold ChunkMessageBody.readVariant at hvariant
    split at hvariant
    case h_1 =>
      obtain ⟨r', hr, he⟩ := map_eq_ok.1 hvariant
      cases he
      obtain ⟨address, t₃, haddr, hr⟩ := stateT_bind_eq_ok.1 hr
      obtain ⟨content, t₄, hcontent, hr⟩ := stateT_bind_eq_ok.1 hr
      obtain ⟨proof, -, rfl⟩ := map_eq_ok.1 hr
      have h₃ := length_of_xorName haddr
      have h₄ := length_of_readBytes hcontent
      change content.length ≤ maxWireMessageSize
      omega
    case h_9 => cases hvariant
    all_goals
      obtain ⟨_, -, he⟩ := map_eq_ok.1 hvariant
      cases he
  · cases h

end Autonomi.AntNode
