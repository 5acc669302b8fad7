/-
  Payment proofs and their checks (`ant-node/src/payment/verifier.rs`,
  `quote.rs`, `proof.rs`).

  The types of `evmlib` and what is computed of them, and the signatures, are
  the parameter `E : Evm`.
-/
import Autonomi.Lib.Except
import Autonomi.Node.Storage
import Autonomi.Tunnel.Envelope

namespace Autonomi.AntNode

open Lib

abbrev RewardsAddress := List.Vector UInt8 20
abbrev QuoteHash := List.Vector UInt8 32
abbrev PoolHash := List.Vector UInt8 32
abbrev TxHash := List.Vector UInt8 32

/-- Nanoseconds since the epoch. -/
abbrev SystemTime := ℕ

structure QuotingMetrics where
  dataSize : ℕ
  dataType : UInt32
  closeRecordsStored : ℕ
  recordsPerType : List (UInt32 × UInt32)
  maxRecords : ℕ
  receivedPaymentCount : ℕ
  liveTime : ℕ
  networkDensity : Option XorName
  networkSize : Option ℕ
  deriving DecidableEq

structure PaymentQuote where
  content : XorName
  timestamp : SystemTime
  quotingMetrics : QuotingMetrics
  pubKey : Bytes
  rewardsAddress : RewardsAddress
  signature : Bytes
  deriving DecidableEq

/-- The bytes of a peer's name, as in the proof. -/
abbrev EncodedPeerId := Bytes

structure ProofOfPayment where
  peerQuotes : List (EncodedPeerId × PaymentQuote)
  deriving DecidableEq

structure PaymentProof where
  proofOfPayment : ProofOfPayment
  txHashes : List TxHash
  deriving DecidableEq

structure MerklePaymentCandidateNode where
  pubKey : Bytes
  quotingMetrics : QuotingMetrics
  rewardAddress : RewardsAddress
  merklePaymentTimestamp : ℕ
  signature : Bytes
  deriving DecidableEq

/-- The midpoint proof is one of `evmlib`, only passed on. -/
structure MerklePaymentCandidatePool where
  midpointProof : Bytes
  candidateNodes : List MerklePaymentCandidateNode
  deriving DecidableEq

structure MerklePaymentProof where
  address : XorName
  dataProof : Bytes
  winnerPool : MerklePaymentCandidatePool
  deriving DecidableEq

structure OnChainPaymentInfo where
  depth : ℕ
  merklePaymentTimestamp : ℕ
  paidNodeAddresses : List (RewardsAddress × ℕ)
  deriving DecidableEq

/-- What the payment vault is asked about a quote. -/
structure PaymentVerification where
  metrics : QuotingMetrics
  rewardsAddress : RewardsAddress
  quoteHash : QuoteHash
  deriving DecidableEq

structure PaymentVerificationResult where
  quoteHash : QuoteHash
  amountPaid : ℕ
  isValid : Bool
  deriving DecidableEq

/-- `evmlib`, `rmp_serde` on its types, ML-DSA-65 and the peer ids of `saorsa_core`. -/
structure Evm where
  readPaymentProof : Bytes → Except String PaymentProof
  readMerkleProof : Bytes → Except String MerklePaymentProof
  bytesForSigning : XorName → SystemTime → QuotingMetrics → RewardsAddress → Bytes
  bytesToSign : QuotingMetrics → RewardsAddress → ℕ → Bytes
  quoteHash : PaymentQuote → QuoteHash
  digest : ProofOfPayment → List PaymentVerification
  /-- Key, message and signature; false for bytes that are no key or no signature. -/
  mlDsaVerify : Bytes → Bytes → Bytes → Bool
  peerIdFromPublicKeyBytes : Bytes → Except String PeerId
  poolHash : MerklePaymentCandidatePool → PoolHash
  debugPeerId : EncodedPeerId → String
  displayAddress : RewardsAddress → String

inductive PaymentStatus where
  | cachedAsVerified
  | paymentRequired
  | paymentVerified
  deriving DecidableEq

def PaymentStatus.canStore : PaymentStatus → Bool
  | .cachedAsVerified | .paymentVerified => true
  | .paymentRequired => false

def minPaymentProofSizeBytes : ℕ := 32

def maxPaymentProofSizeBytes : ℕ := 262144

def quoteMaxAgeSecs : ℕ := 86400

def quoteClockSkewToleranceSecs : ℕ := 60

/-- In `Duration::as_secs`, the rest is cut off. -/
def asSecs (nanos : ℕ) : ℕ := nanos / 1000000000

/-! ## Proof bytes -/

def proofTagSingleNode : UInt8 := 1

def proofTagMerkle : UInt8 := 2

inductive ProofType where
  | singleNode
  | merkle
  deriving DecidableEq

def detectProofType (bytes : Bytes) : Option ProofType :=
  match bytes.head? with
  | some tag =>
    if tag = proofTagSingleNode then some .singleNode
    else if tag = proofTagMerkle then some .merkle
    else none
  | none => none

variable (E : Evm)

def deserializeProof (bytes : Bytes) : Except String (ProofOfPayment × List TxHash) :=
  if bytes.head? ≠ some proofTagSingleNode then .error "Missing single-node proof tag byte"
  else match E.readPaymentProof bytes.tail with
    | .ok proof => .ok (proof.proofOfPayment, proof.txHashes)
    | .error e => .error s!"Failed to deserialize single-node proof: {e}"

def deserializeMerkleProof (bytes : Bytes) : Except String MerklePaymentProof :=
  if bytes.head? ≠ some proofTagMerkle then .error "Missing merkle proof tag byte"
  else (E.readMerkleProof bytes.tail).mapError fun e => s!"Failed to deserialize merkle proof: {e}"

/-! ## Quotes -/

def bytesForSig (quote : PaymentQuote) : Bytes :=
  E.bytesForSigning quote.content quote.timestamp quote.quotingMetrics quote.rewardsAddress

def verifyQuoteContent (quote : PaymentQuote) (expectedContent : XorName) : Bool :=
  quote.content = expectedContent

def verifyQuoteSignature (quote : PaymentQuote) : Bool :=
  E.mlDsaVerify quote.pubKey (bytesForSig E quote) quote.signature

def verifyMerkleCandidateSignature (candidate : MerklePaymentCandidateNode) : Bool :=
  E.mlDsaVerify candidate.pubKey
    (E.bytesToSign candidate.quotingMetrics candidate.rewardAddress candidate.merklePaymentTimestamp)
    candidate.signature

/-! ## The checks -/

def ensure (c : Prop) [Decidable c] (msg : String) : Except Error Unit :=
  if c then .ok () else .error (.payment msg)

@[simp] theorem ensure_eq_ok {c : Prop} [Decidable c] {msg : String} {u : Unit} :
    ensure c msg = .ok u ↔ c := by
  unfold ensure; split_ifs with h <;> simp [h]

/-- The loop over the quotes, with the peers seen. -/
def validateDistinct : List EncodedPeerId → List (EncodedPeerId × PaymentQuote) → Except Error Unit
  | _, [] => .ok ()
  | seen, (encodedPeerId, _) :: quotes => do
    ensure (encodedPeerId ∉ seen) s!"Duplicate peer ID in payment quotes: {E.debugPeerId encodedPeerId}"
    validateDistinct (seen ++ [encodedPeerId]) quotes

def validateQuoteStructure (payment : ProofOfPayment) : Except Error Unit := do
  ensure (payment.peerQuotes ≠ []) "Payment has no quotes"
  let quoteCount := payment.peerQuotes.length
  ensure (quoteCount = closeGroupSize)
    s!"Payment must have exactly {closeGroupSize} quotes, got {quoteCount}"
  validateDistinct E [] payment.peerQuotes

def validateQuoteContent (payment : ProofOfPayment) (xorname : XorName) : Except Error Unit :=
  payment.peerQuotes.forM fun (encodedPeerId, quote) =>
    ensure (verifyQuoteContent quote xorname)
      s!"Quote content address mismatch for peer {E.debugPeerId encodedPeerId}: expected {hexEncode xorname}, got {hexEncode quote.content}"

def validateQuoteTimestamp (now : SystemTime) (peerQuote : EncodedPeerId × PaymentQuote) :
    Except Error Unit :=
  let timestamp := peerQuote.2.timestamp
  if timestamp ≤ now then
    let age := asSecs (now - timestamp)
    ensure (age ≤ quoteMaxAgeSecs)
      s!"Quote from peer {E.debugPeerId peerQuote.1} expired: age {age}s exceeds max {quoteMaxAgeSecs}s"
  else
    let skew := asSecs (timestamp - now)
    ensure (skew ≤ quoteClockSkewToleranceSecs)
      s!"Quote from peer {E.debugPeerId peerQuote.1} has timestamp {skew}s in the future (exceeds {quoteClockSkewToleranceSecs}s tolerance)"

def validateQuoteTimestamps (now : SystemTime) (payment : ProofOfPayment) : Except Error Unit :=
  payment.peerQuotes.forM (validateQuoteTimestamp E now)

def validatePeerBinding (peerQuote : EncodedPeerId × PaymentQuote) : Except Error Unit := do
  let expectedPeerId ← (E.peerIdFromPublicKeyBytes peerQuote.2.pubKey).mapError fun e =>
    .payment s!"Invalid ML-DSA public key in quote: {e}"
  ensure (expectedPeerId.toList = peerQuote.1)
    s!"Quote pub_key does not belong to claimed peer {E.debugPeerId peerQuote.1}: BLAKE3(pub_key) = {hex expectedPeerId.toList}, peer_id = {hex peerQuote.1}"

def validatePeerBindings (payment : ProofOfPayment) : Except Error Unit :=
  payment.peerQuotes.forM (validatePeerBinding E)

def validateLocalRecipient (localRewardsAddress : RewardsAddress) (payment : ProofOfPayment) :
    Except Error Unit :=
  ensure (∃ peerQuote ∈ payment.peerQuotes, peerQuote.2.rewardsAddress = localRewardsAddress)
    "Payment proof does not include this node as a recipient"

/-- The blocking task of `verify_evm_payment`. -/
def verifyQuoteSignatures (payment : ProofOfPayment) : Except Error Unit :=
  payment.peerQuotes.forM fun (encodedPeerId, quote) =>
    ensure (verifyQuoteSignature E quote)
      s!"Quote ML-DSA-65 signature verification failed for peer {E.debugPeerId encodedPeerId}"

def paidResults (results : List PaymentVerificationResult) : List PaymentVerificationResult :=
  results.filter fun r => 0 < r.amountPaid

def checkPaidResults (xorname : XorName) (results : List PaymentVerificationResult) :
    Except Error Unit := do
  ensure (paidResults results ≠ [])
    s!"Payment verification failed on-chain for {hexEncode xorname} (no paid quotes found)"
  (paidResults results).forM fun result => ensure result.isValid
    s!"Payment verification failed on-chain for {hexEncode xorname} (paid quote is invalid)"

/-- `verify_evm_payment` up to the signatures. -/
def verifyEvmBegin (localRewardsAddress : RewardsAddress) (xorname : XorName) (now : SystemTime)
    (payment : ProofOfPayment) : Except Error Unit := do
  validateQuoteStructure E payment
  validateQuoteContent E payment xorname
  validateQuoteTimestamps E now payment
  validatePeerBindings E payment
  validateLocalRecipient localRewardsAddress payment

/-- `verify_evm_payment` from the signatures on: what the vault is asked. -/
def paymentDigest (payment : ProofOfPayment) : Except Error (List PaymentVerification) := do
  ensure (E.digest payment ≠ []) "Payment has no quotes"
  pure (E.digest payment)

/-- The end of `verify_evm_payment`. -/
def verifyEvmEnd (xorname : XorName) (answer : Except String (List PaymentVerificationResult)) :
    Except Error (List PaymentVerificationResult) := do
  let results ← answer.mapError fun e =>
    .payment s!"EVM verification error for {hexEncode xorname}: {e}"
  checkPaidResults xorname results
  pure results

def verifyEvmPayment (localRewardsAddress : RewardsAddress) (xorname : XorName) (now : SystemTime)
    (vault : List PaymentVerification → Except String (List PaymentVerificationResult))
    (payment : ProofOfPayment) : Except Error Unit := do
  verifyEvmBegin E localRewardsAddress xorname now payment
  verifyQuoteSignatures E payment
  let query ← paymentDigest E payment
  let _ ← verifyEvmEnd xorname (vault query)
  pure ()

/-! ## The checks of a merkle proof -/

def validateCandidate (info : OnChainPaymentInfo) (candidate : MerklePaymentCandidateNode) :
    Except Error Unit := do
  ensure (verifyMerkleCandidateSignature E candidate)
    s!"Invalid ML-DSA-65 signature on merkle candidate node (reward: {E.displayAddress candidate.rewardAddress})"
  ensure (candidate.merklePaymentTimestamp = info.merklePaymentTimestamp)
    s!"Candidate timestamp mismatch: expected {info.merklePaymentTimestamp}, got {candidate.merklePaymentTimestamp} (reward: {E.displayAddress candidate.rewardAddress})"

def validatePaidNode (candidateNodes : List MerklePaymentCandidateNode)
    (paidNode : RewardsAddress × ℕ) : Except Error Unit :=
  match candidateNodes[paidNode.2]? with
  | none => .error (.payment
      s!"Paid node index {paidNode.2} out of bounds for pool size {candidateNodes.length}")
  | some node => ensure (node.rewardAddress = paidNode.1)
      s!"Paid node address mismatch at index {paidNode.2}: expected {E.displayAddress paidNode.1}, got {E.displayAddress node.rewardAddress}"

/-- `verify_merkle_payment` once the payment of the pool is known; `merkle` is the verdict of
    `verify_merkle_proof`. -/
def verifyMerkleEnd (xorname : XorName) (proof : MerklePaymentProof) (info : OnChainPaymentInfo)
    (merkle : Except String Unit) : Except Error Unit := do
  proof.winnerPool.candidateNodes.forM (validateCandidate E info)
  merkle.mapError fun e =>
    .payment s!"Merkle proof verification failed for {hexEncode xorname}: {e}"
  ensure (info.paidNodeAddresses.length = info.depth)
    s!"Wrong number of paid nodes: expected {info.depth}, got {info.paidNodeAddresses.length}"
  info.paidNodeAddresses.forM (validatePaidNode E proof.winnerPool.candidateNodes)

/-! ## What the checks accept -/

/-- Whole seconds count: up to a day old, up to a minute ahead. -/
def Fresh (now timestamp : SystemTime) : Prop :=
  asSecs (now - timestamp) ≤ quoteMaxAgeSecs ∧ asSecs (timestamp - now) ≤ quoteClockSkewToleranceSecs

/-- What `verify_evm_payment` asks of the quotes, up to their signatures. -/
structure QuotesValid (localRewardsAddress : RewardsAddress) (xorname : XorName) (now : SystemTime)
    (payment : ProofOfPayment) : Prop where
  count : payment.peerQuotes.length = closeGroupSize
  distinct : (payment.peerQuotes.map Prod.fst).Nodup
  content : ∀ q ∈ payment.peerQuotes, q.2.content = xorname
  fresh : ∀ q ∈ payment.peerQuotes, Fresh now q.2.timestamp
  bound : ∀ q ∈ payment.peerQuotes, ∃ id, E.peerIdFromPublicKeyBytes q.2.pubKey = .ok id ∧
    id.toList = q.1
  recipient : ∃ q ∈ payment.peerQuotes, q.2.rewardsAddress = localRewardsAddress

def QuotesSigned (payment : ProofOfPayment) : Prop :=
  ∀ q ∈ payment.peerQuotes, verifyQuoteSignature E q.2 = true

/-- Some quote is paid for, and those that are are valid. -/
def PaidOnChain (results : List PaymentVerificationResult) : Prop :=
  (∃ r ∈ results, 0 < r.amountPaid) ∧ ∀ r ∈ results, 0 < r.amountPaid → r.isValid = true

/-- What `verify_merkle_payment` asks of a pool and its payment. -/
structure PoolValid (candidateNodes : List MerklePaymentCandidateNode) (info : OnChainPaymentInfo) :
    Prop where
  signed : ∀ c ∈ candidateNodes, verifyMerkleCandidateSignature E c = true
  timestamp : ∀ c ∈ candidateNodes, c.merklePaymentTimestamp = info.merklePaymentTimestamp
  count : info.paidNodeAddresses.length = info.depth
  paid : ∀ e ∈ info.paidNodeAddresses, ∃ node, candidateNodes[e.2]? = some node ∧
    node.rewardAddress = e.1

variable {E} {payment : ProofOfPayment} {localRewardsAddress : RewardsAddress} {xorname : XorName}
  {now : SystemTime}

theorem bind_unit_eq_ok {x : Except Error Unit} {f : Unit → Except Error Unit} :
    (x >>= f) = .ok () ↔ x = .ok () ∧ f () = .ok () := by
  cases x with
  | error e => simp [bind, Except.bind]
  | ok u => simp [bind, Except.bind]

theorem forM_eq_ok {α : Type} {f : α → Except Error Unit} {l : List α} :
    l.forM f = .ok () ↔ ∀ a ∈ l, f a = .ok () := by
  induction l with
  | nil => simp [pure, Except.pure]
  | cons a l ih =>
    rw [List.forall_mem_cons, ← ih]
    exact bind_unit_eq_ok

theorem mapError_unit_eq_ok {x : Except String Unit} {f : String → Error} :
    x.mapError f = .ok () ↔ x = .ok () := by
  cases x <;> simp [Except.mapError]

theorem validateDistinct_eq_ok {quotes : List (EncodedPeerId × PaymentQuote)} :
    ∀ {seen : List EncodedPeerId}, seen.Nodup →
      (validateDistinct E seen quotes = .ok () ↔ (seen ++ quotes.map Prod.fst).Nodup) := by
  induction quotes with
  | nil => intro seen h; simp [validateDistinct, h]
  | cons q quotes ih =>
    intro seen h
    rw [validateDistinct, bind_unit_eq_ok, ensure_eq_ok, List.map_cons]
    by_cases hq : q.1 ∈ seen
    · refine iff_of_false (fun h => h.1 hq) fun hn => ?_
      exact (List.nodup_append.1 hn).2.2 q.1 hq q.1 (List.mem_cons_self ..) rfl
    · have hs : (seen ++ [q.1]).Nodup := by
        rw [List.nodup_append]
        refine ⟨h, List.nodup_singleton _, fun a ha b hb => ?_⟩
        rw [List.mem_singleton.1 hb]
        exact fun he => hq (he ▸ ha)
      rw [and_iff_right hq, ih hs, List.append_assoc, List.singleton_append]

theorem validateQuoteStructure_eq_ok : validateQuoteStructure E payment = .ok () ↔
    payment.peerQuotes.length = closeGroupSize ∧ (payment.peerQuotes.map Prod.fst).Nodup := by
  simp only [validateQuoteStructure, bind_unit_eq_ok, ensure_eq_ok,
    validateDistinct_eq_ok List.nodup_nil, List.nil_append]
  constructor
  · rintro ⟨-, hlen, hnodup⟩
    exact ⟨hlen, hnodup⟩
  · rintro ⟨hlen, hnodup⟩
    refine ⟨fun h => ?_, hlen, hnodup⟩
    rw [h] at hlen
    cases hlen

theorem validateQuoteTimestamp_eq_ok {q : EncodedPeerId × PaymentQuote} :
    validateQuoteTimestamp E now q = .ok () ↔ Fresh now q.2.timestamp := by
  rw [validateQuoteTimestamp, Fresh]
  by_cases h : q.2.timestamp ≤ now
  · rw [if_pos h, ensure_eq_ok, Nat.sub_eq_zero_of_le h]
    simp [asSecs]
  · rw [if_neg h, ensure_eq_ok, Nat.sub_eq_zero_of_le (Nat.le_of_not_le h)]
    simp [asSecs]

theorem validatePeerBinding_eq_ok {q : EncodedPeerId × PaymentQuote} :
    validatePeerBinding E q = .ok () ↔
      ∃ id, E.peerIdFromPublicKeyBytes q.2.pubKey = .ok id ∧ id.toList = q.1 := by
  rw [validatePeerBinding, bind_eq_ok]
  rcases E.peerIdFromPublicKeyBytes q.2.pubKey with e | id
  · simp [Except.mapError]
  · simp [Except.mapError]

theorem verifyEvmBegin_eq_ok : verifyEvmBegin E localRewardsAddress xorname now payment = .ok () ↔
    QuotesValid E localRewardsAddress xorname now payment := by
  simp only [verifyEvmBegin, bind_unit_eq_ok, validateQuoteStructure_eq_ok, validateQuoteContent,
    validateQuoteTimestamps, validatePeerBindings, validateLocalRecipient, forM_eq_ok, ensure_eq_ok,
    validateQuoteTimestamp_eq_ok, validatePeerBinding_eq_ok, verifyQuoteContent, decide_eq_true_eq]
  constructor
  · rintro ⟨⟨hcount, hdistinct⟩, hcontent, hfresh, hbound, hrecipient⟩
    exact ⟨hcount, hdistinct, hcontent, hfresh, hbound, hrecipient⟩
  · rintro ⟨hcount, hdistinct, hcontent, hfresh, hbound, hrecipient⟩
    exact ⟨⟨hcount, hdistinct⟩, hcontent, hfresh, hbound, hrecipient⟩

theorem verifyQuoteSignatures_eq_ok : verifyQuoteSignatures E payment = .ok () ↔
    QuotesSigned E payment := by
  rw [verifyQuoteSignatures, forM_eq_ok]
  simp only [ensure_eq_ok, QuotesSigned]

theorem paymentDigest_eq_ok {query : List PaymentVerification} :
    paymentDigest E payment = .ok query ↔ E.digest payment ≠ [] ∧ E.digest payment = query := by
  rw [paymentDigest, bind_eq_ok]
  simp [pure, Except.pure]

theorem checkPaidResults_eq_ok {results : List PaymentVerificationResult} :
    checkPaidResults xorname results = .ok () ↔ PaidOnChain results := by
  simp only [checkPaidResults, bind_unit_eq_ok, forM_eq_ok, ensure_eq_ok, paidResults, PaidOnChain,
    ne_eq, List.filter_eq_nil_iff, List.mem_filter, decide_eq_true_eq, not_forall, not_not, and_imp,
    exists_prop]

theorem verifyEvmEnd_eq_ok {answer : Except String (List PaymentVerificationResult)}
    {results : List PaymentVerificationResult} :
    verifyEvmEnd xorname answer = .ok results ↔ answer = .ok results ∧ PaidOnChain results := by
  rw [verifyEvmEnd, bind_eq_ok]
  rcases answer with e | rs
  · simp [Except.mapError]
  · simp only [Except.mapError, Except.ok.injEq, exists_eq_left', bind_eq_ok]
    constructor
    · rintro ⟨u, hcheck, hr⟩
      cases hr
      exact ⟨rfl, checkPaidResults_eq_ok.1 hcheck⟩
    · rintro ⟨rfl, hpaid⟩
      exact ⟨(), checkPaidResults_eq_ok.2 hpaid, rfl⟩

theorem verifyEvmPayment_eq_ok
    {vault : List PaymentVerification → Except String (List PaymentVerificationResult)} :
    verifyEvmPayment E localRewardsAddress xorname now vault payment = .ok () ↔
      QuotesValid E localRewardsAddress xorname now payment ∧ QuotesSigned E payment ∧
      E.digest payment ≠ [] ∧
      ∃ results, vault (E.digest payment) = .ok results ∧ PaidOnChain results := by
  rw [verifyEvmPayment, bind_unit_eq_ok, bind_unit_eq_ok, verifyEvmBegin_eq_ok,
    verifyQuoteSignatures_eq_ok, bind_eq_ok]
  simp only [paymentDigest_eq_ok, bind_eq_ok, verifyEvmEnd_eq_ok, pure, Except.pure, and_true,
    and_assoc, exists_and_left, exists_eq_left']

theorem validateCandidate_eq_ok {info : OnChainPaymentInfo} {c : MerklePaymentCandidateNode} :
    validateCandidate E info c = .ok () ↔ verifyMerkleCandidateSignature E c = true ∧
      c.merklePaymentTimestamp = info.merklePaymentTimestamp := by
  simp only [validateCandidate, bind_unit_eq_ok, ensure_eq_ok]

theorem validatePaidNode_eq_ok {nodes : List MerklePaymentCandidateNode} {e : RewardsAddress × ℕ} :
    validatePaidNode E nodes e = .ok () ↔ ∃ node, nodes[e.2]? = some node ∧ node.rewardAddress = e.1 := by
  rw [validatePaidNode]
  cases nodes[e.2]? <;> simp

theorem verifyMerkleEnd_eq_ok {proof : MerklePaymentProof} {info : OnChainPaymentInfo}
    {merkle : Except String Unit} : verifyMerkleEnd E xorname proof info merkle = .ok () ↔
      merkle = .ok () ∧ PoolValid E proof.winnerPool.candidateNodes info := by
  simp only [verifyMerkleEnd, bind_unit_eq_ok, forM_eq_ok, ensure_eq_ok, validateCandidate_eq_ok,
    validatePaidNode_eq_ok, mapError_unit_eq_ok]
  constructor
  · rintro ⟨hcandidates, hmerkle, hcount, hpaid⟩
    exact ⟨hmerkle, fun c hc => (hcandidates c hc).1, fun c hc => (hcandidates c hc).2, hcount, hpaid⟩
  · rintro ⟨hmerkle, hsigned, htimestamp, hcount, hpaid⟩
    exact ⟨fun c hc => ⟨hsigned c hc, htimestamp c hc⟩, hmerkle, hcount, hpaid⟩

end Autonomi.AntNode
