/-
  The quotes of a close group and the payment made of them
  (`ant-core/src/data/client/quote.rs`, `payment.rs`, `batch.rs`, `mod.rs`,
  `network.rs`).
-/
import Autonomi.Client.Upload
import Autonomi.Lib.Unordered
import Autonomi.Node.Fetch
import Autonomi.Node.SingleNode

namespace Autonomi.AntClient

open Lib AntNode

/-- The errors of `data/error.rs` that the modelled functions make or match on. -/
inductive Error where
  | network (msg : String)
  | payment (msg : String)
  | protocol (msg : String)
  | invalidData (msg : String)
  | serialization (msg : String)
  | io (msg : String)
  | timeout (msg : String)
  | insufficientPeers (msg : String)
  | encryption (msg : String)
  | alreadyStored
  deriving DecidableEq

def Error.text : Error → String
  | .network msg => s!"network error: {msg}"
  | .payment msg => s!"payment error: {msg}"
  | .protocol msg => s!"protocol error: {msg}"
  | .invalidData msg => s!"invalid data: {msg}"
  | .serialization msg => s!"serialization error: {msg}"
  | .io msg => s!"I/O error: {msg}"
  | .timeout msg => s!"timeout: {msg}"
  | .insufficientPeers msg => s!"insufficient peers: {msg}"
  | .encryption msg => s!"encryption error: {msg}"
  | .alreadyStored => "already stored on network"

/-- `evmlib`, `rmp_serde`, the price formula and the texts of names, as the client uses them. -/
structure ClientEvm extends Evm where
  readQuote : Bytes → Except String PaymentQuote
  writeQuote : PaymentQuote → Except String Bytes
  writePaymentProof : PaymentProof → Except String Bytes
  calculatePrice : QuotingMetrics → Amount
  displayPeerId : PeerId → String
  displayQuoteHash : QuoteHash → String

structure Client where
  timeoutSecs : ℕ
  closeGroupSize : ℕ
  wallet : Bool
  evmNetwork : Bool

/-- What one call of the client meets in the network. -/
structure Network where
  p2p : P2PNode
  peerId : PeerId
  /-- The numbers that the call draws. -/
  requestIds : ℕ → UInt64

/-- What one call of the client meets in the contract and the wallet. -/
structure Chain where
  getMarketPrice : List QuotingMetrics → Except String (List Amount)
  payForQuotes : List QuotePayment → Except String (List (QuoteHash × TxHash))

namespace Client

variable (client : Client)

def requireWallet : Except Error Unit :=
  if client.wallet then .ok ()
  else .error (.payment "Wallet not configured — call with_wallet() first")

def requireEvmNetwork : Except Error Unit :=
  if client.evmNetwork ∨ client.wallet then .ok ()
  else .error (.payment
    "EVM network not configured — call with_evm_network() or with_wallet() first")

end Client

/-! ## Peers -/

namespace Network

variable (net : Network)

def findClosestPeers (target : XorName) (count : ℕ) : Except Error (List PeerId) := do
  let closestNodes ← (net.p2p.findClosestNodes target (count + 1)).mapError fun e =>
    .network s!"DHT closest-nodes lookup failed: {e}"
  pure ((closestNodes.filter fun peer => peer ≠ net.peerId).take count)

def closeGroupPeers (client : Client) (target : XorName) : Except Error (List PeerId) := do
  let peers ← net.findClosestPeers target client.closeGroupSize
  if peers.isEmpty then .error (.insufficientPeers "DHT returned no peers for target address")
  else pure peers

end Network

/-! ## Quotes -/

variable (C : ClientEvm) (client : Client) (net : Network)

/-- What comes of one quote request. -/
abbrev QuoteResult := PeerId × Except Error (PaymentQuote × Amount)

/-- A quote, who gave it, and what it comes to. -/
abbrev Quoted := PeerId × PaymentQuote × Amount

def quoteHandler (peerId : PeerId) :
    ChunkMessageBody → Option (Except Error (PaymentQuote × Amount))
  | .quoteResponse (.success quote alreadyStored) =>
    if alreadyStored then some (.error .alreadyStored)
    else match C.readQuote quote with
      | .ok paymentQuote =>
        some (.ok (paymentQuote, C.calculatePrice paymentQuote.quotingMetrics))
      | .error e => some (.error (.serialization
          s!"Failed to deserialize quote from {C.displayPeerId peerId}: {e}"))
  | .quoteResponse (.error e) =>
    some (.error (.protocol s!"Quote error from {C.displayPeerId peerId}: {e.text}"))
  | _ => none

/-- The request to the peer that is asked in this turn. -/
def requestQuote (request : ChunkQuoteRequest) (peer : PeerId × ℕ) : QuoteResult :=
  let (peerId, turn) := peer
  let requestId := net.requestIds turn
  let message : ChunkMessage := ⟨requestId, .quoteRequest request⟩
  (peerId, sendAndAwaitChunkResponse net.p2p turn peerId message.encode requestId
    (quoteHandler C peerId)
    (fun e => .network s!"Failed to send quote request to {C.displayPeerId peerId}: {e}")
    (.timeout s!"Timeout waiting for quote from {C.displayPeerId peerId}"))

/-- The loop over the answers, as they come. -/
def collectQuotes (quotes : List Quoted) (alreadyStoredCount : ℕ) (failures : List String) :
    List QuoteResult → Except Error (List Quoted)
  | [] =>
    let failed := "; ".intercalate failures
    if closeGroupSize ≤ quotes.length then .ok quotes
    else .error (.insufficientPeers
      s!"Got {quotes.length} quotes, need {closeGroupSize}. Failures: [{failed}]")
  | (peerId, .ok (quote, price)) :: results =>
    collectQuotes (quotes ++ [(peerId, quote, price)]) alreadyStoredCount failures results
  | (_, .error .alreadyStored) :: results =>
    if closeGroupMajority ≤ alreadyStoredCount + 1 then .error .alreadyStored
    else collectQuotes quotes (alreadyStoredCount + 1) failures results
  | (peerId, .error e) :: results =>
    collectQuotes quotes alreadyStoredCount
      (failures ++ [s!"{C.displayPeerId peerId}: {e.text}"]) results

def getStoreQuotes (order : Unordered QuoteResult) (request : ChunkQuoteRequest) :
    Except Error (List Quoted) := do
  let peers ← net.closeGroupPeers client request.address
  let remotePeers := peers.take closeGroupSize
  if remotePeers.length < closeGroupSize then
    .error (.insufficientPeers s!"Found {remotePeers.length} peers, need {closeGroupSize}")
  else
    collectQuotes C [] 0 [] (order (remotePeers.zipIdx.map (requestQuote C net request)))

/-! ## The payment -/

/-- The quotes with what the contract asks for them, and the payment made of them. -/
def priceQuotes (chain : Chain) (quotesWithPeers : List Quoted) :
    Except Error (List (EncodedPeerId × PaymentQuote) × SingleNodePayment) := do
  client.requireEvmNetwork
  let contractPrices ← (chain.getMarketPrice
    (quotesWithPeers.map fun q => q.2.1.quotingMetrics)).mapError fun e =>
      .payment s!"Failed to get market prices from contract: {e}"
  if contractPrices.length ≠ quotesWithPeers.length then
    .error (.payment
      s!"Contract returned {contractPrices.length} prices for {quotesWithPeers.length} quotes")
  else do
    let payment ← (SingleNodePayment.fromQuotes C.toEvm
      ((quotesWithPeers.map fun q => q.2.1).zip contractPrices)).mapError fun e =>
        .payment s!"Failed to create payment: {e.text}"
    pure (quotesWithPeers.map fun q => (q.1.toList, q.2.1), payment)

def serializeProof (proof : PaymentProof) : Except Error Bytes :=
  (serializeSingleNodeProof C.writePaymentProof proof).mapError fun e =>
    .serialization s!"Failed to serialize payment proof: {e}"

/-- `pay_for_storage` once it has the quotes. -/
def payQuotes (chain : Chain) (quotesWithPeers : List Quoted) : Except Error (Bytes × List PeerId) := do
  let (peerQuotes, payment) ← priceQuotes C client chain quotesWithPeers
  let txHashes ← (payment.pay C.displayQuoteHash chain.payForQuotes).mapError fun e =>
    .payment s!"On-chain payment failed: {e.text}"
  let proofBytes ← serializeProof C ⟨⟨peerQuotes⟩, txHashes⟩
  pure (proofBytes, quotesWithPeers.map Prod.fst)

/-- The proof, and the peers that have quoted. -/
def payForStorage (chain : Chain) (order : Unordered QuoteResult) (request : ChunkQuoteRequest) :
    Except Error (Bytes × List PeerId) := do
  client.requireWallet
  let quotesWithPeers ← getStoreQuotes C client net order request
  payQuotes C client chain quotesWithPeers

end Autonomi.AntClient
