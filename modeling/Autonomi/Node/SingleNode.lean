/-
  Paying one of five quotes (`ant-node/src/payment/single_node.rs`, `proof.rs`).
-/
import Autonomi.Lib.Lookup
import Autonomi.Node.Payment

namespace Autonomi.AntNode

open Lib

/-- `evmlib`'s `Amount`, below `2 ^ 256`. -/
abbrev Amount := ℕ

def medianIndex : ℕ := closeGroupSize / 2

structure QuotePaymentInfo where
  quoteHash : QuoteHash
  rewardsAddress : RewardsAddress
  amount : Amount
  quotingMetrics : QuotingMetrics
  deriving DecidableEq

/-- Sorted by price. -/
structure SingleNodePayment where
  quotes : List QuotePaymentInfo
  length_quotes : quotes.length = closeGroupSize
  deriving DecidableEq

/-- What the wallet is told to pay. -/
abbrev QuotePayment := QuoteHash × RewardsAddress × Amount

def QuotePaymentInfo.payment (info : QuotePaymentInfo) : QuotePayment :=
  (info.quoteHash, info.rewardsAddress, info.amount)

/-- `checked_mul`. -/
def checkedMul (a b : Amount) : Option Amount := if a * b < 2 ^ 256 then some (a * b) else none

/-- `sort_by_key`, which is stable. -/
def sortByPrice (quotes : List (PaymentQuote × Amount)) : List (PaymentQuote × Amount) :=
  quotes.insertionSort fun a b => a.2 ≤ b.2

variable (E : Evm)

namespace SingleNodePayment

/-- The sorted quotes, the one in the middle with what is paid for it. -/
def infosOf (enhancedPrice : Amount) (sorted : List (PaymentQuote × Amount)) :
    List QuotePaymentInfo :=
  sorted.mapIdx fun idx q =>
    ⟨E.quoteHash q.1, q.1.rewardsAddress, if idx = medianIndex then enhancedPrice else 0,
      q.1.quotingMetrics⟩

def fromQuotes (quotesWithPrices : List (PaymentQuote × Amount)) : Except Error SingleNodePayment := do
  let len := quotesWithPrices.length
  ensure (len = closeGroupSize)
    s!"SingleNode payment requires exactly {closeGroupSize} quotes, got {len}"
  let sorted := sortByPrice quotesWithPrices
  let (_, medianPrice) ← okOr (.payment
    s!"Missing median quote at index {medianIndex}: expected {closeGroupSize} quotes but get() failed")
    sorted[medianIndex]?
  let enhancedPrice ← okOr (.payment "Price overflow when calculating 3x median")
    (checkedMul medianPrice 3)
  let quotes := infosOf E enhancedPrice sorted
  if h : quotes.length = closeGroupSize then pure ⟨quotes, h⟩
  else .error (.payment "Failed to convert quotes to fixed array")

variable (payment : SingleNodePayment)

def totalAmount : Amount := (payment.quotes.map QuotePaymentInfo.amount).sum

/-- The hashes of the transactions, one for each quote that was paid. -/
def txHashes {ε : Type} (missing : QuoteHash → ε) (txHashMap : Lookup QuoteHash TxHash) :
    Except ε (List TxHash) :=
  (payment.quotes.filter fun info => 0 < info.amount).mapM fun info =>
    okOr (missing info.quoteHash) (txHashMap info.quoteHash)

/-- The answer of `wallet.pay_for_quotes` is given. -/
def pay (displayQuoteHash : QuoteHash → String)
    (payForQuotes : List QuotePayment → Except String (List (QuoteHash × TxHash))) :
    Except Error (List TxHash) := do
  let txHashes ← (payForQuotes (payment.quotes.map QuotePaymentInfo.payment)).mapError fun err =>
    .payment s!"Failed to pay for quotes: {err}"
  payment.txHashes
    (fun hash => .payment s!"Missing transaction hash for non-zero quote {displayQuoteHash hash}")
    (.ofList txHashes)

end SingleNodePayment

/-- How `rmp_serde` writes the proof is given. -/
def serializeSingleNodeProof (writePaymentProof : PaymentProof → Except String Bytes)
    (proof : PaymentProof) : Except String Bytes := do
  let body ← writePaymentProof proof
  pure (proofTagSingleNode :: body)

end Autonomi.AntNode
