/-
  Quoting metrics and quotes (`ant-node/src/payment/metrics.rs`, `quote.rs`) and
  the answer to a quote request (`storage/handler.rs`).
-/
import Autonomi.Node.Payment

namespace Autonomi.AntNode

open Lib

/-- What is written to the disk now and then is no part of it. The counters, which are `usize`, are
    natural numbers. -/
structure QuotingMetricsTracker where
  receivedPaymentCount : ℕ
  maxRecords : ℕ
  closeRecordsStored : ℕ
  recordsPerType : List (UInt32 × UInt32)
  networkSize : ℕ
  deriving DecidableEq

/-- `saturating_add(1)`. -/
def saturatingSucc (n : UInt32) : UInt32 := if n = 4294967295 then n else n + 1

/-- The first entry of the type, or a new one. -/
def countType (dataType : UInt32) : List (UInt32 × UInt32) → List (UInt32 × UInt32)
  | [] => [(dataType, 1)]
  | entry :: records =>
    if entry.1 = dataType then (entry.1, saturatingSucc entry.2) :: records
    else entry :: countType dataType records

namespace QuotingMetricsTracker

variable (m : QuotingMetricsTracker)

def recordPayment : QuotingMetricsTracker :=
  { m with receivedPaymentCount := m.receivedPaymentCount + 1 }

/-- The first half of `record_store`. -/
def recordStored : QuotingMetricsTracker :=
  { m with closeRecordsStored := m.closeRecordsStored + 1 }

/-- Its second half, under the lock. -/
def recordType (dataType : UInt32) : QuotingMetricsTracker :=
  { m with recordsPerType := countType dataType m.recordsPerType }

def getMetrics (liveTimeHours dataSize : ℕ) (dataType : UInt32) : QuotingMetrics :=
  ⟨dataSize, dataType, m.closeRecordsStored, m.recordsPerType, m.maxRecords, m.receivedPaymentCount,
    liveTimeHours, none, some m.networkSize⟩

end QuotingMetricsTracker

/-- What has been counted of a type. -/
def countOf (dataType : UInt32) (records : List (UInt32 × UInt32)) : ℕ :=
  ((records.find? fun entry => entry.1 = dataType).map fun entry => entry.2.toNat).getD 0

def totalOf (records : List (UInt32 × UInt32)) : ℕ := (records.map fun entry => entry.2.toNat).sum

/-! ## Quotes -/

structure QuoteGenerator where
  rewardsAddress : RewardsAddress
  signFn : Option (Bytes → Bytes)
  pubKey : Bytes

variable (E : Evm)

def createQuote (generator : QuoteGenerator) (metrics : QuotingMetricsTracker) (timestamp : SystemTime)
    (liveTimeHours : ℕ) (content : XorName) (dataSize : ℕ) (dataType : UInt32) :
    Except Error PaymentQuote := do
  let signFn ← okOr (.payment "Quote signing not configured") generator.signFn
  let quotingMetrics := metrics.getMetrics liveTimeHours dataSize dataType
  let bytes := E.bytesForSigning content timestamp quotingMetrics generator.rewardsAddress
  let signature := signFn bytes
  ensure (signature ≠ []) "Signing produced empty signature"
  pure ⟨content, timestamp, quotingMetrics, generator.pubKey, generator.rewardsAddress, signature⟩

/-- The result of the check for the chunk, and how `rmp_serde` writes a quote, are given. -/
def handleQuote (stored : Except Error Bool) (writeQuote : PaymentQuote → Except String Bytes)
    (generator : QuoteGenerator) (metrics : QuotingMetricsTracker) (timestamp : SystemTime)
    (liveTimeHours : ℕ) (request : ChunkQuoteRequest) : ChunkQuoteResponse :=
  let alreadyStored := match stored with
    | .ok found => found
    | .error _ => false
  let dataSize := request.dataSize.toNat
  if maxChunkSize < dataSize then .error (.chunkTooLarge dataSize maxChunkSize)
  else match createQuote E generator metrics timestamp liveTimeHours request.address dataSize
      request.dataType with
    | .ok quote =>
      match writeQuote quote with
      | .ok quoteBytes => .success quoteBytes alreadyStored
      | .error e => .error (.quoteFailed s!"Failed to serialize quote: {e}")
    | .error e => .error (.quoteFailed e.text)

/-! ## Counting -/

variable {dataType : UInt32} {records : List (UInt32 × UInt32)}

theorem toNat_saturatingSucc {n : UInt32} (h : n.toNat < 2 ^ 32 - 1) :
    (saturatingSucc n).toNat = n.toNat + 1 := by
  have hn : n ≠ 4294967295 := by rintro rfl; exact absurd h (by decide)
  rw [saturatingSucc, if_neg hn, UInt32.toNat_add]
  have : (1 : UInt32).toNat = 1 := rfl
  omega

theorem le_saturatingSucc (n : UInt32) : n.toNat ≤ (saturatingSucc n).toNat := by
  by_cases h : n.toNat < 2 ^ 32 - 1
  · rw [toNat_saturatingSucc h]; omega
  · have hn : n = 4294967295 := by
      apply UInt32.toNat_inj.1
      have := n.toNat_lt
      change n.toNat = 4294967295
      omega
    rw [saturatingSucc, if_pos hn]

theorem countOf_le_countType : countOf dataType records ≤ countOf dataType (countType dataType records) := by
  induction records with
  | nil => simp [countOf]
  | cons entry records ih =>
    rw [countType]
    by_cases h : entry.1 = dataType
    · simpa [countOf, h] using le_saturatingSucc entry.2
    · simpa [countOf, h] using ih

/-- Below saturation, one more is one more. -/
theorem countOf_countType (h : countOf dataType records < 2 ^ 32 - 1) :
    countOf dataType (countType dataType records) = countOf dataType records + 1 ∧
      totalOf (countType dataType records) = totalOf records + 1 := by
  induction records with
  | nil => simp [countOf, countType, totalOf]
  | cons entry records ih =>
    rw [countType]
    by_cases he : entry.1 = dataType
    · have hn : entry.2.toNat < 2 ^ 32 - 1 := by simpa [countOf, he] using h
      have := toNat_saturatingSucc hn
      simp only [countOf, totalOf, he, List.find?_cons, if_true, decide_true, Option.map_some,
        Option.getD_some, List.map_cons, List.sum_cons, this, true_and]
      omega
    · have hrec := ih (by simpa [countOf, he] using h)
      simp only [countOf, totalOf, he, List.find?_cons, if_false, decide_false, List.map_cons,
        List.sum_cons] at hrec ⊢
      exact ⟨hrec.1, by omega⟩

end Autonomi.AntNode
