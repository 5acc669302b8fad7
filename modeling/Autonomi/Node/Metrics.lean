/-
  Calls of `record_payment` and `record_store` on one tracker, interleaved, and
  the file that the tracker is restored from (`ant-node/src/payment/metrics.rs`).
-/
import Autonomi.Node.Quote
import Autonomi.Lib.Files
import Autonomi.Lib.Trace

namespace Autonomi.AntNode

open Lib

/-- Number of operations between writes to the disk. -/
def persistInterval : ℕ := 10

structure PersistedMetrics where
  receivedPaymentCount : ℕ
  closeRecordsStored : ℕ
  recordsPerType : List (UInt32 × UInt32)
  deriving DecidableEq, Repr

/-- `rmp_serde`. -/
structure Rmp where
  toVec : PersistedMetrics → Option Bytes
  fromSlice : Bytes → Option PersistedMetrics
  fromSlice_eq : ∀ data bytes, toVec data = some bytes → fromSlice bytes = some data

/-- What a call records. -/
inductive MetricsOp where
  | payment
  | store (dataType : UInt32)
  deriving DecidableEq, Repr

/-- Where a call is: `ops` is what it has drawn in `maybe_persist`. -/
inductive MetricsPhase where
  /-- The record is counted, and not yet by its type. -/
  | counted
  /-- `maybe_persist` is next. -/
  | recorded
  | persisting (ops : ℕ)
  | loadedPayments (ops payments : ℕ)
  | loadedStores (ops payments stores : ℕ)
  /-- The file is opened next. -/
  | loaded (ops : ℕ) (bytes : Bytes)
  | writing (ops : ℕ) (bytes : Bytes) (written : ℕ)
  | returning (ops : ℕ)
  | returned (ops : ℕ)
  deriving DecidableEq, Repr

namespace MetricsPhase

def ops : MetricsPhase → Option ℕ
  | counted | recorded => none
  | persisting ops | loadedPayments ops _ | loadedStores ops _ _ | loaded ops _ | writing ops _ _
  | returning ops | returned ops => some ops

/-- Between the first load of a snapshot and the end of its write. -/
def inProgress : MetricsPhase → Bool
  | loadedPayments .. | loadedStores .. | loaded .. | writing .. => true
  | _ => false

/-- The metrics are still to be written. -/
def isPending : MetricsPhase → Bool
  | persisting _ => true
  | phase => phase.inProgress

def isWriting : MetricsPhase → Bool
  | writing .. => true
  | _ => false

/-- The file does not have all of the bytes. -/
def isTorn : MetricsPhase → Bool
  | writing _ bytes written => written < bytes.length
  | _ => false

def isReturned : MetricsPhase → Bool
  | returned _ => true
  | _ => false

end MetricsPhase

structure MetricsCall where
  op : MetricsOp
  phase : MetricsPhase
  deriving DecidableEq, Repr

/-- A tracker with its file, and the one that is opened on the file after a crash. -/
structure Metrics where
  tracker : QuotingMetricsTracker
  opsSincePersist : ℕ
  file : Option Bytes
  calls : List MetricsCall
  restarted : Option QuotingMetricsTracker

inductive MetricsAction where
  | begin (op : MetricsOp)
  /-- The next step of a call that does not touch the file. -/
  | advance (call : ℕ)
  | create (call : ℕ)
  /-- A part of the bytes. -/
  | write (call n : ℕ)
  /-- The file is not opened, or not written to the end. -/
  | fail (call : ℕ)
  /-- The process crashes, and a tracker is opened on the path. -/
  | restart (readable : Bool)
  deriving DecidableEq, Repr

namespace QuotingMetricsTracker

def loadFromDisk (R : Rmp) (readable : Bool) (file : Option Bytes) : Option PersistedMetrics :=
  if readable then file.bind R.fromSlice else none

def withPersistence (R : Rmp) (maxRecords : ℕ) (readable : Bool) (file : Option Bytes) :
    QuotingMetricsTracker :=
  match loadFromDisk R readable file with
  | some loaded =>
    ⟨loaded.receivedPaymentCount, maxRecords, loaded.closeRecordsStored, loaded.recordsPerType, 500⟩
  | none => ⟨0, maxRecords, 0, [], 500⟩

end QuotingMetricsTracker

namespace Metrics

variable (R : Rmp) (s : Metrics)

def opened (maxRecords : ℕ) (file : Option Bytes) : Metrics where
  tracker := .withPersistence R maxRecords true file
  opsSincePersist := 0
  file := file
  calls := []
  restarted := none

def setPhase (i : ℕ) (c : MetricsCall) (phase : MetricsPhase) : Metrics :=
  { s with calls := s.calls.set i { c with phase := phase } }

/-- The first step of a call. -/
def begin : MetricsOp → Metrics
  | .payment =>
    { s with tracker := s.tracker.recordPayment, calls := s.calls ++ [⟨.payment, .recorded⟩] }
  | .store dataType =>
    { s with
      tracker := s.tracker.recordStored
      calls := s.calls ++ [⟨.store dataType, .counted⟩] }

def advance (i : ℕ) (c : MetricsCall) : Option Metrics :=
  match c.phase with
  | .counted =>
    match c.op with
    | .payment => none
    | .store dataType =>
      some { s.setPhase i c .recorded with tracker := s.tracker.recordType dataType }
  | .recorded =>
    let ops := s.opsSincePersist
    let phase := if ops % persistInterval = 0 then .persisting ops else .returning ops
    some { s.setPhase i c phase with opsSincePersist := ops + 1 }
  | .persisting ops => some (s.setPhase i c (.loadedPayments ops s.tracker.receivedPaymentCount))
  | .loadedPayments ops payments =>
    some (s.setPhase i c (.loadedStores ops payments s.tracker.closeRecordsStored))
  | .loadedStores ops payments stores =>
    match R.toVec ⟨payments, stores, s.tracker.recordsPerType⟩ with
    | some bytes => some (s.setPhase i c (.loaded ops bytes))
    | none => some (s.setPhase i c (.returning ops))
  | .writing ops bytes written =>
    if written = bytes.length then some (s.setPhase i c (.returning ops)) else none
  | .returning ops => some (s.setPhase i c (.returned ops))
  | .loaded .. | .returned _ => none

def callStep (i : ℕ) (c : MetricsCall) : MetricsAction → Option Metrics
  | .advance _ => s.advance R i c
  | .create _ =>
    match c.phase with
    | .loaded ops bytes => some { s.setPhase i c (.writing ops bytes 0) with file := some [] }
    | _ => none
  | .write _ n =>
    match c.phase with
    | .writing ops bytes written =>
      let part := (bytes.drop written).take n
      some { s.setPhase i c (.writing ops bytes (written + part.length)) with
        file := s.file.map fun content => writeAt content written part }
    | _ => none
  | .fail _ =>
    match c.phase with
    | .loaded ops _ | .writing ops _ _ => some (s.setPhase i c (.returning ops))
    | _ => none
  | _ => none

def call : MetricsAction → Option ℕ
  | .advance i | .create i | .write i _ | .fail i => some i
  | .begin _ | .restart _ => none

def step (a : MetricsAction) : Option Metrics :=
  if s.restarted.isSome then none
  else
    match a with
    | .begin op => some (s.begin op)
    | .restart readable =>
      some { s with
        restarted := some (.withPersistence R s.tracker.maxRecords readable s.file) }
    | a => (call a).bind fun i => (s.calls[i]?).bind fun c => s.callStep R i c a

end Metrics

/-! ## What a crash may cost -/

/-- A count of the tracker. -/
inductive Counter where
  | payments
  | stores
  | ofType (dataType : UInt32)
  deriving DecidableEq, Repr

namespace Counter

/-- Which operations it counts. -/
def counts : Counter → MetricsOp → Bool
  | payments, .payment => true
  | stores, .store _ => true
  | ofType t, .store dataType => dataType = t
  | _, _ => false

def read (m : QuotingMetricsTracker) : Counter → ℕ
  | payments => m.receivedPaymentCount
  | stores => m.closeRecordsStored
  | ofType dataType => countOf dataType m.recordsPerType

/-- Of the calls that have begun. -/
def begun (c : Counter) (calls : List MetricsCall) : ℕ := calls.countP fun x => c.counts x.op

def returned (c : Counter) (calls : List MetricsCall) : ℕ :=
  calls.countP fun x => c.counts x.op && x.phase.isReturned

end Counter

section Loss

variable (before after : QuotingMetricsTracker) (calls : List MetricsCall)

/-- How many operations of the calls that have returned the count does not have. -/
def missing (c : Counter) : ℕ := c.read before + c.returned calls - c.read after

/-- `after` has no more than what was recorded since `before`, and almost all of it. -/
structure BoundedLoss : Prop where
  atMost : ∀ c : Counter, c.read after ≤ c.read before + c.begun calls
  missed : missing before after calls .payments + missing before after calls .stores <
    persistInterval
  missedTypes : ∀ types : Finset UInt32, missing before after calls .payments +
    ∑ t ∈ types, missing before after calls (.ofType t) < persistInterval

end Loss

/-- Each tracker that is opened after a crash has lost little. -/
def Metrics.Sound (before : QuotingMetricsTracker) (s : Metrics) : Prop :=
  ∀ after ∈ s.restarted, BoundedLoss before after s.calls

end Autonomi.AntNode
