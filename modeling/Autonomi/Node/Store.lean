/-
  A node under concurrent requests (`ant-node/src/storage/handler.rs`): the calls
  of `handle_put` with the payment verifier, the store and the metrics they
  share, and the other requests.

  Between two steps of a call lies an `await`, a lock or an atomic counter.
-/
import Autonomi.Node.Quote
import Autonomi.Node.Verifier

namespace Autonomi.AntNode

open Lib

/-- Where a call of `handle_put` is.  `verifying k` waits for the `k`-th call of the verifier. -/
inductive PutState where
  | start
  | verifying (call : ℕ)
  /-- In the blocking task of `LmdbStorage::put`. -/
  | writing
  | recordStored
  | recordType
  | recordPayment
  | done (response : ChunkPutResponse)
  deriving DecidableEq

structure PutCall where
  request : ChunkPutRequest
  state : PutState
  deriving DecidableEq

/-- A change of the database. -/
inductive DbChange where
  | put (i : ℕ) (address : XorName) (content : Bytes)
  | delete (address : XorName)
  deriving DecidableEq

def DbChange.apply (db : Database) : DbChange → Database
  | .put _ address content => db.insert address content
  | .delete address => db.erase address

/-- `changes` are the changes of the database so far. -/
structure NodeState where
  puts : List PutCall
  verifier : Verifier
  storage : LmdbStorage
  metrics : QuotingMetricsTracker
  changes : List DbChange
  deriving DecidableEq

/-- A node that has opened its store. -/
def NodeState.open (storage : LmdbStorage) (metrics : QuotingMetricsTracker) : NodeState :=
  ⟨[], .new, storage, metrics, []⟩

/-- `verified` takes the verdict of the verifier; what fails of the store is given. -/
inductive NodeAction where
  | put (request : ChunkPutRequest)
  | check (i : ℕ) (faults : Faults)
  | verify (a : VerifyAction)
  | verified (i : ℕ) (faults : Faults)
  | write (i : ℕ) (faults : Faults)
  | recordStored (i : ℕ)
  | recordType (i : ℕ)
  | recordPayment (i : ℕ)
  | get (address : XorName) (faults : Faults)
  | quote (request : ChunkQuoteRequest)
  | delete (address : XorName) (faults : Faults)

namespace NodeState

variable (P : Primitives) (E : Evm) (localRewardsAddress : RewardsAddress)

/-- `handle_put` up to the payment: the answer, if there is one already. -/
def putChecked (storage : LmdbStorage) (request : ChunkPutRequest) (faults : Faults) :
    Option ChunkPutResponse :=
  let computed := computeAddress P request.content
  if maxChunkSize < request.content.length then
    some (.error (.chunkTooLarge request.content.length maxChunkSize))
  else if computed ≠ request.address then
    some (.error (.addressMismatch request.address computed))
  else match storage.existsAt request.address faults with
    | .ok true => some (.alreadyExists request.address)
    | .error e => some (.error (.internal s!"Storage read failed: {e.text}"))
    | .ok false => none

/-- What the result of `verify_payment` comes to, if the chunk is not to be stored. -/
def paymentRefused : Except Error PaymentStatus → Option ChunkPutResponse
  | .ok status =>
    if status.canStore then none else some (.paymentRequired "Payment required for new chunk")
  | .error e => some (.error (.paymentFailed e.text))

/-- What the result of `LmdbStorage::put` comes to. -/
def putStored : Except Error Bool → PutState
  | .ok _ => .recordStored
  | .error e => .done (.error (.storageFailed e.text))

def set (s : NodeState) (i : ℕ) (p : PutCall) (state : PutState) : NodeState :=
  { s with puts := s.puts.set i { p with state := state } }

def check (s : NodeState) (i : ℕ) (p : PutCall) (faults : Faults) : NodeState :=
  match putChecked P s.storage p.request faults with
  | some response => s.set i p (.done response)
  | none =>
    { s.set i p (.verifying s.verifier.calls.length) with
      verifier.calls := s.verifier.calls ++ [⟨p.request.address, p.request.paymentProof, .start⟩] }

def verified (s : NodeState) (i : ℕ) (p : PutCall) (result : Except Error PaymentStatus)
    (faults : Faults) : NodeState :=
  match paymentRefused result with
  | some response => s.set i p (.done response)
  | none =>
    match s.storage.putBegin P p.request.address p.request.content faults with
    | (some stored, storage) => { s.set i p (putStored stored) with storage := storage }
    | (none, _) => s.set i p .writing

def write (s : NodeState) (i : ℕ) (p : PutCall) (faults : Faults) : NodeState :=
  let (stored, storage) := s.storage.putTask p.request.address p.request.content faults
  { s.set i p (putStored stored) with
    storage := storage
    changes := s.changes ++
      if stored = .ok true then [.put i p.request.address p.request.content] else [] }

def delete (s : NodeState) (address : XorName) (faults : Faults) : NodeState :=
  let (deleted, storage) := s.storage.delete address faults
  { s with
    storage := storage
    changes := s.changes ++ if deleted.toOption.isSome then [.delete address] else [] }

def step (s : NodeState) : NodeAction → Option NodeState
  | .put request => some { s with puts := s.puts ++ [⟨request, .start⟩] }
  | .check i faults => do
    let p ← s.puts[i]?
    if p.state = .start then some (s.check P i p faults) else none
  | .verify (.call _ _) => none
  | .verify a => do
    let verifier ← s.verifier.step E localRewardsAddress a
    some { s with verifier := verifier }
  | .verified i faults => do
    let p ← s.puts[i]?
    match p.state with
    | .verifying k => do
      let c ← s.verifier.calls[k]?
      match c.state with
      | .done result _ => some (s.verified P i p result faults)
      | _ => none
    | _ => none
  | .write i faults => do
    let p ← s.puts[i]?
    if p.state = .writing then some (s.write i p faults) else none
  | .recordStored i => do
    let p ← s.puts[i]?
    if p.state = .recordStored then
      some { s.set i p .recordType with metrics := s.metrics.recordStored }
    else none
  | .recordType i => do
    let p ← s.puts[i]?
    if p.state = .recordType then
      some { s.set i p .recordPayment with metrics := s.metrics.recordType dataTypeChunk }
    else none
  | .recordPayment i => do
    let p ← s.puts[i]?
    if p.state = .recordPayment then
      some { s.set i p (.done (.success p.request.address)) with metrics := s.metrics.recordPayment }
    else none
  | .get address faults => some { s with storage := (s.storage.get P address faults).2 }
  | .quote _ => some s
  | .delete address faults => some (s.delete address faults)

end NodeState

end Autonomi.AntNode
