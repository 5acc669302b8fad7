/-
  One session of the post-quantum tunnel after its handshake: the client's
  calls of `send_request` (`ant-wasm/src/transport.rs`), the server's
  `handle_session` and its tasks `handle_encrypted_stream`
  (`ant-node/src/webtransport/server.rs`).

  The network below the tunnel is free: which stream `accept_bi` yields and
  what is read from a stream are labels of the steps.  What an honest network
  does is a condition on these labels.
-/
import Autonomi.Lib.Trace
import Autonomi.Tunnel.Envelope

namespace Autonomi

open Lib

/-- `u32::MAX - 1`, on both sides. -/
def maxStreamSeq : UInt32 := 4294967294

def maxStreamsPerSession : ℕ := 8

def maxWireMessageSize : ℕ := 5 * 1024 * 1024

/-! ## The client -/

/-- Where a call of `send_request` is. -/
inductive CallState where
  | creating
  | writing
  | reading
  | done (result : Except String Bytes)
  deriving DecidableEq

/-- A call that has taken a number.  `opened` says that its stream was created. -/
structure Call where
  seq : UInt32
  message : Bytes
  envelope : Bytes
  opened : Bool
  state : CallState
  deriving DecidableEq

/-- Why no stream comes of a call. -/
inductive CreateFault where
  | create (e : String)
  | notBidi
  deriving DecidableEq

def CreateFault.text : CreateFault → String
  | .create e => s!"failed to create bidi stream: {e}"
  | .notBidi => "bidi stream is not WebTransportBidirectionalStream"

/-- Why a request is not written. -/
inductive WriteFault where
  | getWriter (e : String)
  | write (e : String)
  | close (e : String)
  | notReader
  deriving DecidableEq

def WriteFault.text : WriteFault → String
  | .getWriter e => s!"get_writer failed: {e}"
  | .write e => s!"write failed: {e}"
  | .close e => s!"close writer failed: {e}"
  | .notReader => "not a ReadableStreamDefaultReader"

def ReadFault.text : ReadFault → String
  | .read e => s!"read failed: {e}"
  | .value e => s!"read value failed: {e}"

def maxResponse : ℕ := maxWireMessageSize + 512

/-- The loop over `reader.read()`. -/
def readResponse (results : List ReadResult) : Except String Bytes :=
  readChunks maxResponse ReadFault.text
    (fun n => s!"response exceeds size limit: {n} > {maxResponse}") results []

variable (P : Primitives)

/-- The end of `send_request`: the length prefix is dropped unread. -/
def openResponse (cipher : SessionCipher) (seq : UInt32) (responseBuf : Bytes) :
    Except String Bytes := do
  if responseBuf.length < 4 then
    throw s!"response too short: {responseBuf.length} bytes"
  let (respSeq, ciphertext) ← (decodeEncrypted (responseBuf.drop 4)).mapError fun e =>
    s!"invalid response envelope: {e.text}"
  if respSeq ≠ seq then
    throw s!"response sequence mismatch: expected {seq.toNat}, got {respSeq.toNat}"
  (cipher.decrypt P seq .serverToClient ciphertext).mapError fun e =>
    s!"PQC decryption failed: {e.text}"

/-! ## The server -/

/-- How `handle_encrypted_stream` returns. -/
inductive Outcome where
  | badFrame (e : FrameError)
  | badEnvelope (e : TunnelError)
  | sequenceMismatch (expected got : UInt32)
  | decryptionFailed (e : TunnelError)
  | noResponse
  | handlerError (e : String)
  | encryptionFailed (e : TunnelError)
  | responded (envelope : Bytes)
  deriving DecidableEq

/-- A task `handle_encrypted_stream`, with the number read from its envelope, the plaintext
    passed to `try_handle_request`, and the response computed for it.  `stream` is the call whose
    stream it serves, if it is one of the client's. -/
structure Handler where
  stream : Option ℕ
  seq : UInt32
  envelopeSeq : Option UInt32
  request : Option Bytes
  response : Option Bytes
  outcome : Option Outcome
  permit : Bool
  deriving DecidableEq

/-- The envelope that a task reads. -/
def receiveEnvelope (recv : Bytes) : Except Outcome (UInt32 × Bytes) := do
  let msgBuf ← (readFrame (maxWireMessageSize + 256) recv).mapError .badFrame
  (decodeEncrypted msgBuf).mapError .badEnvelope

/-- `handle_encrypted_stream` up to the plaintext. -/
def openRequest (cipher : SessionCipher) (streamSeq : UInt32) (recv : Bytes) :
    Except Outcome Bytes := do
  let (envelopeSeq, ciphertext) ← receiveEnvelope recv
  if envelopeSeq ≠ streamSeq then throw (.sequenceMismatch streamSeq envelopeSeq)
  (cipher.decrypt P streamSeq .clientToServer ciphertext).mapError .decryptionFailed

/-- The end of `handle_encrypted_stream`. -/
def sealResponse (cipher : SessionCipher) (streamSeq : UInt32) (response : Bytes) : Outcome :=
  match cipher.encrypt P streamSeq .serverToClient response with
  | .ok encrypted => .responded (encodeEncrypted streamSeq encrypted)
  | .error e => .encryptionFailed e

/-! ## The session -/

/-- A call of `SessionCipher::encrypt`. -/
structure Sealing where
  seq : UInt32
  direction : Direction
  plaintext : Bytes
  deriving DecidableEq

def Sealing.nonce (e : Sealing) : Nonce := buildNonce e.seq e.direction

/-- `accepted` are the streams that `accept_bi` yielded, `sealed` the calls of `encrypt` by both
    sides. -/
structure Session where
  calls : List Call
  clientSeq : UInt32
  handlers : List Handler
  serverSeq : UInt32
  closed : Bool
  accepted : List (Option ℕ)
  sealed : List Sealing
  deriving DecidableEq

def Session.start : Session := ⟨[], 1, [], 1, false, [], []⟩

/-- The client's call whose stream this is. -/
def Session.callOf (s : Session) (stream : Option ℕ) : Option Call := do
  let i ← stream
  s.calls[i]?

/-- The steps of a session.  `accept` says which call's stream is accepted, if one of the client's,
    and whether the global semaphore has a permit; `respond` gives the results of
    `try_handle_request` and of `try_network_fetch`. -/
inductive SessionAction where
  | send (message : Bytes)
  | create (i : ℕ) (result : Except CreateFault Unit)
  | write (i : ℕ) (result : Except WriteFault Unit)
  | read (i : ℕ) (results : List ReadResult)
  | accept (stream : Option ℕ) (globalPermit : Bool)
  | disconnect
  | receive (k : ℕ) (recv : Bytes)
  | respond (k : ℕ) (result : Except String (Option Bytes)) (fetched : Option Bytes)
  | release (k : ℕ)

namespace Session

variable (cipher : SessionCipher)

/-- `send_request` up to its first `await`. -/
def send (s : Session) (message : Bytes) : Session :=
  if maxStreamSeq ≤ s.clientSeq then s
  else
    let seq := s.clientSeq
    let call : Call := match cipher.encrypt P seq .clientToServer message with
      | .ok encrypted => ⟨seq, message, encodeEncrypted seq encrypted, false, .creating⟩
      | .error e => ⟨seq, message, [], false, .done (.error s!"PQC encryption failed: {e.text}")⟩
    { s with
      calls := s.calls ++ [call]
      clientSeq := seq + 1
      sealed := s.sealed ++ [⟨seq, .clientToServer, message⟩] }

/-- `create_bidirectional_stream` resolves. -/
def create (c : Call) : Except CreateFault Unit → Call
  | .ok () => { c with opened := true, state := .writing }
  | .error (.create e) => { c with state := .done (.error (CreateFault.create e).text) }
  | .error .notBidi => { c with opened := true, state := .done (.error CreateFault.notBidi.text) }

/-- The request is written and the write side closed, or not. -/
def write (c : Call) : Except WriteFault Unit → Call
  | .ok () => { c with state := .reading }
  | .error e => { c with state := .done (.error e.text) }

def read (c : Call) (results : List ReadResult) : Call :=
  { c with state := .done ((readResponse results).bind (openResponse P cipher c.seq)) }

/-- One turn of the loop of `handle_session`. -/
def accept (s : Session) (stream : Option ℕ) (globalPermit : Bool) : Session :=
  let seq := s.serverSeq
  let s := { s with serverSeq := seq + 1, accepted := s.accepted ++ [stream] }
  if maxStreamSeq ≤ seq then { s with closed := true }
  else if !globalPermit then s
  else if maxStreamsPerSession ≤ s.handlers.countP Handler.permit then s
  else { s with handlers := s.handlers ++ [⟨stream, seq, none, none, none, none, true⟩] }

def receive (h : Handler) (recv : Bytes) : Handler :=
  { h with
    envelopeSeq := (receiveEnvelope recv).toOption.map Prod.fst
    request := (openRequest P cipher h.seq recv).toOption
    outcome := match openRequest P cipher h.seq recv with
      | .ok _ => none
      | .error o => some o }

/-- The response that a task encrypts, if it comes so far. -/
def responseOf : Except String (Option Bytes) → Option Bytes → Except Outcome Bytes
  | .ok (some resp), fetched => .ok (fetched.getD resp)
  | .ok none, _ => .error .noResponse
  | .error e, _ => .error (.handlerError e)

def respond (s : Session) (k : ℕ) (h : Handler) (response : Except Outcome Bytes) : Session :=
  match response with
  | .ok resp =>
    { s with
      handlers := s.handlers.set k
        { h with response := some resp, outcome := some (sealResponse P cipher h.seq resp) }
      sealed := s.sealed ++ [⟨h.seq, .serverToClient, resp⟩] }
  | .error o => { s with handlers := s.handlers.set k { h with outcome := some o } }

/-- A step is possible when the call or the task it is about is where it needs to be. -/
def step (s : Session) : SessionAction → Option Session
  | .send message => some (s.send P cipher message)
  | .create i result => do
    let c ← s.calls[i]?
    if c.state = .creating then some { s with calls := s.calls.set i (create c result) } else none
  | .write i result => do
    let c ← s.calls[i]?
    if c.state = .writing then some { s with calls := s.calls.set i (write c result) } else none
  | .read i results => do
    let c ← s.calls[i]?
    if c.state = .reading then some { s with calls := s.calls.set i (read P cipher c results) }
    else none
  | .accept stream globalPermit => if s.closed then none else some (s.accept stream globalPermit)
  | .disconnect => some { s with closed := true }
  | .receive k recv => do
    let h ← s.handlers[k]?
    if h.outcome = none ∧ h.request = none then
      some { s with handlers := s.handlers.set k (receive P cipher h recv) }
    else none
  | .respond k result fetched => do
    let h ← s.handlers[k]?
    if h.outcome = none ∧ h.request.isSome then
      some (s.respond P cipher k h (responseOf result fetched))
    else none
  | .release k => do
    let h ← s.handlers[k]?
    if h.outcome.isSome then
      some { s with handlers := s.handlers.set k { h with permit := false } }
    else none

end Session

end Autonomi
