/-
  Requests and responses of the clients of many nodes, on a network that delays,
  reorders, duplicates and loses messages (`ant-node/src/client/chunk_protocol.rs`,
  `storage/handler.rs`, `node.rs`; `ant-core/src/data/client/mod.rs`).
-/
import Autonomi.Client.Get
import Autonomi.Client.Merkle
import Autonomi.Lib.Trace

namespace Autonomi.AntClient

open Lib AntNode

/-! ## Variants -/

inductive RequestKind where
  | put
  | get
  | quote
  | merkleCandidateQuote
  deriving DecidableEq

def requestKind : ChunkMessageBody → Option RequestKind
  | .putRequest _ => some .put
  | .getRequest _ => some .get
  | .quoteRequest _ => some .quote
  | .merkleCandidateQuoteRequest _ => some .merkleCandidateQuote
  | .putResponse _ | .getResponse _ | .quoteResponse _ | .merkleCandidateQuoteResponse _ => none

def responseKind : ChunkMessageBody → Option RequestKind
  | .putResponse _ => some .put
  | .getResponse _ => some .get
  | .quoteResponse _ => some .quote
  | .merkleCandidateQuoteResponse _ => some .merkleCandidateQuote
  | .putRequest _ | .getRequest _ | .quoteRequest _ | .merkleCandidateQuoteRequest _ => none

/-- The variant of the response matches the variant of the request. -/
def Answers (request response : ChunkMessageBody) : Prop :=
  ∃ kind, requestKind request = some kind ∧ responseKind response = some kind

/-! ## Calls -/

/-- The requests that a client makes. -/
inductive ClientRequest where
  | put (content proof : Bytes)
  | get (address : XorName)
  | quote (request : ChunkQuoteRequest)
  | merkleCandidateQuote (request : MerkleCandidateQuoteRequest)

/-- What the calls return. -/
inductive Value where
  | put (address : XorName)
  | get (chunk : Option DataChunk)
  | quote (quote : PaymentQuote × Amount)
  | merkleCandidateQuote (candidate : MerklePaymentCandidateNode)

namespace ClientRequest

variable (P : Primitives) (C : MerkleEvm)

def kind : ClientRequest → RequestKind
  | .put _ _ => .put
  | .get _ => .get
  | .quote _ => .quote
  | .merkleCandidateQuote _ => .merkleCandidateQuote

def body : ClientRequest → ChunkMessageBody
  | .put content proof => .putRequest ⟨computeAddress P content, content, some proof⟩
  | .get address => .getRequest ⟨address⟩
  | .quote request => .quoteRequest request
  | .merkleCandidateQuote request => .merkleCandidateQuoteRequest request

/-- The closures that are given to `send_and_await_chunk_response`. -/
def responseHandler (target : PeerId) :
    ClientRequest → ChunkMessageBody → Option (Except Error Value)
  | .put content _, body =>
    (putHandler (hexEncode (computeAddress P content)) body).map (Except.map .put)
  | .get address, body => (getHandler P address body).map (Except.map .get)
  | .quote _, body => (quoteHandler C.toClientEvm target body).map (Except.map .quote)
  | .merkleCandidateQuote _, body =>
    (candidateHandler C target body).map (Except.map .merkleCandidateQuote)

def sendError (target : PeerId) (e : String) : ClientRequest → Error
  | .put _ _ => .network s!"Failed to send PUT to peer: {e}"
  | .get _ => .network s!"Failed to send GET to peer {C.displayPeerId target}: {e}"
  | .quote _ => .network s!"Failed to send quote request to {C.displayPeerId target}: {e}"
  | .merkleCandidateQuote _ =>
    .network s!"Failed to send merkle candidate request to {C.displayPeerId target}: {e}"

def timeoutError (client : Client) (target : PeerId) : ClientRequest → Error
  | .put _ _ => .timeout s!"Timeout waiting for store response after {client.timeoutSecs}s"
  | .get address =>
    let name := C.displayPeerId target
    .timeout s!"Timeout waiting for chunk {hexEncode address} from {name} after {client.timeoutSecs}s"
  | .quote _ => .timeout s!"Timeout waiting for quote from {C.displayPeerId target}"
  | .merkleCandidateQuote _ =>
    .timeout s!"Timeout waiting for merkle candidate from {C.displayPeerId target}"

end ClientRequest

/-- A request of one of the clients on a node; `seq` counts the requests made before it. -/
structure Call where
  seq : ℕ
  host : PeerId
  client : ℕ
  target : PeerId
  requestId : UInt64
  request : ClientRequest

def Call.message (P : Primitives) (call : Call) : ChunkMessage :=
  ⟨call.requestId, call.request.body P⟩

inductive Stage where
  /-- It has its request id. -/
  | drawn
  /-- It has subscribed to the events of its node. -/
  | subscribed (events : List RecvResult)
  /-- It has sent its request. -/
  | waiting (events : List RecvResult)
  | done (result : Except Error Value)

structure CallState where
  call : Call
  stage : Stage

/-! ## The network -/

/-- A message, with the request that it is or answers and the delivery that caused it, where it is
    one of the chunk protocol. -/
structure Envelope where
  source : PeerId
  target : PeerId
  topic : String
  data : Bytes
  call : Option Call
  replyTo : Option ℕ

/-- What has been sent can be delivered at any time and any number of times, or never. -/
structure Peers where
  sent : List Envelope
  deliveries : List Envelope
  /-- The deliveries for which the routing loops have spawned a task that is not done. -/
  tasks : List ℕ
  calls : List CallState
  nextRequestId : PeerId → ℕ → UInt64

def Peers.start : Peers := ⟨[], [], [], [], fun _ _ => 1⟩

inductive PeersAction where
  /-- `next_request_id` of a client. -/
  | draw (host : PeerId) (client : ℕ) (target : PeerId) (request : ClientRequest)
  | subscribe (call : ℕ)
  | send (call : ℕ) (result : Except String Unit)
  /-- A message on another topic. -/
  | foreign (source target : PeerId) (topic : String) (data : Bytes)
  /-- A node receives what was sent to it, and its routing loop, if it runs and does not lag, too. -/
  | deliver (message : ℕ) (routed : Bool)
  /-- A task of a routing loop runs, with the handlers as they are now; its answer is sent or not. -/
  | handle (task : ℕ) (protocol : AntProtocol) (sent : Bool)
  /-- A receiver loses `n` events that it has not read. -/
  | lag (call read n : ℕ)
  /-- A call has read so many events, and one has resolved it or its deadline has passed. -/
  | finish (call read : ℕ)

def Envelope.event (e : Envelope) : RecvResult := .event (.message e.topic (some e.source) e.data)

def CallState.receive (e : Envelope) (c : CallState) : CallState :=
  if c.call.host = e.target then
    match c.stage with
    | .subscribed events => { c with stage := .subscribed (events ++ [e.event]) }
    | .waiting events => { c with stage := .waiting (events ++ [e.event]) }
    | .drawn | .done _ => c
  else c

def lagged (events : List RecvResult) (read n : ℕ) : List RecvResult :=
  events.take read ++ .lagged n :: events.drop (read + n)

namespace Peers

variable (P : Primitives) (C : MerkleEvm) (clients : PeerId → ℕ → Client) (s : Peers)

def setStage (k : ℕ) (c : CallState) (stage : Stage) : Peers :=
  { s with calls := s.calls.set k { c with stage := stage } }

def requestOf (call : Call) : Envelope :=
  ⟨call.host, call.target, chunkProtocolId, (call.message P).encode, some call, none⟩

def replyOf (e : Envelope) (delivery : ℕ) (response : Bytes) : Envelope :=
  ⟨e.target, e.source, chunkProtocolId, response, e.call, some delivery⟩

def draw (host : PeerId) (client : ℕ) (target : PeerId) (request : ClientRequest) : Peers :=
  let requestId := s.nextRequestId host client
  { s with
    calls := s.calls ++ [⟨⟨s.calls.length, host, client, target, requestId, request⟩, .drawn⟩]
    nextRequestId := Function.update s.nextRequestId host
      (Function.update (s.nextRequestId host) client (requestId + 1)) }

def deliver (e : Envelope) (routed : Bool) : Peers :=
  { s with
    deliveries := s.deliveries ++ [e]
    tasks := if routed ∧ e.topic = chunkProtocolId then s.tasks ++ [s.deliveries.length] else s.tasks
    calls := s.calls.map (CallState.receive e) }

def handle (task delivery : ℕ) (e : Envelope) (protocol : AntProtocol) (sent : Bool) : Peers :=
  let s := { s with tasks := s.tasks.eraseIdx task }
  match tryHandleRequest protocol e.data with
  | .ok (some response) =>
    if sent then { s with sent := s.sent ++ [replyOf e delivery response] } else s
  | .ok none | .error _ => s

def step (s : Peers) : PeersAction → Option Peers
  | .draw host client target request => some (s.draw host client target request)
  | .subscribe k => do
    let c ← s.calls[k]?
    match c.stage with
    | .drawn => some (s.setStage k c (.subscribed []))
    | _ => none
  | .send k result => do
    let c ← s.calls[k]?
    match c.stage, result with
    | .subscribed events, .ok () =>
      some { s.setStage k c (.waiting events) with sent := s.sent ++ [requestOf P c.call] }
    | .subscribed _, .error e =>
      some (s.setStage k c (.done (.error (c.call.request.sendError C c.call.target e))))
    | _, _ => none
  | .foreign source target topic data =>
    if topic = chunkProtocolId then none
    else some { s with sent := s.sent ++ [⟨source, target, topic, data, none, none⟩] }
  | .deliver message routed => do
    let e ← s.sent[message]?
    some (s.deliver e routed)
  | .handle task protocol sent => do
    let delivery ← s.tasks[task]?
    let e ← s.deliveries[delivery]?
    some (s.handle task delivery e protocol sent)
  | .lag k read n => do
    let c ← s.calls[k]?
    match c.stage with
    | .subscribed events => some (s.setStage k c (.subscribed (lagged events read n)))
    | .waiting events => some (s.setStage k c (.waiting (lagged events read n)))
    | _ => none
  | .finish k read => do
    let c ← s.calls[k]?
    match c.stage with
    | .waiting events =>
      let ⟨_, host, client, target, requestId, request⟩ := c.call
      some (s.setStage k c (.done (awaitChunkResponse target requestId
        (request.responseHandler P C target)
        (request.timeoutError C (clients host client) target) (events.take read))))
    | _ => none

end Peers

/-! ## Matching -/

def Stage.events : Stage → List RecvResult
  | .subscribed events | .waiting events => events
  | .drawn | .done _ => []

namespace Peers

variable (P : Primitives) (C : MerkleEvm)

/-- The value was read from what the peer computed for a delivery of this request. -/
def Returned (s : Peers) (call : Call) (v : Value) : Prop :=
  ∃ delivery response, s.deliveries[delivery]? = some (requestOf P call) ∧
    replyOf (requestOf P call) delivery response ∈ s.sent ∧
    ∃ m, ChunkMessage.decode response = .ok m ∧
      call.request.responseHandler P C call.target m.body = some (.ok v)

/-- The message `e` is a node's answer to the request that was delivered to it. -/
def AnswerTo (request e : Envelope) : Prop :=
  ∃ m response, ChunkMessage.decode request.data = .ok m ∧ Answers m.body response ∧
    e.data = ChunkMessage.encode ⟨m.requestId, response⟩ ∧ e.topic = chunkProtocolId ∧
    e.source = request.target ∧ e.target = request.source

/-- Each delivery is answered once at most, and as its request asks. -/
structure Replied (s : Peers) : Prop where
  /-- No delivery is answered twice. -/
  once : (s.sent.filterMap Envelope.replyTo).Nodup
  /-- Only requests are answered, with their id and a response that matches. -/
  replies : ∀ e ∈ s.sent, ∀ delivery, e.replyTo = some delivery →
    ∃ request, s.deliveries[delivery]? = some request ∧ AnswerTo request e

/-- What a call returns was computed for it. -/
structure Matched (s : Peers) : Prop extends Replied s where
  returned : ∀ c ∈ s.calls, ∀ v, c.stage = .done (.ok v) → Returned P C s c.call v

end Peers

/-- What a response is matched by, on the node that listens for it. -/
def Call.key (call : Call) : PeerId × PeerId × UInt64 × RequestKind :=
  (call.host, call.target, call.requestId, call.request.kind)

/-- No other call on the node has sent the peer a request of this kind under the id drawn. -/
def Peers.Fresh (s : Peers) : PeersAction → Prop
  | .draw host client target request =>
    ∀ c ∈ s.calls, c.call.key ≠ (host, target, s.nextRequestId host client, request.kind)
  | _ => True

instance (s : Peers) (a : PeersAction) : Decidable (s.Fresh a) := by
  cases a <;> unfold Peers.Fresh <;> infer_instance

/-! ## What is read back -/

variable {P : Primitives} {C : MerkleEvm} {clients : PeerId → ℕ → Client} {id : UInt64}
  {body : ChunkMessageBody} {m : ChunkMessage} {request : ClientRequest} {target : PeerId}

theorem requestKind_body : requestKind (request.body P) = some request.kind := by
  cases request <;> rfl

theorem responseKind_of_handler {r : Except Error Value}
    (h : request.responseHandler P C target body = some r) :
    responseKind body = some request.kind := by
  cases request <;> cases body <;> first | rfl | cases h

/-- A response is no request. -/
theorem requestKind_of_responseKind {kind : RequestKind} (h : responseKind body = some kind) :
    requestKind body = none := by
  cases body <;> first | rfl | cases h

/-- What is read from the bytes of a message has its id and its variant. -/
theorem kind_of_decode (h : ChunkMessage.decode (ChunkMessage.encode ⟨id, body⟩) = .ok m) :
    m.requestId = id ∧ requestKind m.body = requestKind body ∧
      responseKind m.body = responseKind body := by
  rw [ChunkMessage.decode] at h
  split_ifs at h
  split at h
  · rename_i m' t hread
    cases h
    obtain ⟨id', t₁, hid, hread⟩ := stateT_bind_eq_ok.1 hread
    rw [ChunkMessage.encode, reads_u64] at hid
    cases hid
    obtain ⟨body', hbody, rfl⟩ := map_eq_ok.1 hread
    obtain ⟨tag, t₂, htag, hbody⟩ := stateT_bind_eq_ok.1 hbody
    refine ⟨rfl, ?_⟩
    cases body
    all_goals
      rw [ChunkMessageBody.write, putTag, Reads.varint (by decide) (by decide)] at htag
      cases htag
      obtain ⟨_, -, rfl⟩ := map_eq_ok.1 hbody
      exact ⟨rfl, rfl⟩
  · cases h

theorem answers_of_answer {protocol : AntProtocol} {response : ChunkMessageBody}
    (h : protocol.answer body = some response) : Answers body response := by
  cases body with
  | putRequest | getRequest | quoteRequest | merkleCandidateQuoteRequest =>
    cases h
    exact ⟨_, rfl, rfl⟩
  | putResponse | getResponse | quoteResponse | merkleCandidateQuoteResponse => cases h

theorem tryHandleRequest_eq_some {protocol : AntProtocol} {data response : Bytes}
    (h : tryHandleRequest protocol data = .ok (some response)) :
    ∃ m body, ChunkMessage.decode data = .ok m ∧ Answers m.body body ∧
      response = ChunkMessage.encode ⟨m.requestId, body⟩ := by
  rw [tryHandleRequest] at h
  rcases hd : ChunkMessage.decode data with e | m
  · rw [hd] at h
    cases h
  · rw [hd] at h
    simp only [bind, Except.bind, Except.mapError] at h
    rcases hbody : protocol.answer m.body with _ | body
    · rw [hbody] at h
      cases h
    · rw [hbody] at h
      cases h
      exact ⟨m, body, rfl, answers_of_answer hbody, rfl⟩

/-! ## Messages -/

/-- The requests made, as they were made. -/
def Peers.asked (s : Peers) : List Call := s.calls.map CallState.call

/-- Where a message comes from: another protocol, a call, or a node's answer to one. -/
inductive Origin (P : Primitives) (asked : List Call) (deliveries : List Envelope) (e : Envelope) :
    Prop where
  | foreign : e.topic ≠ chunkProtocolId → e.replyTo = none → Origin P asked deliveries e
  | request {call : Call} : call ∈ asked → e = Peers.requestOf P call → Origin P asked deliveries e
  | reply {call : Call} {delivery : ℕ} {m : ChunkMessage} {response : ChunkMessageBody} :
      call ∈ asked → deliveries[delivery]? = some (Peers.requestOf P call) →
      ChunkMessage.decode (Peers.requestOf P call).data = .ok m → Answers m.body response →
      e = Peers.replyOf (Peers.requestOf P call) delivery
        (ChunkMessage.encode ⟨m.requestId, response⟩) → Origin P asked deliveries e

/-- What a receiver has before it was sent to its node. -/
def Heard (sent : List Envelope) (host : PeerId) (r : RecvResult) : Prop :=
  (∃ e ∈ sent, r = e.event ∧ e.target = host) ∨ ∃ n, r = .lagged n

variable {asked asked' : List Call} {deliveries : List Envelope} {e e' : Envelope} {call : Call}
  {s s' : Peers} {a : PeersAction}

theorem Origin.mono (h : Origin P asked deliveries e) (hasked : ∀ call ∈ asked, call ∈ asked')
    (ds : List Envelope) : Origin P asked' (deliveries ++ ds) e := by
  cases h with
  | foreign htopic hreply => exact .foreign htopic hreply
  | request hcall he => exact .request (hasked _ hcall) he
  | reply hcall hd hdecode hanswers he =>
    refine .reply (hasked _ hcall) ?_ hdecode hanswers he
    rwa [List.getElem?_append_left (List.getElem?_eq_some_iff.1 hd).1]

/-- A node answers only the requests. -/
theorem Origin.of_handled {protocol : AntProtocol} {delivery : ℕ} {response : Bytes}
    (h : Origin P asked deliveries e) (htopic : e.topic = chunkProtocolId)
    (hd : deliveries[delivery]? = some e)
    (hr : tryHandleRequest protocol e.data = .ok (some response)) :
    Origin P asked deliveries (Peers.replyOf e delivery response) := by
  obtain ⟨m, body, hdecode, hanswers, rfl⟩ := tryHandleRequest_eq_some hr
  cases h with
  | foreign hne => exact absurd htopic hne
  | request hcall he =>
    subst he
    exact .reply hcall hd hdecode hanswers rfl
  | reply _ _ _ hanswers' he =>
    subst he
    obtain ⟨kind, hkind, -⟩ := hanswers
    obtain ⟨kind', -, hkind'⟩ := hanswers'
    obtain ⟨-, -, hread⟩ := kind_of_decode (m := m) hdecode
    rw [requestKind_of_responseKind (hread.trans hkind')] at hkind
    cases hkind

/-- A response that resolves a call, if it is the only one with its key, was made for it. -/
theorem Origin.of_resolves {v : Value} (h : Origin P asked deliveries e) (hcall : call ∈ asked)
    (hunique : ∀ call' ∈ asked, call'.key = call.key → call' = call)
    (htopic : e.topic = chunkProtocolId) (hsource : e.source = call.target)
    (htarget : e.target = call.host) (hdecode : ChunkMessage.decode e.data = .ok m)
    (hid : m.requestId = call.requestId)
    (hv : call.request.responseHandler P C call.target m.body = some (.ok v)) :
    ∃ delivery, deliveries[delivery]? = some (Peers.requestOf P call) ∧
      e = Peers.replyOf (Peers.requestOf P call) delivery e.data := by
  have hkind := responseKind_of_handler hv
  cases h with
  | foreign hne => exact absurd htopic hne
  | @request call' hcall' he =>
    subst he
    have hrequest : requestKind m.body = some call'.request.kind :=
      (kind_of_decode hdecode).2.1.trans requestKind_body
    rw [requestKind_of_responseKind hkind] at hrequest
    cases hrequest
  | @reply call' delivery m' response hcall' hd hdecode' hanswers he =>
    subst he
    obtain ⟨kind, hreq, hresp⟩ := hanswers
    have hid' : m.requestId = call'.requestId :=
      (kind_of_decode hdecode).1.trans (kind_of_decode hdecode').1
    have hkind' : some call'.request.kind = some call.request.kind := by
      rw [← requestKind_body (P := P), ← hkind, (kind_of_decode hdecode).2.2, hresp, ← hreq]
      exact (kind_of_decode hdecode').2.1.symm
    obtain rfl := hunique call' hcall' (by
      simp only [Call.key, Prod.mk.injEq]
      exact ⟨htarget, hsource, hid'.symm.trans hid, Option.some.inj hkind'⟩)
    exact ⟨delivery, hd, rfl⟩

theorem Heard.mono {sent sent' : List Envelope} {host : PeerId} {r : RecvResult}
    (h : Heard sent host r) (hsub : ∀ e ∈ sent, e ∈ sent') : Heard sent' host r := by
  rcases h with ⟨e, he, hr⟩ | h
  · exact .inl ⟨e, hsub e he, hr⟩
  · exact .inr h

/-! ## What one step can do -/

/-- A call has read the events, and one of them has given it this value. -/
def Resolves (P : Primitives) (C : MerkleEvm) (call : Call) (events : List RecvResult) (v : Value) :
    Prop :=
  ∃ error read, awaitChunkResponse call.target call.requestId
    (call.request.responseHandler P C call.target) error (events.take read) = .ok v

/-- A call goes on without a message. -/
structure Restage (P : Primitives) (C : MerkleEvm) (c : CallState) (stage : Stage) : Prop where
  events : ∀ r ∈ stage.events, r ∈ c.stage.events ∨ ∃ n, r = .lagged n
  resolves : ∀ v, stage = .done (.ok v) → Resolves P C c.call c.stage.events v

inductive Stepped (P : Primitives) (C : MerkleEvm) (s : Peers) : PeersAction → Peers → Prop where
  | draw (host : PeerId) (client : ℕ) (target : PeerId) (request : ClientRequest) :
      Stepped P C s (.draw host client target request) (s.draw host client target request)
  | restage {a : PeersAction} {k : ℕ} {c : CallState} {stage : Stage} : s.calls[k]? = some c →
      Restage P C c stage → Stepped P C s a (s.setStage k c stage)
  | send {a : PeersAction} {k : ℕ} {c : CallState} {events : List RecvResult} :
      s.calls[k]? = some c → c.stage = .subscribed events →
      Stepped P C s a
        { s.setStage k c (.waiting events) with sent := s.sent ++ [Peers.requestOf P c.call] }
  | foreign {a : PeersAction} {e : Envelope} : e.topic ≠ chunkProtocolId → e.replyTo = none →
      Stepped P C s a { s with sent := s.sent ++ [e] }
  | deliver {a : PeersAction} {e : Envelope} (routed : Bool) : e ∈ s.sent →
      Stepped P C s a (s.deliver e routed)
  | handle {a : PeersAction} {task delivery : ℕ} {e : Envelope} (protocol : AntProtocol)
      (sent : Bool) : s.tasks[task]? = some delivery → s.deliveries[delivery]? = some e →
      Stepped P C s a (s.handle task delivery e protocol sent)

theorem mem_lagged {events : List RecvResult} {read n : ℕ} {r : RecvResult}
    (h : r ∈ lagged events read n) : r ∈ events ∨ ∃ n, r = .lagged n := by
  rcases List.mem_append.1 h with h | h
  · exact .inl (List.mem_of_mem_take h)
  · rcases List.mem_cons.1 h with rfl | h
    · exact .inr ⟨n, rfl⟩
    · exact .inl (List.mem_of_mem_drop h)

theorem step_cases (h : Peers.step P C clients s a = some s') : Stepped P C s a s' := by
  cases a with
  | draw host client target request =>
    cases h
    exact .draw host client target request
  | subscribe k =>
    obtain ⟨c, hk, h⟩ := Option.bind_eq_some_iff.1 h
    split at h
    · cases h
      exact .restage hk ⟨nofun, nofun⟩
    · cases h
  | send k result =>
    obtain ⟨c, hk, h⟩ := Option.bind_eq_some_iff.1 h
    rcases hstage : c.stage with _ | events | _ | _ <;> rcases result with e | ⟨⟩ <;>
      simp only [hstage, reduceCtorEq, Option.some.injEq] at h
    · subst h
      exact .restage hk ⟨nofun, nofun⟩
    · subst h
      exact .send hk hstage
  | foreign source target topic data =>
    rw [Peers.step] at h
    split_ifs at h with htopic
    cases h
    exact .foreign htopic rfl
  | deliver message routed =>
    obtain ⟨e, he, h⟩ := Option.bind_eq_some_iff.1 h
    cases h
    exact .deliver routed (List.mem_of_getElem? he)
  | handle task protocol sent =>
    obtain ⟨delivery, htask, h⟩ := Option.bind_eq_some_iff.1 h
    obtain ⟨e, he, h⟩ := Option.bind_eq_some_iff.1 h
    cases h
    exact .handle protocol sent htask he
  | lag k read n =>
    obtain ⟨c, hk, h⟩ := Option.bind_eq_some_iff.1 h
    split at h
    · rename_i events hstage
      cases h
      refine .restage hk ⟨fun r hr => ?_, nofun⟩
      rw [hstage]
      exact mem_lagged hr
    · rename_i events hstage
      cases h
      refine .restage hk ⟨fun r hr => ?_, nofun⟩
      rw [hstage]
      exact mem_lagged hr
    · cases h
  | finish k read =>
    obtain ⟨c, hk, h⟩ := Option.bind_eq_some_iff.1 h
    split at h
    · rename_i events hstage
      cases h
      refine .restage hk ⟨nofun, fun v hv => ?_⟩
      rw [hstage]
      exact ⟨_, read, Stage.done.inj hv⟩
    · cases h

/-! ## The requests made -/

theorem asked_draw (s : Peers) (host : PeerId) (client : ℕ) (target : PeerId)
    (request : ClientRequest) : (s.draw host client target request).asked = s.asked ++
      [⟨s.calls.length, host, client, target, s.nextRequestId host client, request⟩] := by
  simp [Peers.draw, Peers.asked]

theorem asked_setStage {k : ℕ} {c : CallState} (hk : s.calls[k]? = some c) (stage : Stage) :
    (s.setStage k c stage).asked = s.asked :=
  map_set_eq hk rfl

theorem receive_call (e : Envelope) (c : CallState) : (c.receive e).call = c.call := by
  unfold CallState.receive
  split_ifs
  · split <;> rfl
  · rfl

theorem asked_deliver (s : Peers) (e : Envelope) (routed : Bool) :
    (s.deliver e routed).asked = s.asked := by
  rw [Peers.asked, Peers.deliver, List.map_map]
  exact List.map_congr_left fun c _ => receive_call e c

theorem handle_calls (s : Peers) (task delivery : ℕ) (e : Envelope) (protocol : AntProtocol)
    (sent : Bool) : (s.handle task delivery e protocol sent).calls = s.calls ∧
      (s.handle task delivery e protocol sent).nextRequestId = s.nextRequestId := by
  rw [Peers.handle]
  split
  · split_ifs <;> exact ⟨rfl, rfl⟩
  · exact ⟨rfl, rfl⟩
  · exact ⟨rfl, rfl⟩

/-! ## Every message of a run has its origin -/

/-- How the messages, the tasks and the calls of a run hang together. -/
structure Linked (P : Primitives) (s : Peers) : Prop where
  sent : ∀ e ∈ s.sent, Origin P s.asked s.deliveries e
  delivered : ∀ e ∈ s.deliveries, e ∈ s.sent
  once : (s.tasks ++ s.sent.filterMap Envelope.replyTo).Nodup
  known : ∀ d ∈ s.tasks ++ s.sent.filterMap Envelope.replyTo, d < s.deliveries.length
  tasks : ∀ d ∈ s.tasks, ∀ e, s.deliveries[d]? = some e → e.topic = chunkProtocolId
  events : ∀ c ∈ s.calls, ∀ r ∈ c.stage.events, Heard s.sent c.call.host r

theorem linked_start : Linked P .start := ⟨nofun, nofun, List.nodup_nil, nofun, nofun, nofun⟩

namespace Linked

theorem draw (h : Linked P s) (host : PeerId) (client : ℕ) (target : PeerId)
    (request : ClientRequest) : Linked P (s.draw host client target request) := by
  have hasked := asked_draw s host client target request
  refine ⟨fun e he => ?_, h.delivered, h.once, h.known, h.tasks, forall_mem_append h.events nofun⟩
  have ho : Origin P (s.draw host client target request).asked (s.deliveries ++ []) e :=
    (h.sent e he).mono (fun call hcall => by rw [hasked]; exact List.mem_append_left _ hcall) []
  rwa [List.append_nil] at ho

theorem restage (h : Linked P s) {k : ℕ} {c : CallState} {stage : Stage}
    (hk : s.calls[k]? = some c)
    (hevents : ∀ r ∈ stage.events, r ∈ c.stage.events ∨ ∃ n, r = .lagged n) :
    Linked P (s.setStage k c stage) := by
  have hc : c ∈ s.calls := List.mem_of_getElem? hk
  refine ⟨?_, h.delivered, h.once, h.known, h.tasks, forall_mem_set h.events fun r hr => ?_⟩
  · rw [asked_setStage hk]
    exact h.sent
  · rcases hevents r hr with hr | hr
    · exact h.events c hc r hr
    · exact .inr hr

theorem sending (h : Linked P s) (he : Origin P s.asked s.deliveries e) (hreply : e.replyTo = none) :
    Linked P { s with sent := s.sent ++ [e] } := by
  have hmem : ∀ e' ∈ s.sent, e' ∈ s.sent ++ [e] := fun e' he' => List.mem_append_left _ he'
  have hnone : (s.sent ++ [e]).filterMap Envelope.replyTo = s.sent.filterMap Envelope.replyTo := by
    rw [List.filterMap_append, List.filterMap_cons_none hreply, List.filterMap_nil, List.append_nil]
  refine ⟨forall_mem_append h.sent he, fun e' he' => hmem _ (h.delivered e' he'), ?_, ?_, h.tasks,
    fun c hc r hr => (h.events c hc r hr).mono hmem⟩
  · rw [hnone]
    exact h.once
  · rw [hnone]
    exact h.known

theorem send (h : Linked P s) {k : ℕ} {c : CallState} {events : List RecvResult}
    (hk : s.calls[k]? = some c) (hstage : c.stage = .subscribed events) :
    Linked P
      { s.setStage k c (.waiting events) with sent := s.sent ++ [Peers.requestOf P c.call] } := by
  have hset : Linked P (s.setStage k c (.waiting events)) :=
    h.restage hk fun r hr => .inl (by rwa [hstage])
  refine hset.sending (.request ?_ rfl) rfl
  rw [asked_setStage hk]
  exact List.mem_map_of_mem (List.mem_of_getElem? hk)

theorem events_receive {e : Envelope} {c : CallState} {r : RecvResult}
    (h : r ∈ (c.receive e).stage.events) :
    r ∈ c.stage.events ∨ r = e.event ∧ e.target = c.call.host := by
  unfold CallState.receive at h
  split_ifs at h with hhost
  · split at h
    · rename_i events hstage
      rw [hstage]
      exact (List.mem_append.1 h).imp_right fun h => ⟨List.mem_singleton.1 h, hhost.symm⟩
    · rename_i events hstage
      rw [hstage]
      exact (List.mem_append.1 h).imp_right fun h => ⟨List.mem_singleton.1 h, hhost.symm⟩
    · exact .inl h
    · exact .inl h
  · exact .inl h

theorem deliver (h : Linked P s) (he : e ∈ s.sent) (routed : Bool) :
    Linked P (s.deliver e routed) := by
  have hasked := asked_deliver s e routed
  have htasks : ∀ d ∈ (s.deliver e routed).tasks,
      d ∈ s.tasks ∨ d = s.deliveries.length ∧ e.topic = chunkProtocolId := by
    intro d hd
    dsimp only [Peers.deliver] at hd
    split_ifs at hd with hrouted
    · exact (List.mem_append.1 hd).imp_right fun hd => ⟨List.mem_singleton.1 hd, hrouted.2⟩
    · exact .inl hd
  refine ⟨?_, forall_mem_append h.delivered he, ?_, ?_, ?_, ?_⟩
  · rw [hasked]
    intro e' he'
    exact (h.sent e' he').mono (fun _ => id) [e]
  · dsimp only [Peers.deliver]
    split_ifs
    · rw [List.append_assoc, List.singleton_append, List.perm_middle.nodup_iff]
      exact List.nodup_cons.2 ⟨fun hd => (h.known _ hd).ne rfl, h.once⟩
    · exact h.once
  · intro d hd
    have hlength : (s.deliver e routed).deliveries.length = s.deliveries.length + 1 :=
      List.length_append
    rcases List.mem_append.1 hd with hd | hd
    · rcases htasks d hd with hd | ⟨rfl, -⟩
      · have := h.known d (List.mem_append_left _ hd)
        omega
      · omega
    · have := h.known d (List.mem_append_right _ hd)
      omega
  · intro d hd e' he'
    rcases htasks d hd with hd | ⟨rfl, htopic⟩
    · have hlt := h.known d (List.mem_append_left _ hd)
      exact h.tasks d hd e' (by rwa [Peers.deliver, List.getElem?_append_left hlt] at he')
    · rw [Peers.deliver, List.getElem?_concat_length] at he'
      obtain rfl := Option.some.inj he'
      exact htopic
  · intro c' hc' r hr
    obtain ⟨c, hc, rfl⟩ := List.mem_map.1 hc'
    rw [receive_call]
    rcases events_receive hr with hr | ⟨rfl, htarget⟩
    · exact h.events c hc r hr
    · exact .inl ⟨e, he, rfl, htarget⟩

/-- The task is done, whether or not it has sent an answer. -/
theorem erase (h : Linked P s) (task : ℕ) :
    Linked P { s with tasks := s.tasks.eraseIdx task } := by
  have hsub : (s.tasks.eraseIdx task).Sublist s.tasks := List.eraseIdx_sublist _ _
  exact ⟨h.sent, h.delivered, h.once.sublist (hsub.append_right _),
    fun d hd => h.known d ((hsub.append_right _).subset hd),
    fun d hd => h.tasks d (hsub.subset hd), h.events⟩

theorem replying (h : Linked P s) (ho : Origin P s.asked s.deliveries e) {d : ℕ}
    (hd : e.replyTo = some d) (hlt : d < s.deliveries.length)
    (hnew : d ∉ s.tasks ++ s.sent.filterMap Envelope.replyTo) :
    Linked P { s with sent := s.sent ++ [e] } := by
  have hmem : ∀ e' ∈ s.sent, e' ∈ s.sent ++ [e] := fun e' he' => List.mem_append_left _ he'
  have hsome : (s.sent ++ [e]).filterMap Envelope.replyTo =
      s.sent.filterMap Envelope.replyTo ++ [d] := by
    rw [List.filterMap_append, List.filterMap_cons_some hd, List.filterMap_nil]
  refine ⟨forall_mem_append h.sent ho, fun e' he' => hmem _ (h.delivered e' he'), ?_, ?_, h.tasks,
    fun c hc r hr => (h.events c hc r hr).mono hmem⟩
  · rw [hsome, ← List.append_assoc, List.nodup_append_comm, List.singleton_append]
    exact List.nodup_cons.2 ⟨hnew, h.once⟩
  · rw [hsome, ← List.append_assoc]
    exact forall_mem_append h.known hlt

theorem handle (h : Linked P s) {task delivery : ℕ} (protocol : AntProtocol) (sent : Bool)
    (htask : s.tasks[task]? = some delivery) (he : s.deliveries[delivery]? = some e) :
    Linked P (s.handle task delivery e protocol sent) := by
  have hmem : delivery ∈ s.tasks := List.mem_of_getElem? htask
  have hperm : (delivery :: s.tasks.eraseIdx task).Perm s.tasks := by
    obtain ⟨hlt, rfl⟩ := List.getElem?_eq_some_iff.1 htask
    exact List.getElem_cons_eraseIdx_perm hlt
  have hnew : delivery ∉ s.tasks.eraseIdx task ++ s.sent.filterMap Envelope.replyTo := by
    have honce := (hperm.append_right (s.sent.filterMap Envelope.replyTo)).nodup_iff.2 h.once
    exact (List.nodup_cons.1 honce).1
  rw [Peers.handle]
  split
  · rename_i response hresponse
    split_ifs
    · refine (h.erase task).replying (d := delivery) ?_ rfl ?_ hnew
      · exact (h.sent e (h.delivered e (List.mem_of_getElem? he))).of_handled
          (h.tasks delivery hmem e he) he hresponse
      · exact (List.getElem?_eq_some_iff.1 he).1
    · exact h.erase task
  · exact h.erase task
  · exact h.erase task

theorem step (h : Linked P s) (hs : Stepped P C s a s') : Linked P s' := by
  cases hs with
  | draw host client target request => exact h.draw host client target request
  | restage hk hstage => exact h.restage hk hstage.events
  | send hk hstage => exact h.send hk hstage
  | foreign htopic hreply => exact h.sending (.foreign htopic hreply) hreply
  | deliver routed he => exact h.deliver he routed
  | handle protocol sent htask he => exact h.handle protocol sent htask he

theorem replied (h : Linked P s) : s.Replied := by
  refine ⟨h.once.sublist (List.sublist_append_right _ _), fun e he d hd => ?_⟩
  cases h.sent e he with
  | foreign _ hreply =>
    rw [hreply] at hd
    cases hd
  | request _ heq =>
    subst heq
    cases hd
  | @reply call delivery m response _ hdelivery hdecode hanswers heq =>
    subst heq
    obtain rfl := Option.some.inj hd
    exact ⟨_, hdelivery, m, response, hdecode, hanswers, rfl, rfl, rfl, rfl⟩

end Linked

/-! ## What the calls return -/

/-- No two calls have one key, so that what a call has returned was computed for it. -/
structure Distinct (P : Primitives) (C : MerkleEvm) (s : Peers) : Prop extends Linked P s where
  unique : ∀ call ∈ s.asked, ∀ call' ∈ s.asked, call'.key = call.key → call' = call
  returned : ∀ c ∈ s.calls, ∀ v, c.stage = .done (.ok v) → s.Returned P C c.call v

theorem distinct_start : Distinct P C .start := ⟨linked_start, nofun, nofun⟩

theorem Peers.Returned.mono {v : Value} (h : s.Returned P C call v)
    (hsent : ∀ e ∈ s.sent, e ∈ s'.sent)
    (hdeliveries : ∀ (d : ℕ) (e : Envelope), s.deliveries[d]? = some e →
      s'.deliveries[d]? = some e) :
    s'.Returned P C call v := by
  obtain ⟨delivery, response, hd, he, hv⟩ := h
  exact ⟨delivery, response, hdeliveries _ _ hd, hsent _ he, hv⟩

theorem done_of_receive {e : Envelope} {c : CallState} {result : Except Error Value}
    (h : (c.receive e).stage = .done result) : c.stage = .done result := by
  unfold CallState.receive at h
  split_ifs at h
  · split at h
    · cases h
    · cases h
    · exact h
    · exact h
  · exact h

theorem handle_sent (s : Peers) (task delivery : ℕ) (e : Envelope) (protocol : AntProtocol)
    (sent : Bool) : (∀ e' ∈ s.sent, e' ∈ (s.handle task delivery e protocol sent).sent) ∧
      (s.handle task delivery e protocol sent).deliveries = s.deliveries := by
  rw [Peers.handle]
  split
  · split_ifs
    · exact ⟨fun _ he' => List.mem_append_left _ he', rfl⟩
    · exact ⟨fun _ => id, rfl⟩
  · exact ⟨fun _ => id, rfl⟩
  · exact ⟨fun _ => id, rfl⟩

namespace Distinct

theorem draw (h : Distinct P C s) {host : PeerId} {client : ℕ} {target : PeerId}
    {request : ClientRequest} (hfresh : s.Fresh (.draw host client target request)) :
    Distinct P C (s.draw host client target request) := by
  have hother : ∀ call ∈ s.asked,
      call.key ≠ (host, target, s.nextRequestId host client, request.kind) := by
    intro call hcall
    obtain ⟨c, hc, rfl⟩ := List.mem_map.1 hcall
    exact hfresh c hc
  refine ⟨h.toLinked.draw host client target request, ?_, forall_mem_append h.returned nofun⟩
  rw [asked_draw]
  intro call hcall call' hcall' hkey
  rcases List.mem_append.1 hcall with hcall | hcall <;>
    rcases List.mem_append.1 hcall' with hcall' | hcall'
  · exact h.unique call hcall call' hcall' hkey
  · rw [List.mem_singleton.1 hcall'] at hkey
    exact absurd hkey.symm (hother call hcall)
  · rw [List.mem_singleton.1 hcall] at hkey
    exact absurd hkey (hother call' hcall')
  · rw [List.mem_singleton.1 hcall, List.mem_singleton.1 hcall']

/-- A value is read from a response that was made for the call. -/
theorem returned_of_resolves (h : Distinct P C s) {c : CallState} (hc : c ∈ s.calls) {v : Value}
    (hv : Resolves P C c.call c.stage.events v) : s.Returned P C c.call v := by
  obtain ⟨error, read, hv⟩ := hv
  have hcall : c.call ∈ s.asked := List.mem_map_of_mem hc
  rw [awaitChunkResponse_eq] at hv
  rcases hfind : (responses c.call.target c.call.requestId (c.stage.events.take read)).findSome?
      (c.call.request.responseHandler P C c.call.target) with _ | r
  · rw [hfind] at hv
    cases hv
  · obtain ⟨body, hbody, hhandler⟩ := List.exists_of_findSome?_eq_some hfind
    rw [hfind, Option.getD_some] at hv
    subst hv
    obtain ⟨data, m, hevent, hdecode, hid, rfl⟩ := mem_responses hbody
    rcases h.events c hc _ (List.mem_of_mem_take hevent) with ⟨e, he, hr, htarget⟩ | ⟨n, hr⟩
    · obtain ⟨source, target, topic, data', origin, replyTo⟩ := e
      cases hr
      obtain ⟨delivery, hd, heq⟩ := (h.sent _ he).of_resolves hcall (h.unique _ hcall) rfl rfl
        htarget hdecode hid hhandler
      rw [heq] at he
      exact ⟨delivery, _, hd, he, m, hdecode, hhandler⟩
    · cases hr

theorem restage (h : Distinct P C s) {k : ℕ} {c : CallState} {stage : Stage}
    (hk : s.calls[k]? = some c) (hstage : Restage P C c stage) :
    Distinct P C (s.setStage k c stage) := by
  have hc : c ∈ s.calls := List.mem_of_getElem? hk
  refine ⟨h.toLinked.restage hk hstage.events, ?_,
    forall_mem_set h.returned fun v hv => h.returned_of_resolves hc (hstage.resolves v hv)⟩
  rw [asked_setStage hk]
  exact h.unique

/-- The calls go on as they were, and what has been sent and delivered stays. -/
theorem of_linked (h : Distinct P C s) (hlinked : Linked P s') (hasked : s'.asked = s.asked)
    (hcalls : ∀ c' ∈ s'.calls, ∀ v, c'.stage = .done (.ok v) →
      ∃ c ∈ s.calls, c'.call = c.call ∧ c.stage = .done (.ok v))
    (hsent : ∀ e ∈ s.sent, e ∈ s'.sent)
    (hdeliveries : ∀ (d : ℕ) (e : Envelope), s.deliveries[d]? = some e →
      s'.deliveries[d]? = some e) : Distinct P C s' := by
  refine ⟨hlinked, hasked ▸ h.unique, fun c' hc' v hv => ?_⟩
  obtain ⟨c, hc, hcall, hstage⟩ := hcalls c' hc' v hv
  rw [hcall]
  exact (h.returned c hc v hstage).mono hsent hdeliveries

theorem send (h : Distinct P C s) {k : ℕ} {c : CallState} {events : List RecvResult}
    (hk : s.calls[k]? = some c) (hstage : c.stage = .subscribed events) :
    Distinct P C
      { s.setStage k c (.waiting events) with sent := s.sent ++ [Peers.requestOf P c.call] } := by
  have hset : Distinct P C (s.setStage k c (.waiting events)) :=
    h.restage hk ⟨fun r hr => .inl (by rwa [hstage]), nofun⟩
  exact hset.of_linked (h.toLinked.send hk hstage) rfl (fun c hc v hv => ⟨c, hc, rfl, hv⟩)
    (fun e he => List.mem_append_left _ he) fun _ _ => id

theorem deliver (h : Distinct P C s) (he : e ∈ s.sent) (routed : Bool) :
    Distinct P C (s.deliver e routed) := by
  refine h.of_linked (h.toLinked.deliver he routed) (asked_deliver s e routed)
    (fun c' hc' v hv => ?_) (fun _ => id) fun d e' hd => ?_
  · obtain ⟨c, hc, rfl⟩ := List.mem_map.1 hc'
    exact ⟨c, hc, receive_call e c, done_of_receive hv⟩
  · rwa [Peers.deliver, List.getElem?_append_left (List.getElem?_eq_some_iff.1 hd).1]

theorem handle (h : Distinct P C s) {task delivery : ℕ} (protocol : AntProtocol) (sent : Bool)
    (htask : s.tasks[task]? = some delivery) (he : s.deliveries[delivery]? = some e) :
    Distinct P C (s.handle task delivery e protocol sent) := by
  obtain ⟨hcalls, -⟩ := handle_calls s task delivery e protocol sent
  obtain ⟨hsent, hdeliveries⟩ := handle_sent s task delivery e protocol sent
  refine h.of_linked (h.toLinked.handle protocol sent htask he) ?_ (fun c hc v hv => ?_) hsent ?_
  · exact congrArg (List.map CallState.call) hcalls
  · exact ⟨c, hcalls ▸ hc, rfl, hv⟩
  · rw [hdeliveries]
    exact fun _ _ => id

theorem step (h : Distinct P C s) (hfresh : s.Fresh a) (hs : Stepped P C s a s') :
    Distinct P C s' := by
  have hlinked := h.toLinked.step hs
  cases hs with
  | draw host client target request => exact h.draw hfresh
  | restage hk hstage => exact h.restage hk hstage
  | send hk hstage => exact h.send hk hstage
  | foreign htopic hreply =>
    exact h.of_linked hlinked rfl (fun c hc v hv => ⟨c, hc, rfl, hv⟩)
      (fun e he => List.mem_append_left _ he) fun _ _ => id
  | deliver routed he => exact h.deliver he routed
  | handle protocol sent htask he => exact h.handle protocol sent htask he

end Distinct

/-- **Responses match their requests**: a delivery is answered once, and what a call returns was
    computed for it, in every run in which no two calls on a node send a peer requests of one kind
    under one id. -/
theorem peers_matched {as : List PeersAction}
    (h : Runs (Peers.step P C clients) .start as s) :
    s.Replied ∧ (Trace (Peers.step P C clients) Peers.Fresh .start as s → s.Matched P C) := by
  have hlinked : Linked P s :=
    h.invariant (fun _ _ _ _ h hstep => h.step (step_cases hstep)) linked_start
  refine ⟨hlinked.replied, fun htrace => ⟨hlinked.replied, ?_⟩⟩
  exact (htrace.invariant (I := Distinct P C)
    (fun _ _ _ hfresh h hstep => h.step hfresh (step_cases hstep)) distinct_start).returned

/-! ## One client -/

/-- Each node has one client, which has not drawn all ids. -/
def Peers.Single (s : Peers) : PeersAction → Prop
  | .draw _ client _ _ => client = 0 ∧ s.calls.length < 2 ^ 64
  | _ => True

/-- The first client of each node has numbered its calls from 1 on. -/
structure Numbered (s : Peers) : Prop where
  next : ∀ host, s.nextRequestId host 0 =
    UInt64.ofNat (s.asked.countP (fun call => call.host = host) + 1)
  ids : ∀ call ∈ s.asked, ∃ n < s.asked.countP (fun call' => call'.host = call.host),
    call.requestId = UInt64.ofNat (n + 1)

theorem Numbered.fresh (h : Numbered s) {host target : PeerId} {request : ClientRequest}
    (hlength : s.calls.length < 2 ^ 64) : s.Fresh (.draw host 0 target request) := by
  intro c hc hkey
  simp only [Call.key, Prod.mk.injEq] at hkey
  obtain ⟨rfl, -, hid, -⟩ := hkey
  obtain ⟨n, hn, hcall⟩ := h.ids c.call (List.mem_map_of_mem hc)
  have hcount : s.asked.countP (fun call => call.host = c.call.host) ≤ s.calls.length :=
    List.countP_le_length.trans (List.length_map _).le
  rw [hcall, h.next] at hid
  have hnat := congrArg UInt64.toNat hid
  rw [UInt64.toNat_ofNat', UInt64.toNat_ofNat'] at hnat
  omega

theorem Numbered.draw (h : Numbered s) (host target : PeerId) (request : ClientRequest) :
    Numbered (s.draw host 0 target request) := by
  have hasked := asked_draw s host 0 target request
  constructor
  · intro host'
    rw [hasked, List.countP_append]
    by_cases hhost : host' = host
    · subst hhost
      simp [Peers.draw, h.next]
    · simp [Peers.draw, hhost, h.next, Ne.symm hhost]
  · rw [hasked]
    intro call hcall
    rw [List.countP_append]
    rcases List.mem_append.1 hcall with hcall | hcall
    · obtain ⟨n, hn, hid⟩ := h.ids call hcall
      exact ⟨n, by omega, hid⟩
    · obtain rfl := List.mem_singleton.1 hcall
      exact ⟨_, by simp, h.next host⟩

theorem Numbered.of_eq (h : Numbered s) (hasked : s'.asked = s.asked)
    (hnext : s'.nextRequestId = s.nextRequestId) : Numbered s' :=
  ⟨by rw [hasked, hnext]; exact h.next, by rw [hasked]; exact h.ids⟩

theorem Numbered.step (h : Numbered s) (hsingle : s.Single a) (hs : Stepped P C s a s') :
    Numbered s' := by
  cases hs with
  | draw host client target request =>
    obtain ⟨rfl, -⟩ := hsingle
    exact h.draw host target request
  | restage hk _ => exact h.of_eq (asked_setStage hk _) rfl
  | send hk _ => exact h.of_eq (asked_setStage hk _) rfl
  | foreign => exact h.of_eq rfl rfl
  | deliver routed _ => exact h.of_eq (asked_deliver s _ routed) rfl
  | @handle _ task delivery e protocol sent _ _ =>
    obtain ⟨hcalls, hnext⟩ := handle_calls s task delivery e protocol sent
    exact h.of_eq (congrArg (List.map CallState.call) hcalls) hnext

/-- With one client a node, and less than `2 ^ 64` requests, no key is drawn twice. -/
theorem fresh_of_single {as : List PeersAction}
    (h : Trace (Peers.step P C clients) Peers.Single .start as s) :
    Trace (Peers.step P C clients) Peers.Fresh .start as s := by
  refine h.mono_of_invariant (I := Numbered)
    (fun _ _ _ hsingle h hstep => h.step hsingle (step_cases hstep)) (fun s a h hsingle => ?_)
    ⟨fun _ => rfl, nofun⟩
  cases a with
  | draw host client target request =>
    obtain ⟨rfl, hlength⟩ := hsingle
    exact h.fresh hlength
  | _ => trivial

/-! ## Two calls on a node -/

section Example

def requestEvm : MerkleEvm :=
  { exampleClientEvm with
    maxLeaves := 256
    one_lt_maxLeaves := one_lt_max_leaves
    fromXornames := fun _ => .error ""
    rewardCandidates := fun _ _ => .error ""
    midpointAddress := padTo 32
    toCommitment := fun pool => pool.midpointProof
    generateAddressProof := fun _ _ _ => .error ""
    readCandidate := fun _ => .error ""
    writeMerkleProof := fun _ => .error "" }

def otherChunk : XorName := computeAddress clear [6]

/-- Two clients of a node draw their first ids for a GET each. -/
def drawn (second : ℕ) : List PeersAction :=
  [.draw (examplePeer 0) 0 (examplePeer 1) (.get missingChunk),
    .draw (examplePeer 0) second (examplePeer 1) (.get otherChunk),
    .subscribe 0, .subscribe 1, .send 0 (.ok ()), .send 1 (.ok ())]

/-- The peer, which has no chunks, answers one of the requests; the first call reads the answer. -/
def answered (request : ℕ) : List PeersAction :=
  [.deliver request true, .handle 0 exampleProtocol true, .deliver 2 false, .finish 0 1]

def CallState.missed (c : CallState) : Bool :=
  match c.stage with
  | .done (.ok (.get none)) => true
  | _ => false

theorem CallState.stage_of_missed {c : CallState} (h : c.missed = true) :
    c.stage = .done (.ok (.get none)) := by
  unfold CallState.missed at h
  split at h
  · assumption
  · cases h

theorem peers_matched_two : ∃ s, Trace (Peers.step clear requestEvm fun _ _ => exampleClient)
    Peers.Fresh .start (drawn 0 ++ answered 0) s ∧ (∃ c ∈ s.calls, c.missed = true) ∧
    s.Matched clear requestEvm := by
  have hrun : ∃ s ∈ List.foldlM (guarded (Peers.step clear requestEvm fun _ _ => exampleClient)
      Peers.Fresh) .start (drawn 0 ++ answered 0), ∃ c ∈ s.calls, c.missed = true := by
    decide +kernel
  obtain ⟨s, hs, hmissed⟩ := hrun
  have htrace := trace_iff.2 hs
  exact ⟨s, htrace, hmissed, (peers_matched (htrace.mono fun _ _ _ => trivial)).2 htrace⟩

/-- The clients are two, and the answer is the one to the second call. -/
theorem not_peers_matched : ∃ s, Runs (Peers.step clear requestEvm fun _ _ => exampleClient)
    .start (drawn 1 ++ answered 1) s ∧ ¬ s.Matched clear requestEvm := by
  have hrun : ∃ s ∈ List.foldlM (Peers.step clear requestEvm fun _ _ => exampleClient) .start
      (drawn 1 ++ answered 1), ∃ c ∈ s.calls, c.missed = true ∧
        ∀ e ∈ s.deliveries, e.call.map Call.seq ≠ some c.call.seq := by
    decide +kernel
  obtain ⟨s, hs, c, hc, hmissed, hother⟩ := hrun
  refine ⟨s, runs_iff.2 hs, fun h => ?_⟩
  obtain ⟨delivery, response, hd, -⟩ := h.returned c hc _ (CallState.stage_of_missed hmissed)
  exact hother _ (List.mem_of_getElem? hd) rfl

end Example

end Autonomi.AntClient
