/-
  A GET request of a browser: the answer of the node's store
  (`ant-node/src/storage/handler.rs`) and, where it has none, of the peers that
  the DHT names (`webtransport/server.rs`, `client/chunk_protocol.rs`).
-/
import Autonomi.Node.Storage
import Autonomi.Tunnel.Session

namespace Autonomi.AntNode

open Lib

/-! ## The handler -/

/-- What the four handlers answer. -/
structure AntProtocol where
  handlePut : ChunkPutRequest → ChunkPutResponse
  handleGet : ChunkGetRequest → ChunkGetResponse
  handleQuote : ChunkQuoteRequest → ChunkQuoteResponse
  handleMerkleCandidateQuote : MerkleCandidateQuoteRequest → MerkleCandidateQuoteResponse

def AntProtocol.answer (protocol : AntProtocol) : ChunkMessageBody → Option ChunkMessageBody
  | .putRequest req => some (.putResponse (protocol.handlePut req))
  | .getRequest req => some (.getResponse (protocol.handleGet req))
  | .quoteRequest req => some (.quoteResponse (protocol.handleQuote req))
  | .merkleCandidateQuoteRequest req =>
    some (.merkleCandidateQuoteResponse (protocol.handleMerkleCandidateQuote req))
  | .putResponse _ | .getResponse _ | .quoteResponse _ | .merkleCandidateQuoteResponse _ => none

/-- `none` for a message that is itself a response. -/
def tryHandleRequest (protocol : AntProtocol) (data : Bytes) : Except Error (Option Bytes) := do
  let message ← (ChunkMessage.decode data).mapError fun e =>
    .protocol s!"Failed to decode message: {e.text}"
  match protocol.answer message.body with
  | some body => pure (some (ChunkMessage.encode ⟨message.requestId, body⟩))
  | none => pure none

variable (P : Primitives)

def handleGet (storage : LmdbStorage) (faults : Faults) (request : ChunkGetRequest) :
    ChunkGetResponse :=
  match (storage.get P request.address faults).1 with
  | .ok (some content) => .success request.address content
  | .ok none => .notFound request.address
  | .error e => .error (.storageFailed e.text)

/-! ## A request to a peer -/

inductive P2PEvent where
  | message (topic : String) (source : Option PeerId) (data : Bytes)
  | other

/-- What waiting for the next event comes to. -/
inductive RecvResult where
  | event (e : P2PEvent)
  | lagged (skipped : ℕ)
  | closed
  | elapsed

/-- The loop over the events.  Where the list ends, the deadline has passed. -/
def awaitChunkResponse {T E : Type} (targetPeer : PeerId) (requestId : UInt64)
    (responseHandler : ChunkMessageBody → Option (Except E T)) (timeoutError : E) :
    List RecvResult → Except E T
  | [] => .error timeoutError
  | .event (.message topic (some source) data) :: events =>
    if topic = chunkProtocolId ∧ source = targetPeer then
      match ChunkMessage.decode data with
      | .error _ => awaitChunkResponse targetPeer requestId responseHandler timeoutError events
      | .ok response =>
        if response.requestId ≠ requestId then
          awaitChunkResponse targetPeer requestId responseHandler timeoutError events
        else match responseHandler response.body with
          | some result => result
          | none => awaitChunkResponse targetPeer requestId responseHandler timeoutError events
    else awaitChunkResponse targetPeer requestId responseHandler timeoutError events
  | .event _ :: events | .lagged _ :: events =>
    awaitChunkResponse targetPeer requestId responseHandler timeoutError events
  | .closed :: _ | .elapsed :: _ => .error timeoutError

/-- The network of the node: what sending comes to and which events come, for each request in
    turn, and the numbers it draws. -/
structure P2PNode where
  findClosestNodes : XorName → ℕ → Except String (List PeerId)
  random : UInt64
  sendMessage : ℕ → PeerId → Bytes → Except String Unit
  events : ℕ → List RecvResult

def sendAndAwaitChunkResponse {T E : Type} (p2p : P2PNode) (turn : ℕ) (targetPeer : PeerId)
    (messageBytes : Bytes) (requestId : UInt64)
    (responseHandler : ChunkMessageBody → Option (Except E T)) (sendError : String → E)
    (timeoutError : E) : Except E T := do
  (p2p.sendMessage turn targetPeer messageBytes).mapError sendError
  awaitChunkResponse targetPeer requestId responseHandler timeoutError (p2p.events turn)

/-! ## The fetch from the network -/

/-- What `try_network_fetch` makes of an answer. -/
def fetchHandler : ChunkMessageBody → Option (Except String Bytes)
  | .getResponse (.success addr content) =>
    if computeAddress P content = addr then some (.ok content) else none
  | .getResponse (.notFound _) => some (.error "not found on peer")
  | _ => none

def fetchFromPeer (p2p : P2PNode) (address : XorName) (node : PeerId × ℕ) : Except String Bytes :=
  let getMsg : ChunkMessage := ⟨p2p.random, .getRequest ⟨address⟩⟩
  sendAndAwaitChunkResponse p2p node.2 node.1 getMsg.encode getMsg.requestId (fetchHandler P)
    (fun e => s!"send error: {e}") "timeout"

def fetchFromPeers (p2p : P2PNode) (requestId : UInt64) (address : XorName) :
    List (PeerId × ℕ) → Option Bytes
  | [] => none
  | node :: closest =>
    match fetchFromPeer P p2p address node with
    | .ok content =>
      some (ChunkMessage.encode ⟨requestId, .getResponse (.success address content)⟩)
    | .error _ => fetchFromPeers p2p requestId address closest

def tryNetworkFetch (localResponse : Bytes) (p2pNode : Option P2PNode) : Option Bytes := do
  let p2p ← p2pNode
  let respMsg ← (ChunkMessage.decode localResponse).toOption
  match respMsg.body with
  | .getResponse (.notFound address) =>
    match p2p.findClosestNodes address closeGroupSize with
    | .error _ => none
    | .ok closest => fetchFromPeers P p2p respMsg.requestId address closest.zipIdx
  | _ => none

/-- The response that the task of the stream encrypts. -/
def respond (protocol : AntProtocol) (p2pNode : Option P2PNode) (plaintext : Bytes) :
    Except Outcome Bytes :=
  let response := (tryHandleRequest protocol plaintext).mapError Error.text
  let fetched := match response with
    | .ok (some resp) => tryNetworkFetch P resp p2pNode
    | _ => none
  Session.responseOf response fetched

/-! ## What the peers answer -/

/-- The responses to a request that come before the deadline. -/
def responses (targetPeer : PeerId) (requestId : UInt64) : List RecvResult → List ChunkMessageBody
  | [] | .closed :: _ | .elapsed :: _ => []
  | .event (.message topic (some source) data) :: events =>
    match ChunkMessage.decode data with
    | .ok response =>
      if (topic = chunkProtocolId ∧ source = targetPeer) ∧ response.requestId = requestId then
        response.body :: responses targetPeer requestId events
      else responses targetPeer requestId events
    | .error _ => responses targetPeer requestId events
  | .event _ :: events | .lagged _ :: events => responses targetPeer requestId events

/-- A response that is not passed over: chunks not found, or chunks with the address that they are
    said to have. -/
def Resolves : ChunkMessageBody → Bool
  | .getResponse (.success addr content) => computeAddress P content = addr
  | .getResponse (.notFound _) => true
  | _ => false

/-- The answer of a peer, if it has the request and answers it. -/
def peerAnswer (p2p : P2PNode) (address : XorName) (node : PeerId × ℕ) : Option ChunkMessageBody :=
  let getMsg : ChunkMessage := ⟨p2p.random, .getRequest ⟨address⟩⟩
  match p2p.sendMessage node.2 node.1 getMsg.encode with
  | .ok () => (responses node.1 p2p.random (p2p.events node.2)).find? (Resolves P)
  | .error _ => none

/-- The answers of the peers that the DHT names, which are consulted when the store has no
    chunk of this address. -/
def consultedAnswers (storage : LmdbStorage) (faults : Faults) (p2pNode : Option P2PNode)
    (address : XorName) : List (Option ChunkMessageBody) :=
  match p2pNode with
  | none => []
  | some p2p =>
    match handleGet P storage faults ⟨address⟩ with
    | .notFound _ =>
      match p2p.findClosestNodes address closeGroupSize with
      | .ok closest => closest.zipIdx.map (peerAnswer P p2p address)
      | .error _ => []
    | _ => []

/-- The chunk of an answer. -/
def successOf : Option ChunkMessageBody → Option (XorName × Bytes)
  | some (.getResponse (.success addr content)) => some (addr, content)
  | _ => none

/-- The bytes are those of a message whose lengths fit a `usize`. -/
def Sends (response : Bytes) (m : ChunkMessage) : Prop := m.body.Fits ∧ response = m.encode

/-- A success that is sent carries the chunk of this address. -/
def Authentic (response : Bytes) (address : XorName) : Prop :=
  ∀ id addr content, Sends response ⟨id, .getResponse (.success addr content)⟩ →
    computeAddress P content = address

/-- A chunk of this address that one of the answers brings makes the response a success. -/
def Available (answers : List (Option ChunkMessageBody)) (id : UInt64) (response : Bytes)
    (address : XorName) : Prop :=
  ∀ answer ∈ answers, ∀ content, successOf answer = some (address, content) →
    ∃ content', Sends response ⟨id, .getResponse (.success address content')⟩ ∧
      computeAddress P content' = address

/-! ## The loops -/

variable {P} {storage : LmdbStorage} {faults : Faults} {p2p : P2PNode} {p2pNode : Option P2PNode}
  {protocol : AntProtocol} {plaintext response : Bytes} {id : UInt64} {address : XorName}

theorem awaitChunkResponse_eq {T E : Type} (targetPeer : PeerId) (requestId : UInt64)
    (handler : ChunkMessageBody → Option (Except E T)) (timeoutError : E) :
    ∀ events : List RecvResult, awaitChunkResponse targetPeer requestId handler timeoutError events =
      ((responses targetPeer requestId events).findSome? handler).getD (.error timeoutError)
  | [] => rfl
  | .closed :: _ => rfl
  | .elapsed :: _ => rfl
  | .lagged _ :: events => awaitChunkResponse_eq _ _ _ _ events
  | .event .other :: events => awaitChunkResponse_eq _ _ _ _ events
  | .event (.message _ none _) :: events => awaitChunkResponse_eq _ _ _ _ events
  | .event (.message topic (some source) data) :: events => by
    have ih := awaitChunkResponse_eq targetPeer requestId handler timeoutError events
    rw [awaitChunkResponse, responses]
    rcases hd : ChunkMessage.decode data with e | m
    · simp only [ih, ite_self]
    · by_cases hsource : topic = chunkProtocolId ∧ source = targetPeer
      · by_cases hid : m.requestId = requestId
        · simp only [if_pos hsource, hid, ne_eq, not_true_eq_false, if_false, and_true,
            List.findSome?_cons]
          cases handler m.body with
          | none => exact ih
          | some r => rfl
        · simp only [if_pos hsource, hid, ne_eq, not_false_eq_true, if_true, and_false, if_false, ih]
      · simp only [hsource, false_and, if_false, ih]

theorem isSome_fetchHandler (body : ChunkMessageBody) :
    (fetchHandler P body).isSome = Resolves P body := by
  unfold fetchHandler Resolves
  split
  · rename_i addr content
    by_cases hc : computeAddress P content = addr
    · rw [if_pos hc, decide_eq_true hc]; rfl
    · rw [if_neg hc, decide_eq_false hc]; rfl
  · rfl
  · rfl

theorem findSome?_fetchHandler (bodies : List ChunkMessageBody) :
    bodies.findSome? (fetchHandler P) = (bodies.find? (Resolves P)).bind (fetchHandler P) := by
  induction bodies with
  | nil => rfl
  | cons body bodies ih =>
    rw [List.findSome?_cons, List.find?_cons, ← isSome_fetchHandler]
    rcases hf : fetchHandler P body with _ | r
    · exact ih
    · exact hf.symm

theorem successOf_eq_some {answer : Option ChunkMessageBody} {e : XorName × Bytes} :
    successOf answer = some e ↔ answer = some (.getResponse (.success e.1 e.2)) := by
  unfold successOf
  split
  · simp only [Option.some.injEq, ChunkMessageBody.getResponse.injEq, ChunkGetResponse.success.injEq,
      Prod.ext_iff]
  · rename_i h
    refine ⟨nofun, fun he => absurd he (h _ _)⟩

/-- A peer whose answer is a chunk has this chunk under the address that it claims. -/
theorem fetchFromPeer_toOption (node : PeerId × ℕ) :
    (fetchFromPeer P p2p address node).toOption =
      (successOf (peerAnswer P p2p address node)).map Prod.snd := by
  rw [fetchFromPeer, sendAndAwaitChunkResponse, peerAnswer]
  rcases p2p.sendMessage node.2 node.1 _ with e | ⟨⟩
  · rfl
  · change (awaitChunkResponse _ _ _ _ _).toOption = _
    rw [awaitChunkResponse_eq, findSome?_fetchHandler]
    rcases hf : (responses node.1 p2p.random (p2p.events node.2)).find? (Resolves P) with _ | body
    · rfl
    · have hr : Resolves P body = true := List.find?_some hf
      unfold Resolves at hr
      split at hr
      · have hc := of_decide_eq_true hr
        simp [fetchHandler, hc, successOf, Except.toOption]
      · rfl
      · cases hr

theorem computeAddress_of_peerAnswer {node : PeerId × ℕ} {addr : XorName} {content : Bytes}
    (h : successOf (peerAnswer P p2p address node) = some (addr, content)) :
    computeAddress P content = addr := by
  have h := successOf_eq_some.1 h
  rw [peerAnswer] at h
  split at h
  · have hr : Resolves P (.getResponse (.success addr content)) = true := List.find?_some h
    exact of_decide_eq_true hr
  · cases h

theorem fetchFromPeers_eq (nodes : List (PeerId × ℕ)) :
    fetchFromPeers P p2p id address nodes =
      ((nodes.map (peerAnswer P p2p address)).findSome? successOf).map fun e =>
        ChunkMessage.encode ⟨id, .getResponse (.success address e.2)⟩ := by
  induction nodes with
  | nil => rfl
  | cons node nodes ih =>
    have hpeer : (fetchFromPeer P p2p address node).toOption =
        (successOf (peerAnswer P p2p address node)).map Prod.snd := fetchFromPeer_toOption node
    rw [fetchFromPeers, List.map_cons, List.findSome?_cons]
    rcases hf : fetchFromPeer P p2p address node with e | content
    · rw [hf] at hpeer
      rcases hs : successOf (peerAnswer P p2p address node) with _ | e'
      · exact ih
      · rw [hs] at hpeer; cases hpeer
    · rw [hf] at hpeer
      rcases hs : successOf (peerAnswer P p2p address node) with _ | e'
      · rw [hs] at hpeer; cases hpeer
      · rw [hs] at hpeer
        cases hpeer
        rfl

/-- A response came from the peer, under the id of the request. -/
theorem mem_responses {targetPeer : PeerId} {requestId : UInt64} {body : ChunkMessageBody} :
    ∀ {events : List RecvResult}, body ∈ responses targetPeer requestId events →
      ∃ data m, .event (.message chunkProtocolId (some targetPeer) data) ∈ events ∧
        ChunkMessage.decode data = .ok m ∧ m.requestId = requestId ∧ m.body = body
  | .lagged _ :: _, h => by
    obtain ⟨data, m, hmem, hm⟩ := mem_responses (by rwa [responses] at h)
    exact ⟨data, m, .tail _ hmem, hm⟩
  | .event .other :: _, h => by
    obtain ⟨data, m, hmem, hm⟩ := mem_responses (by rwa [responses] at h; nofun)
    exact ⟨data, m, .tail _ hmem, hm⟩
  | .event (.message _ none _) :: _, h => by
    obtain ⟨data, m, hmem, hm⟩ := mem_responses (by rwa [responses] at h; nofun)
    exact ⟨data, m, .tail _ hmem, hm⟩
  | .event (.message topic (some source) data) :: events, h => by
    have hlater : body ∈ responses targetPeer requestId events →
        ∃ data' m, .event (.message chunkProtocolId (some targetPeer) data') ∈
          .event (.message topic (some source) data) :: events ∧
          ChunkMessage.decode data' = .ok m ∧ m.requestId = requestId ∧ m.body = body := by
      intro h
      obtain ⟨data', m, hmem, hm⟩ := mem_responses h
      exact ⟨data', m, .tail _ hmem, hm⟩
    rw [responses] at h
    rcases hd : ChunkMessage.decode data with e | m
    · rw [hd] at h
      exact hlater h
    · simp only [hd] at h
      split_ifs at h with hmatch
      · rcases List.mem_cons.1 h with rfl | h
        · obtain ⟨⟨rfl, rfl⟩, hid⟩ := hmatch
          exact ⟨data, m, .head _, hd, hid, rfl⟩
        · exact hlater h
      · exact hlater h

/-- A peer's chunk came in a message, so its length fits. -/
theorem fits_of_peerAnswer {node : PeerId × ℕ} {addr : XorName} {content : Bytes}
    (h : successOf (peerAnswer P p2p address node) = some (addr, content)) :
    content.length < 2 ^ 64 := by
  have h := successOf_eq_some.1 h
  rw [peerAnswer] at h
  split at h
  · obtain ⟨data, m, -, hd, -, hm⟩ := mem_responses (List.mem_of_find?_eq_some h)
    obtain ⟨requestId, body⟩ := m
    obtain rfl : body = _ := hm
    rw [ChunkMessage.decode] at hd
    split_ifs at hd with hlen
    split at hd
    · rename_i hread
      cases hd
      have hle : content.length ≤ data.length := length_of_read hread
      unfold maxWireMessageSize at hlen
      omega
    · cases hd
  · cases h

theorem exists_peer_of_mem {answer : Option ChunkMessageBody}
    (h : answer ∈ consultedAnswers P storage faults p2pNode address) :
    ∃ p2p node, answer = peerAnswer P p2p address node := by
  rcases p2pNode with _ | p2p
  · cases h
  · simp only [consultedAnswers] at h
    split at h
    · split at h
      · obtain ⟨node, -, rfl⟩ := List.mem_map.1 h
        exact ⟨_, node, rfl⟩
      · cases h
    · cases h

/-! ## The response -/

/-- The only message that the bytes of an answer of a GET can be. -/
theorem Sends.eq {r : ChunkGetResponse} {id' : UInt64} {addr : XorName} {content : Bytes}
    (h : Sends (ChunkMessage.encode ⟨id, .getResponse r⟩) ⟨id', .getResponse (.success addr content)⟩) :
    r = .success addr content := by
  have hread := reads_chunkMessage h.1 []
  rw [List.append_nil, ← h.2] at hread
  obtain ⟨r', he, hs, -⟩ := getResponse_of_read hread
  cases he
  exact hs _ _ rfl

theorem decode_notFound (id : UInt64) (address : XorName) :
    ChunkMessage.decode (ChunkMessage.encode ⟨id, .getResponse (.notFound address)⟩) =
      .ok ⟨id, .getResponse (.notFound address)⟩ := by
  refine decode_encode trivial ?_
  have h₁ := length_leb128_le (varintMax 64) id.toNat
  have h₂ := length_leb128_le (varintMax 32) 3
  have h₃ := length_leb128_le (varintMax 32) 1
  simp only [ChunkMessage.encode, ChunkMessageBody.write, ChunkGetResponse.write, putTag, varint,
    List.length_append, List.Vector.toList_length, varintMax, maxWireMessageSize] at *
  omega

theorem handleGet_notFound {a : XorName} (h : handleGet P storage faults ⟨address⟩ = .notFound a) :
    a = address := by
  rw [handleGet] at h
  split at h
  · cases h
  · exact (ChunkGetResponse.notFound.inj h).symm
  · cases h

/-- A local answer that is not a miss is not read as one. -/
theorem decode_of_hit {r : ChunkGetResponse} {m : ChunkMessage} (hr : ∀ a, r ≠ .notFound a)
    (h : ChunkMessage.decode (ChunkMessage.encode ⟨id, .getResponse r⟩) = .ok m) :
    ∃ r', m.body = .getResponse r' ∧ ∀ a, r' ≠ .notFound a := by
  rw [ChunkMessage.decode] at h
  split_ifs at h
  split at h
  · rename_i m' t hread
    cases h
    obtain ⟨r', rfl, -, hn⟩ := getResponse_of_read hread
    refine ⟨r', rfl, fun a ha => hr a ?_⟩
    rw [hn a ha, ha]
  · cases h

theorem tryNetworkFetch_eq : tryNetworkFetch P
      (ChunkMessage.encode ⟨id, .getResponse (handleGet P storage faults ⟨address⟩)⟩) p2pNode =
    ((consultedAnswers P storage faults p2pNode address).findSome? successOf).map fun e =>
      ChunkMessage.encode ⟨id, .getResponse (.success address e.2)⟩ := by
  rcases p2pNode with _ | p2p
  · rfl
  · by_cases hmiss : ∃ a, handleGet P storage faults ⟨address⟩ = .notFound a
    · obtain ⟨a, ha⟩ := hmiss
      obtain rfl := handleGet_notFound ha
      simp only [tryNetworkFetch, consultedAnswers, ha, decode_notFound, Option.bind_eq_bind,
        Option.bind_some, Except.toOption]
      rcases p2p.findClosestNodes a closeGroupSize with e | closest
      · rfl
      · exact fetchFromPeers_eq _
    · have hhit : ∀ a, handleGet P storage faults ⟨address⟩ ≠ .notFound a := fun a h => hmiss ⟨a, h⟩
      have hnone : consultedAnswers P storage faults (some p2p) address = [] := by
        simp only [consultedAnswers]
      simp only [tryNetworkFetch, hnone, Option.bind_eq_bind, Option.bind_some, List.findSome?_nil,
        Option.map_none]
      rcases hd : ChunkMessage.decode _ with e | m
      · rfl
      · obtain ⟨r', hbody, hr'⟩ := decode_of_hit hhit hd
        simp only [Except.toOption, Option.bind_some, hbody]
        cases r' with
        | notFound a => exact absurd rfl (hr' a)
        | success | error => rfl

theorem respond_eq (hget : protocol.handleGet = handleGet P storage faults)
    (hreq : ChunkMessage.decode plaintext = .ok ⟨id, .getRequest ⟨address⟩⟩) :
    respond P protocol p2pNode plaintext = .ok
      (match (consultedAnswers P storage faults p2pNode address).findSome? successOf with
        | some e => ChunkMessage.encode ⟨id, .getResponse (.success address e.2)⟩
        | none => ChunkMessage.encode ⟨id, .getResponse (handleGet P storage faults ⟨address⟩)⟩) := by
  have hhandle : tryHandleRequest protocol plaintext =
      .ok (some (ChunkMessage.encode ⟨id, .getResponse (handleGet P storage faults ⟨address⟩)⟩)) := by
    rw [tryHandleRequest, hreq, ← hget]
    rfl
  rw [respond, hhandle]
  change Session.responseOf (.ok (some _)) (tryNetworkFetch P _ p2pNode) = _
  rw [tryNetworkFetch_eq]
  cases (consultedAnswers P storage faults p2pNode address).findSome? successOf <;> rfl

theorem handleGet_success (hverify : storage.config.verifyOnRead) {addr : XorName} {content : Bytes}
    (h : handleGet P storage faults ⟨address⟩ = .success addr content) :
    computeAddress P content = address := by
  rw [handleGet] at h
  split at h
  · rename_i hg
    cases h
    exact LmdbStorage.get_eq_ok hverify hg
  · cases h
  · cases h

/-- **When a GET is answered faithfully**: the answer is authentic, and a peer that has the chunk
    is not lost behind others, exactly if the first chunk that any of the peers consulted answers
    with is one for the address asked for. -/
theorem respond_faithful_iff (hget : protocol.handleGet = handleGet P storage faults)
    (hverify : storage.config.verifyOnRead)
    (hreq : ChunkMessage.decode plaintext = .ok ⟨id, .getRequest ⟨address⟩⟩) :
    (∃ response, respond P protocol p2pNode plaintext = .ok response ∧
      Authentic P response address ∧
      Available P (consultedAnswers P storage faults p2pNode address) id response address) ↔
    ∀ addr content, (consultedAnswers P storage faults p2pNode address).findSome? successOf =
      some (addr, content) → addr = address := by
  rw [respond_eq hget hreq]
  rcases hfirst : (consultedAnswers P storage faults p2pNode address).findSome? successOf with
    _ | ⟨addr, content⟩
  · refine iff_of_true ⟨_, rfl, ?_, ?_⟩ nofun
    · intro id' addr content hs
      exact handleGet_success hverify hs.eq
    · intro answer hmem content hs
      rw [List.findSome?_eq_none_iff.1 hfirst answer hmem] at hs
      cases hs
  · obtain ⟨answer, hmem, hanswer⟩ := List.exists_of_findSome?_eq_some hfirst
    obtain ⟨p2p, node, rfl⟩ := exists_peer_of_mem hmem
    have hhash := computeAddress_of_peerAnswer hanswer
    have hsent : Sends (ChunkMessage.encode ⟨id, .getResponse (.success address content)⟩)
      ⟨id, .getResponse (.success address content)⟩ := ⟨fits_of_peerAnswer hanswer, rfl⟩
    constructor
    · rintro ⟨_, ⟨⟩, hauth, -⟩ addr' content' he
      cases he
      rw [← hhash]
      exact hauth _ _ _ hsent
    · intro h
      obtain rfl := h _ _ rfl
      refine ⟨_, rfl, ?_, ?_⟩
      · intro id' addr' content' hs
        cases hs.eq
        exact hhash
      · intro answer' _ content' _
        exact ⟨content, hsent, hhash⟩

/-! ## Two peers -/

section Example

def exampleRequest (address : XorName) : Bytes := ChunkMessage.encode ⟨7, .getRequest ⟨address⟩⟩

def emptyStorage : LmdbStorage := ⟨∅, ⟨true, 0⟩, ⟨0, 0, 0, 0, 0, 0⟩⟩

def exampleProtocol : AntProtocol where
  handlePut _ := .paymentRequired "Payment required for new chunk"
  handleGet := handleGet clear emptyStorage .none
  handleQuote _ := .error (.quoteFailed "")
  handleMerkleCandidateQuote _ := .error (.quoteFailed "")

def examplePeer (n : ℕ) : PeerId := padTo 32 [UInt8.ofNat n]

/-- The `i`-th peer answers at once with the `i`-th body. -/
def examplePeers (bodies : List ChunkMessageBody) : P2PNode where
  findClosestNodes _ _ := .ok ((List.range bodies.length).map examplePeer)
  random := 9
  sendMessage _ _ _ := .ok ()
  events i := (bodies[i]?.map fun body => RecvResult.event
    (.message chunkProtocolId (some (examplePeer i)) (ChunkMessage.encode ⟨9, body⟩))).toList

/-- A success with a chunk of its own address. -/
def foundChunk (content : Bytes) : ChunkMessageBody :=
  .getResponse (.success (computeAddress clear content) content)

def missingChunk : XorName := computeAddress clear [5]

/-- The first peer has not the chunk, the second has. -/
def honestPeers : P2PNode := examplePeers [.getResponse (.notFound missingChunk), foundChunk [5]]

theorem respond_faithful_miss : ∃ response,
    respond clear exampleProtocol (some honestPeers) (exampleRequest missingChunk) = .ok response ∧
    Authentic clear response missingChunk ∧
    Available clear (consultedAnswers clear emptyStorage .none (some honestPeers) missingChunk) 7
      response missingChunk := by
  refine (respond_faithful_iff rfl rfl (by decide +kernel)).2 fun addr content h => ?_
  have hfirst : (consultedAnswers clear emptyStorage .none (some honestPeers)
    missingChunk).findSome? successOf = some (missingChunk, [5]) := by decide +kernel
  rw [hfirst] at h
  cases h
  rfl

/-- The first peer answers with another chunk, under its address; the second has the chunk. -/
def mixedPeers : P2PNode := examplePeers [foundChunk [4], foundChunk [5]]

theorem not_respond_faithful : ∃ response,
    respond clear exampleProtocol (some mixedPeers) (exampleRequest missingChunk) = .ok response ∧
    ¬ Authentic clear response missingChunk ∧
    ¬ Available clear (consultedAnswers clear emptyStorage .none (some mixedPeers) missingChunk) 7
      response missingChunk := by
  refine ⟨ChunkMessage.encode ⟨7, .getResponse (.success missingChunk [4])⟩, by decide +kernel,
    fun h => ?_, fun h => ?_⟩
  · exact absurd (h 7 missingChunk [4] ⟨(by decide : [(4 : UInt8)].length < 2 ^ 64), rfl⟩)
      (by decide)
  · obtain ⟨content, hs, hhash⟩ := h (some (foundChunk [5])) (by decide +kernel) [5] rfl
    cases hs.eq
    exact absurd hhash (by decide)

end Example

end Autonomi.AntNode
