/-
  Fetching a chunk from its close group, behind a cache
  (`ant-core/src/data/client/chunk.rs`, `cache.rs`).
-/
import Autonomi.Client.PartlyStored
import Autonomi.Lib.Lru

namespace Autonomi.AntClient

open Lib AntNode

structure DataChunk where
  address : XorName
  content : Bytes
  deriving DecidableEq

/-! ## The cache -/

abbrev ChunkCache := LruCache XorName Bytes

def defaultCacheCapacity : ℕ := 1024

def ChunkCache.new (capacity : ℕ) : ChunkCache :=
  if h : capacity = 0 then LruCache.new defaultCacheCapacity (by decide)
  else LruCache.new capacity (Nat.pos_of_ne_zero h)

def ChunkCache.default : ChunkCache := ChunkCache.new defaultCacheCapacity

variable (P : Primitives) (C : ClientEvm) (client : Client) (net : Network)

/-! ## The request to a peer -/

def getHandler (address : XorName) :
    ChunkMessageBody → Option (Except Error (Option DataChunk))
  | .getResponse (.success addr content) =>
    if addr ≠ address then
      some (.error (.invalidData
        s!"Mismatched chunk address: expected {hexEncode address}, got {hexEncode addr}"))
    else
      let computed := computeAddress P content
      if computed ≠ addr then
        some (.error (.invalidData
          s!"Invalid chunk content: expected hash {hexEncode address}, got {hexEncode computed}"))
      else some (.ok (some ⟨addr, content⟩))
  | .getResponse (.notFound _) => some (.ok none)
  | .getResponse (.error e) =>
    some (.error (.protocol s!"Remote GET error for {hexEncode address}: {e.text}"))
  | _ => none

def getRequest (address : XorName) (turn : ℕ) : ChunkMessage :=
  ⟨net.requestIds turn, .getRequest ⟨address⟩⟩

/-- The request to the peer that is asked in this turn. -/
def chunkGetFromPeer (address : XorName) (peer : PeerId × ℕ) : Except Error (Option DataChunk) :=
  let (peerId, turn) := peer
  let message := getRequest net address turn
  let name := C.displayPeerId peerId
  sendAndAwaitChunkResponse net.p2p turn peerId message.encode message.requestId
    (getHandler P address)
    (fun e => .network s!"Failed to send GET to peer {name}: {e}")
    (.timeout
      s!"Timeout waiting for chunk {hexEncode address} from {name} after {client.timeoutSecs}s")

/-- The loop over the peers. -/
def chunkGetFromPeers (address : XorName) (cache : ChunkCache) :
    List (PeerId × ℕ) → Except Error (Option DataChunk) × ChunkCache
  | [] => (.ok none, cache)
  | peer :: peers =>
    match chunkGetFromPeer P C client net address peer with
    | .ok (some chunk) => (.ok (some chunk), cache.put chunk.address chunk.content)
    | .ok none => chunkGetFromPeers address cache peers
    | .error (.timeout _) | .error (.network _) => chunkGetFromPeers address cache peers
    | .error e => (.error e, cache)

/-- The fetch of a chunk that the cache has not. -/
def chunkFetch (address : XorName) (cache : ChunkCache) :
    Except Error (Option DataChunk) × ChunkCache :=
  match net.closeGroupPeers client address with
  | .ok peers => chunkGetFromPeers P C client net address cache peers.zipIdx
  | .error e => (.error e, cache)

def chunkGet (address : XorName) (cache : ChunkCache) :
    Except Error (Option DataChunk) × ChunkCache :=
  match cache.get address with
  | (some cached, cache) =>
    if computeAddress P cached = address then (.ok (some ⟨address, cached⟩), cache)
    else chunkFetch P C client net address (cache.pop address)
  | (none, cache) => chunkFetch P C client net address cache

/-! ## What the peers answer -/

def getResponseOf : ChunkMessageBody → Option ChunkGetResponse
  | .getResponse response => some response
  | _ => none

/-- The answer of a peer: none if it is not reached, or does not answer in time. -/
def getAnswer (address : XorName) (peer : PeerId × ℕ) : Option ChunkGetResponse :=
  let message := getRequest net address peer.2
  match net.p2p.sendMessage peer.2 peer.1 message.encode with
  | .ok () => (responses peer.1 message.requestId (net.p2p.events peer.2)).findSome? getResponseOf
  | .error _ => none

/-- The answers of the close group, in the order of its list. -/
def getAnswers (address : XorName) : List (Option ChunkGetResponse) :=
  match net.closeGroupPeers client address with
  | .ok peers => peers.zipIdx.map (getAnswer net address)
  | .error _ => []

/-- The chunk of an answer that has the address asked for. -/
def chunkOf (address : XorName) : Option ChunkGetResponse → Option DataChunk
  | some (.success addr content) =>
    if addr = address ∧ computeAddress P content = address then some ⟨addr, content⟩ else none
  | _ => none

/-- A peer that has nothing to say is passed over. -/
def passedOver : Option ChunkGetResponse → Bool
  | none | some (.notFound _) => true
  | _ => false

/-- The cached content has the address of its key. -/
def cacheHit (address : XorName) (cache : ChunkCache) : Bool :=
  (cache.find? address).any fun cached => computeAddress P cached = address

/-- No peer that answers with anything else stands before the first that answers with the chunk. -/
def Unhidden (address : XorName) (answers : List (Option ChunkGetResponse)) : Prop :=
  ∀ answer ∈ answers, (chunkOf P address answer).isSome →
    ∃ first, answers.find? (fun answer => !passedOver answer) = some first ∧
      (chunkOf P address first).isSome

/-- What a fetch promises of its result and of the entries of the cache: those that it leaves have
    the address of their key, or were there, under another. -/
structure Faithful (address : XorName) (answers : List (Option ChunkGetResponse))
    (before : ChunkCache) (result : Except Error (Option DataChunk)) (after : ChunkCache) : Prop where
  authentic : ∀ chunk, result = .ok (some chunk) → computeAddress P chunk.content = address
  cached : ∀ e ∈ after.entries,
    computeAddress P e.2 = e.1 ∨ e ∈ before.entries ∧ e.1 ≠ address
  available : ∀ answer ∈ answers, (chunkOf P address answer).isSome →
    ∃ chunk, result = .ok (some chunk)

/-! ## One peer -/

variable {P C client net} {address : XorName} {peer : PeerId × ℕ} {chunk : DataChunk}

/-- An error after which the next peer is asked. -/
def Error.unreachable : Error → Bool
  | .timeout _ | .network _ => true
  | _ => false

theorem findSome?_getHandler (bodies : List ChunkMessageBody) :
    bodies.findSome? (getHandler P address) = (bodies.findSome? getResponseOf).bind fun response =>
      getHandler P address (.getResponse response) := by
  induction bodies with
  | nil => rfl
  | cons body bodies ih =>
    cases body with
    | getResponse response =>
      cases response with
      | success addr content =>
        simp only [List.findSome?_cons, getResponseOf, Option.bind_some, getHandler]
        split_ifs <;> rfl
      | notFound | error => rfl
    | _ => exact ih

/-- The request comes to what the handler makes of the answer. -/
theorem chunkGetFromPeer_eq (C : ClientEvm) (client : Client) (net : Network) (address : XorName)
    (peer : PeerId × ℕ) : ∃ silent : Error, silent.unreachable ∧
      chunkGetFromPeer P C client net address peer =
        ((getAnswer net address peer).bind fun response =>
          getHandler P address (.getResponse response)).getD (.error silent) := by
  obtain ⟨peerId, turn⟩ := peer
  simp only [chunkGetFromPeer, sendAndAwaitChunkResponse, getAnswer]
  rcases net.p2p.sendMessage turn peerId _ with e | ⟨⟩
  · exact ⟨.network s!"Failed to send GET to peer {C.displayPeerId peerId}: {e}", rfl, rfl⟩
  · refine ⟨.timeout s!"Timeout waiting for chunk {hexEncode address} from {C.displayPeerId peerId} after {client.timeoutSecs}s",
      rfl, ?_⟩
    change awaitChunkResponse _ _ _ _ _ = _
    rw [awaitChunkResponse_eq, findSome?_getHandler]

theorem chunkGetFromPeer_passedOver (h : passedOver (getAnswer net address peer)) :
    chunkGetFromPeer P C client net address peer = .ok none ∨
      ∃ e : Error, e.unreachable ∧ chunkGetFromPeer P C client net address peer = .error e := by
  obtain ⟨silent, hsilent, heq⟩ := chunkGetFromPeer_eq (P := P) C client net address peer
  rw [heq]
  unfold passedOver at h
  split at h
  · rename_i hnone
    exact .inr ⟨silent, hsilent, by rw [hnone]; rfl⟩
  · rename_i hmiss
    exact .inl (by rw [hmiss]; rfl)
  · cases h

theorem eq_success_of_chunkOf {answer : Option ChunkGetResponse}
    (h : chunkOf P address answer = some chunk) :
    answer = some (.success address chunk.content) ∧ chunk.address = address ∧
      computeAddress P chunk.content = address := by
  unfold chunkOf at h
  split at h
  · split_ifs at h with hgood
    cases h
    exact ⟨by rw [hgood.1], hgood.1, hgood.2⟩
  · cases h

theorem chunkGetFromPeer_found (h : chunkOf P address (getAnswer net address peer) = some chunk) :
    chunkGetFromPeer P C client net address peer = .ok (some chunk) := by
  obtain ⟨silent, -, heq⟩ := chunkGetFromPeer_eq (P := P) C client net address peer
  obtain ⟨hanswer, rfl, hhash⟩ := eq_success_of_chunkOf h
  rw [heq, hanswer]
  simp [getHandler, hhash]

theorem chunkGetFromPeer_refused (hanswer : passedOver (getAnswer net address peer) = false)
    (hbad : chunkOf P address (getAnswer net address peer) = none) :
    ∃ e : Error, e.unreachable = false ∧
      chunkGetFromPeer P C client net address peer = .error e := by
  obtain ⟨silent, -, heq⟩ := chunkGetFromPeer_eq (P := P) C client net address peer
  rw [heq]
  generalize getAnswer net address peer = answer at hanswer hbad
  rcases answer with _ | ⟨addr, content⟩ | addr | e
  · cases hanswer
  · by_cases haddr : addr = address
    · subst haddr
      by_cases hhash : computeAddress P content = addr
      · rw [chunkOf, if_pos ⟨rfl, hhash⟩] at hbad
        cases hbad
      · simp only [Option.bind_some, getHandler, ne_eq, not_true_eq_false, hhash,
          not_false_eq_true, if_true, if_false, Option.getD_some]
        exact ⟨_, rfl, rfl⟩
    · simp only [Option.bind_some, getHandler, ne_eq, haddr, not_false_eq_true, if_true,
        Option.getD_some]
      exact ⟨_, rfl, rfl⟩
  · cases hanswer
  · exact ⟨_, rfl, rfl⟩

/-! ## The loop -/

/-- What a fetch comes to: the first answer that is not passed over decides. -/
inductive FetchResult (P : Primitives) (address : XorName) (answers : List (Option ChunkGetResponse))
    (cache : ChunkCache) : Except Error (Option DataChunk) × ChunkCache → Prop
  | missing : answers.find? (fun answer => !passedOver answer) = none →
      FetchResult P address answers cache (.ok none, cache)
  | found {first chunk} : answers.find? (fun answer => !passedOver answer) = some first →
      chunkOf P address first = some chunk →
      FetchResult P address answers cache (.ok (some chunk), cache.put chunk.address chunk.content)
  | refused {first} (e : Error) : answers.find? (fun answer => !passedOver answer) = some first →
      chunkOf P address first = none → FetchResult P address answers cache (.error e, cache)

theorem chunkGetFromPeers_spec (C : ClientEvm) (client : Client) (cache : ChunkCache)
    (peers : List (PeerId × ℕ)) :
    FetchResult P address (peers.map (getAnswer net address)) cache
      (chunkGetFromPeers P C client net address cache peers) := by
  induction peers with
  | nil => exact .missing rfl
  | cons peer peers ih =>
    by_cases hpass : passedOver (getAnswer net address peer) = true
    · have hnext : chunkGetFromPeers P C client net address cache (peer :: peers) =
          chunkGetFromPeers P C client net address cache peers := by
        rw [chunkGetFromPeers]
        have hanswer : chunkGetFromPeer P C client net address peer = .ok none ∨ _ :=
          chunkGetFromPeer_passedOver hpass
        rcases hanswer with h | ⟨e, he, h⟩
        · rw [h]
        · rw [h]
          cases e <;> first | rfl | cases he
      have hskip : ((peer :: peers).map (getAnswer net address)).find?
          (fun answer => !passedOver answer) =
          (peers.map (getAnswer net address)).find? (fun answer => !passedOver answer) := by
        rw [List.map_cons, List.find?_cons_of_neg (by simp [hpass])]
      rw [hnext]
      generalize chunkGetFromPeers P C client net address cache peers = result at ih
      cases ih with
      | missing h => exact .missing (hskip.trans h)
      | found h hc => exact .found (hskip.trans h) hc
      | refused e h hc => exact .refused e (hskip.trans h) hc
    · have hfirst : ((peer :: peers).map (getAnswer net address)).find?
          (fun answer => !passedOver answer) = some (getAnswer net address peer) := by
        rw [List.map_cons, List.find?_cons_of_pos (by simp [hpass])]
      rw [chunkGetFromPeers]
      rcases hc : chunkOf P address (getAnswer net address peer) with _ | chunk
      · have hrefused : ∃ e : Error, e.unreachable = false ∧
            chunkGetFromPeer P C client net address peer = .error e :=
          chunkGetFromPeer_refused (by simpa using hpass) hc
        obtain ⟨e, he, h⟩ := hrefused
        rw [h]
        cases e <;> first | exact .refused _ hfirst hc | cases he
      · rw [chunkGetFromPeer_found hc]
        exact .found hfirst hc

theorem chunkFetch_spec (C : ClientEvm) (client : Client) (net : Network) (address : XorName)
    (cache : ChunkCache) :
    (getAnswers client net address = [] ∧
      ∃ e, chunkFetch P C client net address cache = (.error e, cache)) ∨
    FetchResult P address (getAnswers client net address) cache
      (chunkFetch P C client net address cache) := by
  rw [getAnswers, chunkFetch]
  rcases net.closeGroupPeers client address with e | peers
  · exact .inl ⟨rfl, e, rfl⟩
  · exact .inr (chunkGetFromPeers_spec C client cache peers.zipIdx)

/-! ## What a fetch promises -/

variable {answers : List (Option ChunkGetResponse)} {before cache : ChunkCache}
  {result : Except Error (Option DataChunk) × ChunkCache}

namespace FetchResult

theorem authentic (h : FetchResult P address answers cache result) (hresult : result.1 = .ok (some chunk)) :
    computeAddress P chunk.content = address := by
  cases h with
  | missing => cases hresult
  | found _ hc =>
    cases hresult
    exact (eq_success_of_chunkOf hc).2.2
  | refused => cases hresult

/-- Only the chunk that was fetched comes into the cache. -/
theorem cached {e : XorName × Bytes} (h : FetchResult P address answers cache result)
    (he : e ∈ result.2.entries) : computeAddress P e.2 = e.1 ∨ e ∈ cache.entries := by
  cases h with
  | missing => exact .inr he
  | found _ hc =>
    obtain ⟨-, haddr, hhash⟩ := eq_success_of_chunkOf hc
    rcases cache.mem_put he with rfl | ⟨he, -⟩
    · exact .inl (hhash.trans haddr.symm)
    · exact .inr he
  | refused => exact .inr he

theorem available_iff (h : FetchResult P address answers cache result) :
    (∀ answer ∈ answers, (chunkOf P address answer).isSome → ∃ chunk, result.1 = .ok (some chunk)) ↔
      Unhidden P address answers := by
  constructor
  · intro havailable answer hmem hgood
    obtain ⟨chunk, hresult⟩ := havailable answer hmem hgood
    cases h with
    | missing => cases hresult
    | @found first _ hfirst hc => exact ⟨first, hfirst, by rw [hc]; rfl⟩
    | refused => cases hresult
  · intro hu answer hmem hgood
    obtain ⟨first, hfirst, hgood⟩ := hu answer hmem hgood
    cases h with
    | missing hnone => cases hnone.symm.trans hfirst
    | found => exact ⟨_, rfl⟩
    | refused _ hfirst' hc =>
      obtain rfl := Option.some.inj (hfirst'.symm.trans hfirst)
      rw [hc] at hgood
      cases hgood

end FetchResult

theorem chunkFetch_faithful_iff (C : ClientEvm)
    (hcache : ∀ e ∈ cache.entries, e ∈ before.entries ∧ e.1 ≠ address) :
    Faithful P address (getAnswers client net address) before
      (chunkFetch P C client net address cache).1 (chunkFetch P C client net address cache).2 ↔
    Unhidden P address (getAnswers client net address) := by
  rcases chunkFetch_spec (P := P) C client net address cache with ⟨hnil, e, h⟩ | h
  · rw [h, hnil]
    exact iff_of_true ⟨nofun, fun e he => .inr (hcache e he), nofun⟩ nofun
  · exact ⟨fun hf => h.available_iff.1 hf.available, fun hu => ⟨fun _ => h.authentic,
      fun e he => (h.cached he).imp_right (hcache e), h.available_iff.2 hu⟩⟩

/-- **When a chunk is fetched faithfully**: if it is cached, or no answer that is neither a miss
    nor the chunk stands before the first peer that has it. -/
theorem chunkGet_faithful_iff (P : Primitives) (C : ClientEvm) (client : Client) (net : Network)
    (address : XorName) (cache : ChunkCache) :
    Faithful P address (getAnswers client net address) cache
      (chunkGet P C client net address cache).1 (chunkGet P C client net address cache).2 ↔
    cacheHit P address cache ∨ Unhidden P address (getAnswers client net address) := by
  rw [chunkGet, cacheHit]
  rcases hfind : cache.find? address with _ | cached
  · rw [cache.get_of_find?_eq_none hfind]
    simp only [Option.any_none, Bool.false_eq_true, false_or]
    exact chunkFetch_faithful_iff C fun e he => ⟨he, cache.ne_of_find?_eq_none hfind he⟩
  · rw [cache.get_of_find?_eq_some hfind]
    by_cases hhash : computeAddress P cached = address
    · simp only [Option.any_some, hhash, decide_true, true_or, iff_true, if_true]
      refine ⟨?_, fun e he => ?_, fun _ _ _ => ⟨_, rfl⟩⟩
      · rintro _ ⟨⟩
        exact hhash
      · rcases cache.mem_put he with rfl | he
        · exact .inl hhash
        · exact .inr he
    · simp only [Option.any_some, hhash, decide_false, Bool.false_eq_true, false_or, if_false]
      refine chunkFetch_faithful_iff C fun e he => ?_
      obtain ⟨he, hne⟩ := (LruCache.mem_pop _).1 he
      rcases cache.mem_put he with rfl | he
      · exact absurd rfl hne
      · exact he

/-! ## Any number of fetches -/

/-- All contents have the address of their key. -/
def Sound (P : Primitives) (cache : ChunkCache) : Prop :=
  ∀ e ∈ cache.entries, computeAddress P e.2 = e.1

theorem chunkFetch_sound (C : ClientEvm) (client : Client) (net : Network) (address : XorName)
    (h : Sound P cache) : Sound P (chunkFetch P C client net address cache).2 := by
  intro e he
  rcases chunkFetch_spec (P := P) C client net address cache with ⟨-, e', h'⟩ | h'
  · rw [h'] at he
    exact h e he
  · exact (h'.cached he).elim id (h e)

theorem chunkGet_sound (C : ClientEvm) (client : Client) (net : Network) (address : XorName)
    (h : Sound P cache) : Sound P (chunkGet P C client net address cache).2 := by
  rw [chunkGet]
  rcases hfind : cache.find? address with _ | cached
  · rw [cache.get_of_find?_eq_none hfind]
    exact chunkFetch_sound C client net address h
  · rw [cache.get_of_find?_eq_some hfind]
    dsimp only
    split_ifs with hhash
    · intro e he
      rcases cache.mem_put he with rfl | he
      · exact hhash
      · exact h e he.1
    · refine chunkFetch_sound C client net address fun e he => ?_
      obtain ⟨he, hne⟩ := (LruCache.mem_pop _).1 he
      rcases cache.mem_put he with rfl | he
      · exact absurd rfl hne
      · exact h e he.1

/-- One call after the other, each in its own network. -/
def chunkGets (P : Primitives) (C : ClientEvm) (client : Client) :
    List (Network × XorName) → ChunkCache → ChunkCache
  | [], cache => cache
  | (net, address) :: calls, cache =>
    chunkGets P C client calls (chunkGet P C client net address cache).2

/-- **A cache that only the client fills is sound.** -/
theorem chunkGets_sound (C : ClientEvm) (client : Client) (calls : List (Network × XorName))
    (h : Sound P cache) : Sound P (chunkGets P C client calls cache) := by
  induction calls generalizing cache with
  | nil => exact h
  | cons call calls ih => exact ih (chunkGet_sound C client call.1 call.2 h)

/-! ## Two peers -/

section Example

/-- The first peer has another chunk under the address, the second the chunk. -/
def forgedPeers : Network where
  p2p := examplePeers [.getResponse (.success missingChunk [4]), foundChunk [5]]
  peerId := examplePeer 9
  requestIds _ := 9

theorem not_chunkGet_available :
    ∃ answer ∈ getAnswers exampleClient forgedPeers missingChunk,
      chunkOf clear missingChunk answer = some ⟨missingChunk, [5]⟩ ∧
      ∀ chunk, (chunkGet clear exampleClientEvm exampleClient forgedPeers missingChunk .default).1 ≠
        .ok (some chunk) := by
  refine ⟨some (.success missingChunk [5]), by decide +kernel, by decide +kernel, ?_⟩
  have herror : (chunkGet clear exampleClientEvm exampleClient forgedPeers missingChunk .default).1 =
      .error (.invalidData s!"Invalid chunk content: expected hash {hexEncode missingChunk}, got {hexEncode (computeAddress clear [4])}") := by
    decide +kernel
  rw [herror]
  intro chunk h
  cases h

end Example

end Autonomi.AntClient
