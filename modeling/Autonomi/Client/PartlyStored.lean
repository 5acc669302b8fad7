/-
  A chunk that some peers of its close group hold already, and the next attempt
  to store it.
-/
import Autonomi.Client.Chunk
import Autonomi.Node.Quote
import Autonomi.Node.Verifier

namespace Autonomi.AntClient

open Lib AntNode

variable (P : Primitives) (C : ClientEvm) (client : Client)

/-- An attempt of the past: which of the peers that it has sent a PUT have stored the chunk. -/
structure PastAttempt extends Attempt where
  stores : PeerId → Bool

/-- The peers that hold the chunk after these attempts. -/
def holdersAfter (content : Bytes) (history : List PastAttempt) : Finset PeerId :=
  history.foldl (fun holders a =>
    holders ∪ ((chunkPut P C client a.toAttempt content).2.filter a.stores).toFinset) ∅

/-- An honest peer answers the request for a quote, and says whether it has the chunk. -/
def AnswersQuote (net : Network) (request : ChunkQuoteRequest) (stored : Bool)
    (peer : PeerId × ℕ) : Prop :=
  net.p2p.sendMessage peer.2 peer.1
    (ChunkMessage.encode ⟨net.requestIds peer.2, .quoteRequest request⟩) = .ok () ∧
  ∃ generator metrics timestamp liveTimeHours quoteBytes quote rest,
    handleQuote C.toEvm (.ok stored) C.writeQuote generator metrics timestamp liveTimeHours request =
      .success quoteBytes stored ∧
    C.readQuote quoteBytes = .ok quote ∧
    responses peer.1 (net.requestIds peer.2) (net.p2p.events peer.2) =
      .quoteResponse (.success quoteBytes stored) :: rest

/-- What comes of a quote request to an honest peer. -/
def IsAnswer (holders : Finset PeerId) (r : QuoteResult) : Prop :=
  if r.1 ∈ holders then r.2 = .error .alreadyStored else ∃ q, r.2 = .ok q

variable {P C client} {net : Network} {request : ChunkQuoteRequest} {holders : Finset PeerId}

theorem AnswersQuote.isAnswer {peer : PeerId × ℕ}
    (h : AnswersQuote C net request (decide (peer.1 ∈ holders)) peer) :
    IsAnswer holders (requestQuote C net request peer) := by
  obtain ⟨hsend, _, _, _, _, quoteBytes, quote, rest, -, hread, hresponses⟩ := h
  have hresult : (requestQuote C net request peer).2 =
      if peer.1 ∈ holders then .error .alreadyStored
      else .ok (quote, C.calculatePrice quote.quotingMetrics) := by
    simp only [requestQuote, sendAndAwaitChunkResponse, hsend, awaitChunkResponse_eq, hresponses]
    by_cases hstored : peer.1 ∈ holders
    · simp [quoteHandler, hstored, Except.mapError, bind, Except.bind]
    · simp [quoteHandler, hstored, hread, Except.mapError, bind, Except.bind]
  have hpeer : (requestQuote C net request peer).1 = peer.1 := rfl
  rw [IsAnswer, hresult, hpeer]
  by_cases hstored : peer.1 ∈ holders
  · simp [hstored]
  · simp [hstored]

/-- Where everyone answers: a majority has the chunk, or nobody is missing among the quotes, or
    somebody is. -/
theorem collectQuotes_cases {results : List QuoteResult} (h : ∀ r ∈ results, IsAnswer holders r) :
    ∀ (quotes : List Quoted) (n : ℕ) (failures : List String), n < closeGroupMajority →
    let stored := results.countP fun r => r.1 ∈ holders
    let fresh := results.countP fun r => r.1 ∉ holders
    let answer := collectQuotes C quotes n failures results
    (closeGroupMajority ≤ n + stored ∧ answer = .error .alreadyStored) ∨
    (n + stored < closeGroupMajority ∧ closeGroupSize ≤ quotes.length + fresh ∧
      ∃ qs, answer = .ok qs ∧ qs.map Prod.fst =
        quotes.map Prod.fst ++ (results.filter fun r => r.1 ∉ holders).map Prod.fst) ∨
    (n + stored < closeGroupMajority ∧ quotes.length + fresh < closeGroupSize ∧
      ∃ msg, answer = .error (.insufficientPeers msg)) := by
  induction results with
  | nil =>
    intro quotes n failures hn
    by_cases hsize : closeGroupSize ≤ quotes.length
    · exact .inr (.inl ⟨hn, hsize, quotes, by simp [collectQuotes, hsize], by simp⟩)
    · exact .inr (.inr ⟨hn, not_le.1 hsize, _, by simp [collectQuotes, hsize]; rfl⟩)
  | cons r results ih =>
    intro quotes n failures hn
    obtain ⟨peer, result⟩ := r
    have hr := h _ (List.mem_cons_self ..)
    have hrest : ∀ r ∈ results, IsAnswer holders r := fun r hr => h r (List.mem_cons_of_mem _ hr)
    by_cases hstored : peer ∈ holders
    · simp only [IsAnswer, hstored, if_true] at hr
      subst hr
      by_cases hmajority : closeGroupMajority ≤ n + 1
      · refine .inl ⟨?_, by simp [collectQuotes, hmajority]⟩
        simp [hstored]
        omega
      · have := ih hrest quotes (n + 1) failures (not_le.1 hmajority)
        simpa [collectQuotes, hmajority, hstored, add_assoc, add_comm, add_left_comm] using this
    · simp only [IsAnswer, hstored, if_false] at hr
      obtain ⟨⟨quote, price⟩, rfl⟩ := hr
      have := ih hrest (quotes ++ [(peer, quote, price)]) n failures hn
      simpa [collectQuotes, hstored, add_assoc, add_comm, add_left_comm] using this

/-- The answers of the close group, as they come. -/
def quoteResults (C : ClientEvm) (net : Network) (order : Unordered QuoteResult)
    (request : ChunkQuoteRequest) (peers : List PeerId) : List QuoteResult :=
  order (peers.zipIdx.map (requestQuote C net request))

theorem getStoreQuotes_eq {order : Unordered QuoteResult} {peers : List PeerId}
    (hgroup : net.closeGroupPeers client request.address = .ok peers)
    (hlen : peers.length = closeGroupSize) :
    getStoreQuotes C client net order request =
      collectQuotes C [] 0 [] (quoteResults C net order request peers) := by
  have htake : peers.take closeGroupSize = peers := List.take_of_length_le hlen.le
  simp [getStoreQuotes, hgroup, htake, hlen, quoteResults, bind, Except.bind]

theorem map_fst_quoteResults (order : Unordered QuoteResult) (peers : List PeerId) :
    ((quoteResults C net order request peers).map Prod.fst).Perm peers := by
  refine ((order.perm _).map _).trans ?_
  have hname : Prod.fst ∘ requestQuote C net request = Prod.fst := rfl
  rw [List.map_map, hname, List.zipIdx_map_fst]

theorem isAnswer_quoteResults {order : Unordered QuoteResult} {peers : List PeerId}
    (h : ∀ peer ∈ peers.zipIdx, AnswersQuote C net request (decide (peer.1 ∈ holders)) peer) :
    ∀ r ∈ quoteResults C net order request peers, IsAnswer holders r := by
  intro r hr
  rw [quoteResults, Unordered.mem_order] at hr
  obtain ⟨peer, hpeer, rfl⟩ := List.mem_map.1 hr
  exact (h peer hpeer).isAnswer

theorem payQuotes_of_payForStorage {chain : Chain} {order : Unordered QuoteResult}
    {quotes : List Quoted} {paid : Bytes × List PeerId}
    (hpaid : payForStorage C client net chain order request = .ok paid)
    (hquotes : getStoreQuotes C client net order request = .ok quotes) :
    payQuotes C client chain quotes = .ok paid := by
  simp only [payForStorage, bind_eq_ok] at hpaid
  obtain ⟨_, -, quotes', hquotes', hpay⟩ := hpaid
  cases hquotes.symm.trans hquotes'
  exact hpay

theorem payQuotes_eq_ok {chain : Chain} {quotes : List Quoted} {paid : Bytes × List PeerId}
    (h : payQuotes C client chain quotes = .ok paid) : paid.2 = quotes.map Prod.fst := by
  simp only [payQuotes, bind_eq_ok] at h
  obtain ⟨_, -, _, -, _, -, h⟩ := h
  cases h
  rfl

/-- **A chunk is completed**, however often it was tried before, where all five peers answer and would
    store it, exactly if none of them has it yet or a majority has. -/
theorem chunkPut_completes_iff {content : Bytes} {history : List PastAttempt} {later : Attempt}
    {peers : List PeerId}
    (hgroup : later.quoteNet.closeGroupPeers client (computeAddress P content) = .ok peers)
    (hlen : peers.length = closeGroupSize)
    (hquotes : ∀ peer ∈ peers.zipIdx, AnswersQuote C later.quoteNet (quoteRequestOf P content)
      (decide (peer.1 ∈ holdersAfter P C client content history)) peer)
    (hwallet : client.wallet = true)
    (hpays : ∀ quotes, getStoreQuotes C client later.quoteNet later.quoteOrder
      (quoteRequestOf P content) = .ok quotes → ∃ paid, payQuotes C client later.chain quotes =
        .ok paid)
    (hputs : ∀ proof quoted, payForStorage C client later.quoteNet later.chain later.quoteOrder
      (quoteRequestOf P content) = .ok (proof, quoted) → ∀ peer ∈ quoted.zipIdx,
        accepts (chunkPutWithProof P client later.putNet content proof) peer = true)
    (hturns : turnsOf peers ≤ later.turns) :
    (((∃ quotes, getStoreQuotes C client later.quoteNet later.quoteOrder (quoteRequestOf P content) =
          .ok quotes ∧ (quotes.map Prod.fst).Perm peers) ∨
        getStoreQuotes C client later.quoteNet later.quoteOrder (quoteRequestOf P content) =
          .error .alreadyStored) ∧
      (chunkPut P C client later content).1 = some (.ok (computeAddress P content))) ↔
    ¬ (0 < peers.countP (· ∈ holdersAfter P C client content history) ∧
      peers.countP (· ∈ holdersAfter P C client content history) < closeGroupMajority) := by
  set holders := holdersAfter P C client content history
  set results := quoteResults C later.quoteNet later.quoteOrder (quoteRequestOf P content) peers
  have hperm : (results.map Prod.fst).Perm peers := map_fst_quoteResults _ _
  have hstored : results.countP (fun r => r.1 ∈ holders) = peers.countP (· ∈ holders) := by
    rw [← hperm.countP_eq, List.countP_map]
    rfl
  have hfresh : results.countP (fun r => r.1 ∈ holders) + results.countP (fun r => r.1 ∉ holders) =
      closeGroupSize := by
    rw [← hlen, ← hperm.length_eq, List.length_map,
      List.length_eq_countP_add_countP (fun r : QuoteResult => decide (r.1 ∈ holders))]
    simp
  rw [← hstored, getStoreQuotes_eq hgroup hlen]
  have hanswers : ∀ r ∈ results, IsAnswer holders r := isAnswer_quoteResults hquotes
  rcases collectQuotes_cases (C := C) hanswers [] 0 [] (by decide) with
    ⟨hmajority, hresult⟩ | ⟨hfew, hall, quotes, hresult, hnames⟩ | ⟨hfew, hmissing, msg, hresult⟩
  · rw [Nat.zero_add] at hmajority
    refine iff_of_true ⟨.inr hresult, ?_⟩ fun h => absurd h.2 (not_lt.2 hmajority)
    have hpay : payForStorage C client later.quoteNet later.chain later.quoteOrder
        (quoteRequestOf P content) = .error .alreadyStored := by
      rw [payForStorage, getStoreQuotes_eq hgroup hlen, hresult]
      simp [Client.requireWallet, hwallet, bind, Except.bind]
    rw [chunkPut, hpay]
  · rw [List.length_nil, Nat.zero_add] at hall
    have hnone : ∀ r ∈ results, r.1 ∉ holders := by
      intro r hr hmem
      have : 0 < results.countP fun r => r.1 ∈ holders :=
        List.countP_pos_iff.2 ⟨r, hr, decide_eq_true hmem⟩
      omega
    have hquoted : quotes.map Prod.fst = results.map Prod.fst := by
      rw [hnames, List.filter_eq_self.2 fun r hr => decide_eq_true (hnone r hr)]
      rfl
    have hquotes : getStoreQuotes C client later.quoteNet later.quoteOrder
        (quoteRequestOf P content) = .ok quotes := by rw [getStoreQuotes_eq hgroup hlen, hresult]
    obtain ⟨⟨proof, quoted⟩, hpaid⟩ := hpays quotes hquotes
    obtain rfl : quoted = quotes.map Prod.fst := payQuotes_eq_ok hpaid
    have hpay : payForStorage C client later.quoteNet later.chain later.quoteOrder
        (quoteRequestOf P content) = .ok (proof, quotes.map Prod.fst) := by
      rw [payForStorage, hquotes]
      simp [Client.requireWallet, hwallet, hpaid, bind, Except.bind]
    refine iff_of_true ⟨.inl ⟨quotes, hresult, hquoted ▸ hperm⟩, ?_⟩ fun h => by omega
    have hlength : (quotes.map Prod.fst).length = closeGroupSize := by
      rw [hquoted, hperm.length_eq, hlen]
    have hturns : turnsOf (quotes.map Prod.fst) ≤ later.turns := by
      rwa [turnsOf, hlength, ← hlen]
    obtain ⟨s, r, hput, hiff⟩ := chunkPutToCloseGroup_ends (C := C) P client later.putNet
      later.putOrder content proof hturns
    have hall : (quotes.map Prod.fst).zipIdx.countP
        (accepts (chunkPutWithProof P client later.putNet content proof)) = closeGroupSize := by
      rw [List.countP_eq_length.2 (hputs proof _ hpay), List.length_zipIdx, hlength]
    have hr : r = .ok (computeAddress P content) := hiff.2 (by rw [hall]; decide)
    simp only [chunkPut, hpay, hput, hr]
  · rw [List.length_nil, Nat.zero_add] at hmissing
    refine iff_of_false ?_ fun h => h ⟨by omega, by omega⟩
    rintro ⟨⟨quotes, h, -⟩ | h, -⟩
    · rw [hresult] at h
      cases h
    · rw [hresult] at h
      cases h

/-! ## The second attempt after a crash -/

section Example

def exampleClientEvm : ClientEvm :=
  { exampleEvm examplePayment with
    readQuote := fun bytes =>
      .ok ⟨exampleContent, seconds 1, exampleMetrics, bytes, exampleAddress 0, bytes⟩
    writeQuote := fun quote => .ok quote.pubKey
    writePaymentProof := fun _ => .ok (List.replicate 31 7)
    calculatePrice := fun _ => 3
    displayPeerId := hexEncode
    displayQuoteHash := hexEncode }

def exampleClient : Client := ⟨10, 5, true, true⟩

def exampleGroup : List PeerId := (List.range 5).map examplePeer

/-- The peers that hold the chunk say so, the others quote. -/
def exampleQuoteNet (holders : Finset PeerId) : Network where
  p2p := examplePeers (exampleGroup.map fun peer =>
    .quoteResponse (.success (peer.toList.take 1) (peer ∈ holders)))
  peerId := examplePeer 9
  requestIds _ := 9

def examplePutNet : Network where
  p2p := examplePeers (exampleGroup.map fun _ => .putResponse (.success exampleContent))
  peerId := examplePeer 9
  requestIds _ := 9

def exampleChain : Chain where
  getMarketPrice metrics := .ok (metrics.map fun _ => 1)
  payForQuotes payments := .ok (payments.map fun p => (p.1, padTo 32 [1]))

/-- All answer in turn. -/
def exampleAttempt (holders : Finset PeerId) (turns : ℕ) : Attempt :=
  ⟨exampleQuoteNet holders, .asStarted, exampleChain, examplePutNet, fun _ => .asStarted, turns⟩

theorem answersQuote_example (holders : Finset PeerId) : ∀ peer ∈ exampleGroup.zipIdx,
    AnswersQuote exampleClientEvm (exampleQuoteNet holders) (quoteRequestOf clear [5])
      (decide (peer.1 ∈ holders)) peer := by
  intro peer hpeer
  obtain ⟨n, hn, rfl⟩ : ∃ n < 5, peer = (examplePeer n, n) := by
    obtain ⟨i, hi, rfl⟩ := List.mem_iff_getElem.1 hpeer
    exact ⟨i, by simpa [exampleGroup] using hi, by simp [exampleGroup]⟩
  refine ⟨rfl, ⟨exampleAddress 0, some fun _ => [1], [UInt8.ofNat n]⟩, ⟨0, 1000, 0, [], 500⟩, 0, 0,
    [UInt8.ofNat n], _, [], rfl, rfl, ?_⟩
  set stored := decide (examplePeer n ∈ holders)
  set message : ChunkMessage := ⟨9, .quoteResponse (.success [UInt8.ofNat n] stored)⟩
  have hevents : (exampleQuoteNet holders).p2p.events n =
      [.event (.message chunkProtocolId (some (examplePeer n)) message.encode)] := by
    have hbyte : (examplePeer n).toList.take 1 = [UInt8.ofNat n] := rfl
    simp [exampleQuoteNet, examplePeers, exampleGroup, hn, hbyte, message, stored]
  have hshort : ∀ stored : Bool, ∀ n < 5, (ChunkMessage.encode
      ⟨9, .quoteResponse (.success [UInt8.ofNat n] stored)⟩).length ≤ maxWireMessageSize := by
    decide +kernel
  have hfits : message.body.Fits := by simp [message, ChunkMessageBody.Fits]
  have hdecode := decode_encode hfits (hshort stored n hn)
  rw [hevents]
  simp [responses, hdecode, exampleQuoteNet, message]

def exampleThree : Finset PeerId := {examplePeer 0, examplePeer 1, examplePeer 2}

/-- The client is stopped once it has sent its PUTs, and all of them are stored. -/
def exampleThreeHistory : List PastAttempt := [⟨exampleAttempt ∅ 0, fun _ => true⟩]

/-- Nobody has the chunk, and then three have it. -/
theorem chunkPut_completes_three :
    ((∃ quotes, getStoreQuotes exampleClientEvm exampleClient (exampleQuoteNet ∅) .asStarted
        (quoteRequestOf clear [5]) = .ok quotes ∧ (quotes.map Prod.fst).Perm exampleGroup) ∧
      (chunkPut clear exampleClientEvm exampleClient (exampleAttempt ∅ 6) [5]).1 =
        some (.ok exampleContent)) ∧
    holdersAfter clear exampleClientEvm exampleClient [5] exampleThreeHistory = exampleThree ∧
    getStoreQuotes exampleClientEvm exampleClient (exampleQuoteNet exampleThree) .asStarted
      (quoteRequestOf clear [5]) = .error .alreadyStored ∧
    (chunkPut clear exampleClientEvm exampleClient (exampleAttempt exampleThree 6) [5]).1 =
      some (.ok exampleContent) := by
  have hpaid : payForStorage exampleClientEvm exampleClient (exampleQuoteNet ∅) exampleChain
      .asStarted (quoteRequestOf clear [5]) = .ok (exampleProofBytes, exampleGroup) := by
    decide +kernel
  have haccepts : ∀ peer ∈ exampleGroup.zipIdx, accepts
      (chunkPutWithProof clear exampleClient examplePutNet [5] exampleProofBytes) peer = true := by
    decide +kernel
  have hholders : holdersAfter clear exampleClientEvm exampleClient [5] exampleThreeHistory =
      exampleThree := by decide +kernel
  have hstored : getStoreQuotes exampleClientEvm exampleClient (exampleQuoteNet exampleThree)
      .asStarted (quoteRequestOf clear [5]) = .error .alreadyStored := by decide +kernel
  have hunpaid : payForStorage exampleClientEvm exampleClient (exampleQuoteNet exampleThree)
      exampleChain .asStarted (quoteRequestOf clear [5]) = .error .alreadyStored := by
    decide +kernel
  constructor
  · have hgroup : (exampleAttempt ∅ 6).quoteNet.closeGroupPeers exampleClient
        (computeAddress clear [5]) = .ok exampleGroup := by decide +kernel
    have hquotes : ∀ peer ∈ exampleGroup.zipIdx, AnswersQuote exampleClientEvm
        (exampleAttempt ∅ 6).quoteNet (quoteRequestOf clear [5])
        (decide (peer.1 ∈ holdersAfter clear exampleClientEvm exampleClient [5] [])) peer :=
      answersQuote_example ∅
    obtain ⟨h, hput⟩ := (chunkPut_completes_iff hgroup rfl hquotes rfl
      (fun quotes hq => ⟨_, payQuotes_of_payForStorage hpaid hq⟩)
      (fun proof quoted hpay => by cases hpaid.symm.trans hpay; exact haccepts) (by decide)).2
      (by decide)
    exact ⟨h.resolve_right (by decide +kernel), hput⟩
  · have hgroup : (exampleAttempt exampleThree 6).quoteNet.closeGroupPeers exampleClient
        (computeAddress clear [5]) = .ok exampleGroup := by decide +kernel
    have hquotes : ∀ peer ∈ exampleGroup.zipIdx, AnswersQuote exampleClientEvm
        (exampleAttempt exampleThree 6).quoteNet (quoteRequestOf clear [5])
        (decide (peer.1 ∈ holdersAfter clear exampleClientEvm exampleClient [5]
          exampleThreeHistory)) peer := by
      rw [hholders]
      exact answersQuote_example exampleThree
    obtain ⟨-, hput⟩ := (chunkPut_completes_iff hgroup rfl hquotes rfl
      (fun quotes hq => by cases hstored.symm.trans hq)
      (fun proof quoted hpay => by cases hunpaid.symm.trans hpay) (by decide)).2
      (by rw [hholders]; decide)
    exact ⟨hholders, hstored, hput⟩

/-- The client is stopped once it has sent its PUTs, and one of them has been stored. -/
def exampleHistory : List PastAttempt := [⟨exampleAttempt ∅ 0, fun peer => peer = examplePeer 0⟩]

/-- All five answer, and the chunk cannot be completed. -/
theorem not_chunkPut_completes :
    holdersAfter clear exampleClientEvm exampleClient [5] exampleHistory = {examplePeer 0} ∧
    (∀ peer ∈ exampleGroup.zipIdx,
      AnswersQuote exampleClientEvm (exampleQuoteNet {examplePeer 0}) (quoteRequestOf clear [5])
        (decide (peer.1 ∈ ({examplePeer 0} : Finset PeerId))) peer ∧
      accepts (chunkPutWithProof clear exampleClient examplePutNet [5] []) peer = true) ∧
    getStoreQuotes exampleClientEvm exampleClient (exampleQuoteNet {examplePeer 0}) .asStarted
      (quoteRequestOf clear [5]) =
        .error (.insufficientPeers "Got 4 quotes, need 5. Failures: []") ∧
    (chunkPut clear exampleClientEvm exampleClient (exampleAttempt {examplePeer 0} 6) [5]).1 =
      some (.error (.insufficientPeers "Got 4 quotes, need 5. Failures: []")) := by
  refine ⟨by decide +kernel, fun peer hpeer => ⟨answersQuote_example _ peer hpeer, ?_⟩,
    by decide +kernel, by decide +kernel⟩
  have haccepts : ∀ peer ∈ exampleGroup.zipIdx,
    accepts (chunkPutWithProof clear exampleClient examplePutNet [5] []) peer = true := by
    decide +kernel
  exact haccepts peer hpeer

end Example

end Autonomi.AntClient
