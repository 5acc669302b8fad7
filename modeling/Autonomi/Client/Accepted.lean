/-
  What a client pays a close group of honest nodes for
  (`ant-core/src/data/client/quote.rs`, `payment.rs`, `batch.rs`), and each of
  these nodes when it is sent the chunk.
-/
import Autonomi.Client.Intent
import Autonomi.Client.PaidOnce
import Autonomi.Node.Accepts

namespace Autonomi.AntClient

open Lib AntNode

/-! ## Honest nodes -/

/-- What was written is read back, and the vault is asked about each quote of a proof. -/
structure ClientEvm.Lawful (C : ClientEvm) : Prop where
  readQuote : ∀ quote bytes, C.writeQuote quote = .ok bytes → C.readQuote bytes = .ok quote
  readPaymentProof : ∀ proof body, C.writePaymentProof proof = .ok body →
    C.readPaymentProof body = .ok proof
  digest : ∀ payment, C.digest payment = payment.peerQuotes.map fun q =>
    ⟨q.2.quotingMetrics, q.2.rewardsAddress, C.quoteHash q.2⟩

/-- The node of this name signs with the key that it is named after. -/
structure SignsAs (C : ClientEvm) (generator : QuoteGenerator) (peer : PeerId) : Prop where
  name : C.peerIdFromPublicKeyBytes generator.pubKey = .ok peer
  signs : ∀ signFn, generator.signFn = some signFn → ∀ message,
    C.mlDsaVerify generator.pubKey message (signFn message) = true

variable (C : ClientEvm) (nodes : PeerId → QuoteGenerator) (since till : SystemTime)

/-- The answers of the peer to the request for a quote are those of its handler, at some time
    between the two. -/
structure QuotesHonestly (net : Network) (request : ChunkQuoteRequest) (peer : PeerId × ℕ) :
    Prop where
  key : SignsAs C (nodes peer.1) peer.1
  answers : ∀ response,
    .quoteResponse response ∈ responses peer.1 (net.requestIds peer.2) (net.p2p.events peer.2) →
    ∃ stored metrics timestamp liveTimeHours, since ≤ timestamp ∧ timestamp ≤ till ∧
      response = handleQuote C.toEvm stored C.writeQuote (nodes peer.1) metrics timestamp
        liveTimeHours request

/-- The peers that are asked are distinct and honest. -/
structure HonestGroup (client : Client) (net : Network) (request : ChunkQuoteRequest) : Prop where
  distinct : ∀ peers, net.p2p.findClosestNodes request.address (client.closeGroupSize + 1) =
    .ok peers → peers.Nodup
  quotes : ∀ peers, net.closeGroupPeers client request.address = .ok peers →
    ∀ peer ∈ (peers.take closeGroupSize).zipIdx, QuotesHonestly C nodes since till net request peer

/-- A quote for the address that the node of this name has made and signed. -/
structure HonestQuote (address : XorName) (peer : PeerId) (quote : PaymentQuote) : Prop where
  content : quote.content = address
  since : since ≤ quote.timestamp
  till : quote.timestamp ≤ till
  name : C.peerIdFromPublicKeyBytes quote.pubKey = .ok peer
  signed : verifyQuoteSignature C.toEvm quote = true
  recipient : quote.rewardsAddress = (nodes peer).rewardsAddress

/-- The quotes of a whole close group. -/
structure HonestQuotes (address : XorName) (quotes : List Quoted) : Prop where
  count : quotes.length = closeGroupSize
  distinct : (quotes.map Prod.fst).Nodup
  quote : ∀ q ∈ quotes, HonestQuote C nodes since till address q.1 q.2.1

variable {C nodes since till} {client : Client} {net : Network} {chain : Chain}
  {order : Unordered QuoteResult} {request : ChunkQuoteRequest} {quotes : List Quoted}
  {peer : PeerId × ℕ} {address : XorName} {quote : PaymentQuote}

/-! ## The quotes -/

theorem honestQuote_of_createQuote {generator : QuoteGenerator} {metrics : QuotingMetricsTracker}
    {timestamp : SystemTime} {liveTimeHours dataSize : ℕ} {dataType : UInt32} {peer : PeerId}
    (hkey : SignsAs C (nodes peer) peer) (hsince : since ≤ timestamp) (htill : timestamp ≤ till)
    (hgenerator : generator = nodes peer)
    (h : createQuote C.toEvm generator metrics timestamp liveTimeHours address dataSize dataType =
      .ok quote) : HonestQuote C nodes since till address peer quote := by
  subst hgenerator
  obtain ⟨signFn, hsign, h⟩ := bind_eq_ok.1 h
  obtain ⟨_, -, h⟩ := bind_eq_ok.1 h
  obtain rfl := Except.ok.inj h
  exact ⟨rfl, hsince, htill, hkey.name, hkey.signs signFn (okOr_eq_ok.1 hsign) _, rfl⟩

theorem honestQuote_of_handleQuote {stored : Except AntNode.Error Bool}
    {metrics : QuotingMetricsTracker} {timestamp : SystemTime} {liveTimeHours : ℕ} {peer : PeerId}
    {quoteBytes : Bytes} {alreadyStored : Bool} (hC : C.Lawful) (hkey : SignsAs C (nodes peer) peer)
    (hsince : since ≤ timestamp) (htill : timestamp ≤ till)
    (h : handleQuote C.toEvm stored C.writeQuote (nodes peer) metrics timestamp liveTimeHours
      request = .success quoteBytes alreadyStored) (hread : C.readQuote quoteBytes = .ok quote) :
    HonestQuote C nodes since till request.address peer quote := by
  simp only [handleQuote] at h
  split_ifs at h
  split at h
  · rename_i made hmade
    split at h
    · rename_i bytes hbytes
      cases h
      rw [hC.readQuote _ _ hbytes] at hread
      obtain rfl := Except.ok.inj hread
      exact honestQuote_of_createQuote hkey hsince htill rfl hmade
    · cases h
  · cases h

/-- What a request comes to: it is not sent, or not answered in time, or its handler has made it of a
    response. -/
theorem sendAndAwait_cases {T F : Type} (p2p : P2PNode) (turn : ℕ) (targetPeer : PeerId)
    (messageBytes : Bytes) (requestId : UInt64)
    (responseHandler : ChunkMessageBody → Option (Except F T)) (sendError : String → F)
    (timeoutError : F) {result : Except F T}
    (h : sendAndAwaitChunkResponse p2p turn targetPeer messageBytes requestId responseHandler
      sendError timeoutError = result) :
    (∃ e, result = .error (sendError e)) ∨ result = .error timeoutError ∨
      ∃ body ∈ responses targetPeer requestId (p2p.events turn),
        responseHandler body = some result := by
  unfold sendAndAwaitChunkResponse at h
  cases hsend : p2p.sendMessage turn targetPeer messageBytes with
  | error e =>
    rw [hsend] at h
    exact .inl ⟨e, h.symm⟩
  | ok u =>
    rw [hsend] at h
    change awaitChunkResponse _ _ _ _ _ = _ at h
    rw [awaitChunkResponse_eq] at h
    rcases hfound : (responses targetPeer requestId (p2p.events turn)).findSome? responseHandler with
      _ | r
    · rw [hfound] at h
      exact .inr (.inl h.symm)
    · rw [hfound] at h
      obtain ⟨body, hmem, hbody⟩ := List.exists_of_findSome?_eq_some hfound
      exact .inr (.inr ⟨body, hmem, hbody.trans (congrArg some h)⟩)

theorem honestQuote_of_requestQuote {quoted : PaymentQuote × AntNode.Amount} (hC : C.Lawful)
    (hhonest : QuotesHonestly C nodes since till net request peer)
    (h : (requestQuote C net request peer).2 = .ok quoted) :
    HonestQuote C nodes since till request.address peer.1 quoted.1 := by
  rcases sendAndAwait_cases _ _ _ _ _ _ _ _ h with ⟨e, he⟩ | he | ⟨body, hmem, hbody⟩
  · cases he
  · cases he
  · unfold quoteHandler at hbody
    split at hbody
    · rename_i quoteBytes alreadyStored
      split_ifs at hbody
      · cases hbody
      split at hbody
      · rename_i hread
        cases hbody
        obtain ⟨stored, metrics, timestamp, liveTimeHours, hsince, htill, hresponse⟩ :=
          hhonest.answers _ hmem
        exact honestQuote_of_handleQuote hC hhonest.key hsince htill hresponse.symm hread
      · cases hbody
    · cases hbody
    · cases hbody

/-- The quote of a result. -/
def quotedOf (r : QuoteResult) : Option Quoted := r.2.toOption.map (Prod.mk r.1)

/-- The quotes are those among the answers. -/
theorem collectQuotes_eq_ok {results : List QuoteResult} :
    ∀ {quotes qs : List Quoted} {n : ℕ} {failures : List String},
      collectQuotes C quotes n failures results = .ok qs →
      qs = quotes ++ results.filterMap quotedOf := by
  induction results with
  | nil =>
    intro quotes qs n failures h
    simp only [collectQuotes] at h
    split_ifs at h
    cases h
    simp
  | cons r results ih =>
    intro quotes qs n failures h
    obtain ⟨peer, e | ⟨quote, price⟩⟩ := r
    · have hnone : quotedOf (peer, .error e) = none := rfl
      rw [List.filterMap_cons_none hnone]
      cases e
      case alreadyStored =>
        simp only [collectQuotes] at h
        split_ifs at h
        exact ih h
      all_goals exact ih h
    · have hsome : quotedOf (peer, .ok (quote, price)) = some (peer, quote, price) := rfl
      rw [List.filterMap_cons_some hsome, ih h, List.append_assoc, List.singleton_append]

theorem names_sublist (results : List QuoteResult) :
    ((results.filterMap quotedOf).map Prod.fst).Sublist (results.map Prod.fst) := by
  induction results with
  | nil => exact .refl _
  | cons r results ih =>
    obtain ⟨peer, e | quote⟩ := r
    · exact ih.cons _
    · exact ih.cons_cons _

theorem nodup_closeGroupPeers {peers : List PeerId}
    (hdistinct : ∀ peers, net.p2p.findClosestNodes address (client.closeGroupSize + 1) = .ok peers →
      peers.Nodup) (hpeers : net.closeGroupPeers client address = .ok peers) : peers.Nodup := by
  obtain ⟨found, hfound, hpeers⟩ := bind_eq_ok.1 hpeers
  obtain ⟨closest, hclosest, hfound⟩ := bind_eq_ok.1 hfound
  have hnodup := hdistinct closest (mapError_eq_ok.1 hclosest)
  obtain rfl := Except.ok.inj hfound
  split_ifs at hpeers
  obtain rfl := Except.ok.inj hpeers
  exact (hnodup.filter _).sublist (List.take_sublist _ _)

/-- Who has quoted is of the group that was asked. -/
theorem quoted_of_getStoreQuotes
    (hdistinct : ∀ peers, net.p2p.findClosestNodes request.address (client.closeGroupSize + 1) =
      .ok peers → peers.Nodup)
    (h : getStoreQuotes C client net order request = .ok quotes) :
    ∃ peers, net.closeGroupPeers client request.address = .ok peers ∧
      (quotes.map Prod.fst).Nodup ∧ (quotes.map Prod.fst) ⊆ peers.take closeGroupSize := by
  obtain ⟨peers, hpeers, h⟩ := bind_eq_ok.1 h
  dsimp only at h
  split_ifs at h
  have hquotes := collectQuotes_eq_ok h
  rw [List.nil_append] at hquotes
  set results := (peers.take closeGroupSize).zipIdx.map (requestQuote C net request)
  have hnames : ((order results).map Prod.fst).Perm (peers.take closeGroupSize) := by
    refine ((order.perm results).map Prod.fst).trans ?_
    rw [List.map_map]
    exact List.Perm.of_eq (List.zipIdx_map_fst _ _)
  rw [hquotes]
  refine ⟨peers, hpeers, ?_, fun p hp => hnames.subset ((names_sublist _).subset hp)⟩
  exact (hnames.nodup_iff.2 ((nodup_closeGroupPeers hdistinct hpeers).sublist
    (List.take_sublist _ _))).sublist (names_sublist _)

/-- The quotes that an honest group gives are honest. -/
theorem honestQuotes_of_getStoreQuotes (hC : C.Lawful)
    (hgroup : HonestGroup C nodes since till client net request)
    (h : getStoreQuotes C client net order request = .ok quotes) :
    HonestQuotes C nodes since till request.address quotes := by
  have hcount := length_of_getStoreQuotes h
  obtain ⟨-, -, hnodup, -⟩ := quoted_of_getStoreQuotes hgroup.distinct h
  obtain ⟨peers, hpeers, h⟩ := bind_eq_ok.1 h
  dsimp only at h
  split_ifs at h
  have hquotes := collectQuotes_eq_ok h
  rw [List.nil_append] at hquotes
  refine ⟨hcount, hnodup, fun q hq => ?_⟩
  rw [hquotes] at hq
  obtain ⟨r, hr, hquoted⟩ := List.mem_filterMap.1 hq
  rw [Unordered.mem_order] at hr
  obtain ⟨peer, hpeer, rfl⟩ := List.mem_map.1 hr
  obtain ⟨⟨quote, price⟩, hresult, rfl⟩ := Option.map_eq_some_iff.1 hquoted
  exact honestQuote_of_requestQuote hC (hgroup.quotes peers hpeers peer hpeer)
    (eq_ok_of_toOption hresult)

/-! ## The payment -/

/-- The contract asks a price for every quote. -/
def AsksPrice (chain : Chain) : Prop :=
  ∀ metrics prices, chain.getMarketPrice metrics = .ok prices → ∀ price ∈ prices, 0 < price

/-- The proof, as it is before it is written. -/
def proofOf (quotes : List Quoted) : ProofOfPayment := ⟨quotes.map fun q => (q.1.toList, q.2.1)⟩

/-- One of the quotes is paid. -/
def PaysOne (C : ClientEvm) (quotes : List Quoted) (payment : SingleNodePayment) : Prop :=
  ∃ info ∈ payment.quotes, 0 < info.amount ∧ ∃ q ∈ quotes, C.quoteHash q.2.1 = info.quoteHash

theorem IsPaymentOf.paysOne {prices : List AntNode.Amount} {payment : SingleNodePayment}
    (h : IsPaymentOf C.toEvm ((quotes.map fun q => q.2.1).zip prices) payment)
    (hprices : ∀ price ∈ prices, 0 < price) : PaysOne C quotes payment := by
  obtain ⟨sorted, median, hmedian, hinfos⟩ := h
  have hmem : median ∈ (quotes.map fun q => q.2.1).zip prices :=
    hmedian.perm.subset (List.mem_of_getElem? hmedian.getElem)
  obtain ⟨hquote, hprice⟩ := List.of_mem_zip (a := median.1) (b := median.2) hmem
  obtain ⟨q, hq, hmade⟩ := List.mem_map.1 hquote
  refine ⟨⟨C.quoteHash median.1, median.1.rewardsAddress, 3 * median.2,
    median.1.quotingMetrics⟩, ?_, ?_, q, hq, by rw [hmade]⟩
  · rw [hinfos]
    refine List.mem_of_getElem? (i := 2) ?_
    rw [List.getElem?_mapIdx, hmedian.getElem]
    rfl
  · exact Nat.mul_pos (by decide) (hprices _ hprice)

theorem priceQuotes_eq_ok {peerQuotes : List (EncodedPeerId × PaymentQuote)}
    {payment : SingleNodePayment} (hlen : quotes.length = closeGroupSize) (hchain : AsksPrice chain)
    (h : priceQuotes C client chain quotes = .ok (peerQuotes, payment)) :
    peerQuotes = (proofOf quotes).peerQuotes ∧ PaysOne C quotes payment := by
  obtain ⟨_, -, h⟩ := bind_eq_ok.1 h
  obtain ⟨prices, hprices, h⟩ := bind_eq_ok.1 h
  split_ifs at h with hcount
  obtain ⟨payment', hpayment, h⟩ := bind_eq_ok.1 h
  cases h
  have hprices := hchain _ _ (mapError_eq_ok.1 hprices)
  refine ⟨rfl, (fromQuotes_eq_ok ?_ (mapError_eq_ok.1 hpayment)).paysOne hprices⟩
  rw [List.length_zip, List.length_map, hlen]
  rw [hlen] at hcount
  omega

theorem HonestQuotes.quotesValid {node : PeerId} {now : SystemTime}
    (h : HonestQuotes C nodes since till address quotes) (hnode : node ∈ quotes.map Prod.fst)
    (hnow : Window since till now) :
    QuotesValid C.toEvm (nodes node).rewardsAddress address now (proofOf quotes) := by
  have hall : ∀ {p : EncodedPeerId × PaymentQuote → Prop}, (∀ q ∈ quotes, p (q.1.toList, q.2.1)) →
      ∀ q ∈ (proofOf quotes).peerQuotes, p q := fun hp => List.forall_mem_map.2 hp
  refine ⟨?_, ?_, hall fun q hq => (h.quote q hq).content, hall fun q hq => ?_,
    hall fun q hq => ⟨q.1, (h.quote q hq).name, rfl⟩, ?_⟩
  · rw [proofOf, List.length_map, h.count]
  · have hnames : (proofOf quotes).peerQuotes.map Prod.fst =
        (quotes.map Prod.fst).map List.Vector.toList := by
      rw [proofOf, List.map_map, List.map_map]
      rfl
    rw [hnames]
    exact h.distinct.map List.Vector.toList_injective
  · exact hnow.fresh (h.quote q hq).since (h.quote q hq).till
  · obtain ⟨q, hq, rfl⟩ := List.mem_map.1 hnode
    exact ⟨(q.1.toList, q.2.1), List.mem_map.2 ⟨q, hq, rfl⟩, (h.quote q hq).recipient⟩

/-- The proof of a payment of honest quotes, for each of the nodes that have quoted. -/
theorem HonestQuotes.paidProof {node : PeerId} {payment : SingleNodePayment}
    {payments : List AntNode.QuotePayment} {txHashes : List TxHash} {proof : Bytes} (hC : C.Lawful)
    (h : HonestQuotes C nodes since till address quotes) (hnode : node ∈ quotes.map Prod.fst)
    (hpays : PaysOne C quotes payment)
    (hpayments : ∀ info ∈ payment.quotes, info.payment ∈ payments)
    (hsize : minPaymentProofSizeBytes ≤ proof.length ∧ proof.length ≤ maxPaymentProofSizeBytes)
    (hproof : serializeProof C ⟨proofOf quotes, txHashes⟩ = .ok proof) :
    PaidProof C.toEvm (nodes node).rewardsAddress address since till payments proof
      (proofOf quotes) := by
  refine ⟨hsize, ⟨txHashes, ?_⟩, fun now => h.quotesValid hnode, ?_, ?_⟩
  · obtain ⟨body, hbody, hbytes⟩ := bind_eq_ok.1 (mapError_eq_ok.1 hproof)
    obtain rfl := Except.ok.inj hbytes
    simp [deserializeProof, hC.readPaymentProof _ _ hbody]
  · exact List.forall_mem_map.2 fun q hq => (h.quote q hq).signed
  · obtain ⟨info, hinfo, hamount, q, hq, hhash⟩ := hpays
    refine ⟨info.payment, hpayments info hinfo, hamount, ?_⟩
    rw [hC.digest, List.map_map]
    exact List.mem_map.2 ⟨(q.1.toList, q.2.1), List.mem_map.2 ⟨q, hq, rfl⟩, hhash⟩

/-! ## The chunk at the nodes -/

/-- The node stores the chunk that is sent with the proof of these payments. -/
def StoresPaid (P : Primitives) (C : ClientEvm) (generator : QuoteGenerator)
    (since till : SystemTime) (payments : List AntNode.QuotePayment) (payment : ProofOfPayment)
    (content proof : Bytes) : Prop :=
  NodeState.StoresPut (Verifier.QuotesUndisturbed C.toEvm since till payments proof payment)
    (computeAddress P content) content proof P C.toEvm generator.rewardsAddress

variable {P : Primitives} {content proof : Bytes} {quoted : List PeerId}

theorem PaidProof.storesPaid {generator : QuoteGenerator} {payments : List AntNode.QuotePayment}
    {payment : ProofOfPayment}
    (h : PaidProof C.toEvm generator.rewardsAddress (computeAddress P content) since till payments
      proof payment) (hsize : content.length ≤ AntNode.maxChunkSize) :
    StoresPaid P C generator since till payments payment content proof :=
  NodeState.storesPut_of_admits (Verifier.admits_paidProof h) hsize rfl

/-- **What is paid for is stored**: the proof that `pay_for_storage` returns is accepted by every
    node of an honest close group, at any time while the quotes are fresh.  (No peer is in the group
    twice, the contract asks a price for every quote, and the nodes find neither the chunk too large
    nor the proof too small or too large.) -/
theorem payForStorage_stored {peerQuotes : List (EncodedPeerId × PaymentQuote)}
    {payment : SingleNodePayment} (hC : C.Lawful)
    (hgroup : HonestGroup C nodes since till client net (quoteRequestOf P content))
    (hchain : AsksPrice chain) (hcontent : content.length ≤ AntNode.maxChunkSize)
    (hpaid : payForStorage C client net chain order (quoteRequestOf P content) = .ok (proof, quoted))
    (hquotes : getStoreQuotes C client net order (quoteRequestOf P content) = .ok quotes)
    (hpriced : priceQuotes C client chain quotes = .ok (peerQuotes, payment))
    (hsize : minPaymentProofSizeBytes ≤ proof.length ∧ proof.length ≤ maxPaymentProofSizeBytes) :
    quoted.length = closeGroupSize ∧ ∀ node ∈ quoted,
      StoresPaid P C (nodes node) since till (payment.quotes.map AntNode.QuotePaymentInfo.payment)
        ⟨peerQuotes⟩ content proof := by
  have hhonest := honestQuotes_of_getStoreQuotes hC hgroup hquotes
  obtain ⟨rfl, hpays⟩ := priceQuotes_eq_ok hhonest.count hchain hpriced
  have hpaid := payQuotes_of_payForStorage hpaid hquotes
  rw [payQuotes, hpriced] at hpaid
  obtain ⟨_, ⟨⟩, hpaid⟩ := bind_eq_ok.1 hpaid
  obtain ⟨txHashes, -, hpaid⟩ := bind_eq_ok.1 hpaid
  obtain ⟨proof', hproof, hpaid⟩ := bind_eq_ok.1 hpaid
  cases hpaid
  refine ⟨by rw [List.length_map, hhonest.count], fun node hnode => ?_⟩
  exact PaidProof.storesPaid (hhonest.paidProof hC hnode hpays
    (fun info hinfo => List.mem_map_of_mem hinfo) hsize hproof) hcontent

/-- The chunk was prepared with the quotes of an honest close group. -/
def PreparedHonestly (P : Primitives) (C : ClientEvm) (nodes : PeerId → QuoteGenerator)
    (since till : SystemTime) (client : Client) (chunk : PreparedChunk) : Prop :=
  ∃ net chain order content, HonestGroup C nodes since till client net (quoteRequestOf P content) ∧
    AsksPrice chain ∧ content.length ≤ AntNode.maxChunkSize ∧
    prepareChunkPayment P C client net chain order content = .ok (some chunk)

theorem PreparedHonestly.honestQuotes {chunk : PreparedChunk} (hC : C.Lawful)
    (h : PreparedHonestly P C nodes since till client chunk) :
    chunk.content.length ≤ AntNode.maxChunkSize ∧ ∃ quotes : List Quoted,
      HonestQuotes C nodes since till (computeAddress P chunk.content) quotes ∧
      chunk.peerQuotes = (proofOf quotes).peerQuotes ∧ PaysOne C quotes chunk.payment ∧
      chunk.quotedPeers = quotes.map Prod.fst := by
  obtain ⟨net, chain, order, content, hgroup, hchain, hcontent, h⟩ := h
  unfold prepareChunkPayment at h
  split at h
  · rename_i quotes hquotes
    have hhonest := honestQuotes_of_getStoreQuotes hC hgroup hquotes
    obtain ⟨⟨peerQuotes, payment⟩, hpriced, h⟩ := bind_eq_ok.1 h
    cases h
    obtain ⟨rfl, hpays⟩ := priceQuotes_eq_ok hhonest.count hchain hpriced
    exact ⟨hcontent, quotes, hhonest, rfl, hpays, rfl⟩
  · cases h
  · cases h

theorem buildPaidChunk_eq_ok {txHashMap : Lookup QuoteHash AntNode.TxHash} {chunk : PreparedChunk}
    {paid : PaidChunk} (h : buildPaidChunk C txHashMap chunk = .ok paid) :
    ∃ txHashes proof, serializeProof C ⟨⟨chunk.peerQuotes⟩, txHashes⟩ = .ok proof ∧
      paid = ⟨chunk.content, chunk.address, chunk.quotedPeers, proof⟩ := by
  obtain ⟨txHashes, -, h⟩ := bind_eq_ok.1 h
  obtain ⟨proof, hproof, h⟩ := bind_eq_ok.1 h
  exact ⟨txHashes, proof, hproof, (Except.ok.inj h).symm⟩

/-- **A wave that is paid for is stored**: one transaction pays for many chunks, and each of them is
    accepted by every node of its own close group.  (As above of each group, its prices, each chunk
    and each proof.) -/
theorem batchPay_stored {prepared : List PreparedChunk} {paidChunks : List PaidChunk} (hC : C.Lawful)
    (hprepared : ∀ chunk ∈ prepared, PreparedHonestly P C nodes since till client chunk)
    (hpaid : batchPay C client chain prepared = .ok paidChunks)
    (hsize : ∀ paid ∈ paidChunks, minPaymentProofSizeBytes ≤ paid.proofBytes.length ∧
      paid.proofBytes.length ≤ maxPaymentProofSizeBytes) :
    List.Forall₂ (fun chunk paid => paid.content = chunk.content ∧
      paid.quotedPeers.length = closeGroupSize ∧ ∀ node ∈ paid.quotedPeers,
        StoresPaid P C (nodes node) since till (batchPayments prepared) ⟨chunk.peerQuotes⟩
          paid.content paid.proofBytes) prepared paidChunks := by
  unfold batchPay at hpaid
  split_ifs at hpaid with hempty
  · cases hpaid
    rw [List.isEmpty_iff.1 hempty]
    exact .nil
  obtain ⟨_, -, hpaid⟩ := bind_eq_ok.1 hpaid
  obtain ⟨txHashMap, -, hpaid⟩ := bind_eq_ok.1 hpaid
  obtain ⟨hlength, hbuilt⟩ := List.forall₂_iff_get.1 (mapM_eq_ok.1 hpaid)
  refine List.forall₂_iff_get.2 ⟨hlength, fun i hi hi' => ?_⟩
  have hchunk : prepared.get ⟨i, hi⟩ ∈ prepared := List.get_mem _ _
  have hsize := hsize _ (List.get_mem paidChunks ⟨i, hi'⟩)
  obtain ⟨txHashes, proof, hproof, hmade⟩ := buildPaidChunk_eq_ok (hbuilt i hi hi')
  obtain ⟨hcontent, quotes, hhonest, hquotes, hpays, hpeers⟩ :=
    (hprepared _ hchunk).honestQuotes hC
  rw [hmade] at hsize ⊢
  rw [hquotes] at hproof ⊢
  dsimp only at hsize ⊢
  rw [hpeers]
  refine ⟨rfl, by rw [List.length_map, hhonest.count], fun node hnode => ?_⟩
  refine PaidProof.storesPaid (hhonest.paidProof hC hnode hpays (fun info hinfo => ?_) hsize
    hproof) hcontent
  exact List.mem_flatMap.2 ⟨_, hchunk, List.mem_map_of_mem hinfo⟩

/-! ## Five honest nodes -/

section Example

/-- The name of the `n`-th node, the hash of its key. -/
def exampleName (n : ℕ) : PeerId := clear.blake3 [UInt8.ofNat n]

def exampleNames : List PeerId := (List.range 5).map exampleName

def exampleGenerator (n : ℕ) : QuoteGenerator :=
  ⟨exampleAddress n, some fun message => UInt8.ofNat n :: message, [UInt8.ofNat n]⟩

def exampleNodes (peer : PeerId) : QuoteGenerator :=
  exampleGenerator (((List.range 5).find? fun n => exampleName n = peer).getD 0)

def honestMetrics : QuotingMetrics := exampleTracker.getMetrics 0 1 0

/-- The first of two chunks is that of `exampleContent`. -/
def honestContent (k : ℕ) : Bytes := [UInt8.ofNat (5 + k)]

/-- The quote of the `n`-th node for the `k`-th chunk. -/
def honestQuote (k n : ℕ) : PaymentQuote :=
  ⟨computeAddress clear (honestContent k), seconds n, honestMetrics, [UInt8.ofNat n],
    exampleAddress n, UInt8.ofNat n :: exampleBytesForSigning (computeAddress clear (honestContent k))
      (seconds n) honestMetrics (exampleAddress n)⟩

def honestPayment (k : ℕ) : ProofOfPayment :=
  ⟨(List.range 5).map fun n => ((exampleName n).toList, honestQuote k n)⟩

def honestBody (k : ℕ) : Bytes := List.replicate 31 (UInt8.ofNat (7 + k))

def honestProof (k : ℕ) : Bytes := proofTagSingleNode :: honestBody k

/-- Writes the quotes of the five nodes for the two chunks, and the two proofs made of them. -/
def honestEvm : ClientEvm :=
  { exampleEvm (honestPayment 0) with
    mlDsaVerify := fun pubKey message signature => signature = pubKey ++ message
    peerIdFromPublicKeyBytes := fun pubKey => .ok (clear.blake3 pubKey)
    readPaymentProof := fun body =>
      okOr "invalid type" (((List.range 2).find? fun k => honestBody k = body).map fun k =>
        ⟨honestPayment k, [padTo 32 [1]]⟩)
    readQuote := fun bytes => .ok (honestQuote ((bytes.headD 0).toNat / 5) ((bytes.headD 0).toNat % 5))
    writeQuote := fun quote =>
      okOr "not modelled" (((List.range 10).find? fun i => honestQuote (i / 5) (i % 5) = quote).map
        fun i => [UInt8.ofNat i])
    writePaymentProof := fun proof =>
      okOr "not modelled" (((List.range 2).find? fun k => ⟨honestPayment k, [padTo 32 [1]]⟩ = proof).map
        honestBody)
    calculatePrice := fun _ => 3
    displayPeerId := hexEncode
    displayQuoteHash := hexEncode }

/-- The nodes quote for the `k`-th chunk. -/
def honestNet (k : ℕ) : Network where
  p2p :=
    { findClosestNodes := fun _ _ => .ok exampleNames
      random := 9
      sendMessage := fun _ _ _ => .ok ()
      events := fun n => [.event (.message chunkProtocolId (some (exampleName n))
        (ChunkMessage.encode ⟨9, .quoteResponse (.success [UInt8.ofNat (5 * k + n)] false)⟩))] }
  peerId := examplePeer 9
  requestIds _ := 9

/-- The vault adds up what was paid for a quote. -/
def exampleVault (payments : List AntNode.QuotePayment) (query : List PaymentVerification) :
    List PaymentVerificationResult :=
  query.map fun v =>
    let amount := ((payments.filter fun p => p.1 = v.quoteHash).map fun p => p.2.2).sum
    ⟨v.quoteHash, amount, 0 < amount⟩

theorem recorded_exampleVault (payments : List AntNode.QuotePayment)
    (query : List PaymentVerification) : Recorded payments query (exampleVault payments query) := by
  refine ⟨by rw [exampleVault, List.map_map]; rfl, ?_, ?_⟩
  · intro r hr p hp hhash hpos
    obtain ⟨v, -, rfl⟩ := List.mem_map.1 hr
    have hmem : p.2.2 ∈ (payments.filter fun p => p.1 = v.quoteHash).map fun p => p.2.2 :=
      List.mem_map.2 ⟨p, List.mem_filter.2 ⟨hp, decide_eq_true hhash⟩, rfl⟩
    have hsum := hpos.trans_le (List.single_le_sum (fun _ _ => Nat.zero_le _) _ hmem)
    exact ⟨hsum, decide_eq_true hsum⟩
  · intro r hr hzero
    obtain ⟨v, -, rfl⟩ := List.mem_map.1 hr
    refine List.sum_eq_zero fun amount hamount => ?_
    obtain ⟨p, hp, rfl⟩ := List.mem_map.1 hamount
    obtain ⟨hp, hhash⟩ := List.mem_filter.1 hp
    exact hzero p hp (of_decide_eq_true hhash)

theorem lawful_honestEvm : honestEvm.Lawful := by
  refine ⟨fun quote bytes h => ?_, fun proof body h => ?_, fun _ => rfl⟩
  · obtain ⟨i, hi, rfl⟩ := Option.map_eq_some_iff.1 (okOr_eq_ok.1 h)
    obtain rfl : honestQuote (i / 5) (i % 5) = quote := by simpa using List.find?_some hi
    have hlt : i < 10 := List.mem_range.1 (List.mem_of_find?_eq_some hi)
    have hbyte : (UInt8.ofNat i).toNat = i := by
      rw [UInt8.toNat_ofNat']
      omega
    change Except.ok (honestQuote ((UInt8.ofNat i).toNat / 5) ((UInt8.ofNat i).toNat % 5)) = _
    rw [hbyte]
  · obtain ⟨k, hk, rfl⟩ := Option.map_eq_some_iff.1 (okOr_eq_ok.1 h)
    obtain rfl : ⟨honestPayment k, [padTo 32 [1]]⟩ = proof := by simpa using List.find?_some hk
    have hlt : k < 2 := List.mem_range.1 (List.mem_of_find?_eq_some hk)
    have hfind : ∀ k < 2, (List.range 2).find? (fun j => honestBody j = honestBody k) = some k := by
      decide
    change okOr "invalid type" (((List.range 2).find? fun j => honestBody j = honestBody k).map _) = _
    rw [hfind k hlt]
    rfl

/-- What the honest nodes and a client of theirs come to. -/
theorem honest_runs :
    (exampleNames.Nodup ∧
      ∀ n < 5, (List.range 5).find? (fun k => exampleName k = exampleName n) = some n) ∧
    ∀ k < 2,
      (honestNet k).closeGroupPeers exampleClient (computeAddress clear (honestContent k)) =
        .ok exampleNames ∧
      (∀ n < 5, responses (exampleName n) 9 ((honestNet k).p2p.events n) =
        [.quoteResponse (.success [UInt8.ofNat (5 * k + n)] false)]) ∧
      (∀ n < 5, handleQuote honestEvm.toEvm (.ok false) honestEvm.writeQuote (exampleGenerator n)
        exampleTracker (seconds n) 0 (quoteRequestOf clear (honestContent k)) =
          .success [UInt8.ofNat (5 * k + n)] false) ∧
      payForStorage honestEvm exampleClient (honestNet k) exampleChain .asStarted
          (quoteRequestOf clear (honestContent k)) = .ok (honestProof k, exampleNames) := by
  decide +kernel

theorem exampleNodes_exampleName {n : ℕ} (hn : n < 5) :
    exampleNodes (exampleName n) = exampleGenerator n := by
  have hfind := honest_runs.1.2
  rw [exampleNodes, hfind n hn]
  rfl

theorem signsAs_example {n : ℕ} (hn : n < 5) :
    SignsAs honestEvm (exampleNodes (exampleName n)) (exampleName n) := by
  rw [exampleNodes_exampleName hn]
  refine ⟨rfl, fun signFn hsign message => ?_⟩
  obtain rfl := Option.some.inj hsign
  exact decide_eq_true rfl

theorem nodup_exampleNames : exampleNames.Nodup := honest_runs.1.1

theorem closeGroupPeers_honestNet {k : ℕ} (hk : k < 2) :
    (honestNet k).closeGroupPeers exampleClient (computeAddress clear (honestContent k)) =
      .ok exampleNames := (honest_runs.2 k hk).1

theorem responses_honestNet {k : ℕ} (hk : k < 2) : ∀ n < 5,
    responses (exampleName n) 9 ((honestNet k).p2p.events n) =
      [.quoteResponse (.success [UInt8.ofNat (5 * k + n)] false)] := (honest_runs.2 k hk).2.1

theorem handleQuote_honest {k : ℕ} (hk : k < 2) : ∀ n < 5, handleQuote honestEvm.toEvm (.ok false)
    honestEvm.writeQuote (exampleGenerator n) exampleTracker (seconds n) 0
      (quoteRequestOf clear (honestContent k)) = .success [UInt8.ofNat (5 * k + n)] false :=
  (honest_runs.2 k hk).2.2.1

theorem payForStorage_honestNet {k : ℕ} (hk : k < 2) : payForStorage honestEvm exampleClient
    (honestNet k) exampleChain .asStarted (quoteRequestOf clear (honestContent k)) =
      .ok (honestProof k, exampleNames) := (honest_runs.2 k hk).2.2.2

theorem mem_zipIdx_exampleNames {peer : PeerId × ℕ} (h : peer ∈ exampleNames.zipIdx) :
    ∃ n < 5, peer = (exampleName n, n) := by
  obtain ⟨i, hi, rfl⟩ := List.mem_iff_getElem.1 h
  have hi : i < 5 := by simpa [exampleNames] using hi
  exact ⟨i, hi, by simp [exampleNames]⟩

theorem honestGroup_example {k : ℕ} (hk : k < 2) : HonestGroup honestEvm exampleNodes 0 (seconds 4)
    exampleClient (honestNet k) (quoteRequestOf clear (honestContent k)) := by
  refine ⟨?_, fun peers hpeers peer hpeer => ?_⟩
  · rintro peers ⟨⟩
    exact nodup_exampleNames
  · obtain rfl := Except.ok.inj ((closeGroupPeers_honestNet hk).symm.trans hpeers)
    obtain ⟨n, hn, rfl⟩ := mem_zipIdx_exampleNames hpeer
    refine ⟨signsAs_example hn, fun response hresponse => ?_⟩
    have hmem : ChunkMessageBody.quoteResponse response ∈
        responses (exampleName n) 9 ((honestNet k).p2p.events n) := hresponse
    rw [responses_honestNet hk n hn, List.mem_singleton] at hmem
    obtain rfl := ChunkMessageBody.quoteResponse.inj hmem
    refine ⟨.ok false, exampleTracker, seconds n, 0, Nat.zero_le _,
      Nat.mul_le_mul_right _ (Nat.le_of_lt_succ hn), ?_⟩
    rw [exampleNodes_exampleName hn, handleQuote_honest hk n hn]

theorem asksPrice_exampleChain : AsksPrice exampleChain := by
  rintro metrics prices ⟨⟩ price hprice
  obtain ⟨-, -, rfl⟩ := List.mem_map.1 hprice
  exact Nat.one_pos

def honestPut (k : ℕ) : ChunkPutRequest :=
  ⟨computeAddress clear (honestContent k), honestContent k, some (honestProof k)⟩

/-- The PUT of the `k`-th chunk as the `i`-th of a node, from its request to its answer, for this
    answer of the vault. -/
def paidActions (i k : ℕ) (results : List PaymentVerificationResult) : List NodeAction :=
  [.put (honestPut k), .check i .none, .verify (.check i (seconds 100)),
    .verify (.signatures i none), .verify (.vault i (.ok results)), .verify (.insert i),
    .verified i .none, .write i .none, .recordStored i, .recordType i, .recordPayment i]

/-- A store without a limit. -/
def roomyStorage : LmdbStorage := ⟨∅, ⟨true, 0⟩, ⟨0, 0, 0, 0, 0, 0⟩⟩

theorem trace_paidActions {payments : List AntNode.QuotePayment} {payment : ProofOfPayment}
    {results : List PaymentVerificationResult} {s : NodeState} {k : ℕ}
    (hresults : Recorded payments (honestEvm.digest payment) results)
    (h : Runs (NodeState.step clear honestEvm.toEvm (exampleAddress 0))
      (.open roomyStorage exampleTracker) (paidActions 0 k results) s) :
    Trace (NodeState.step clear honestEvm.toEvm (exampleAddress 0))
      (NodeState.Undisturbed (Verifier.QuotesUndisturbed honestEvm.toEvm 0 (seconds 4) payments
        (honestProof k) payment) (computeAddress clear (honestContent k)) (honestContent k)
        (honestProof k)) (.open roomyStorage exampleTracker) (paidActions 0 k results) s := by
  refine NodeState.trace_undisturbed rfl (by simp [paidActions, NodeState.FaultFree]) ?_ h
  intro a ha v
  simp only [paidActions, List.mem_cons, reduceCtorEq, NodeAction.verify.injEq, false_or,
    List.not_mem_nil, or_false] at ha
  rcases ha with rfl | rfl | rfl | rfl
  · exact fun _ _ _ => by decide
  · exact fun _ _ _ => rfl
  · exact fun _ _ _ => ⟨results, rfl, hresults⟩
  · trivial

def honestQuotes (k : ℕ) : List Quoted := (List.range 5).map fun n => (exampleName n, honestQuote k n, 3)

/-- The chunk is paid for, and the first of the nodes stores it. -/
theorem payForStorage_stored_first : ∃ payment s,
    payForStorage honestEvm exampleClient (honestNet 0) exampleChain .asStarted
        (quoteRequestOf clear (honestContent 0)) = .ok (honestProof 0, exampleNames) ∧
    priceQuotes honestEvm exampleClient exampleChain (honestQuotes 0) =
      .ok ((honestPayment 0).peerQuotes, payment) ∧
    Runs (NodeState.step clear honestEvm.toEvm (exampleAddress 0)) (.open roomyStorage exampleTracker)
      (paidActions 0 0 (exampleVault (payment.quotes.map AntNode.QuotePaymentInfo.payment)
        (honestEvm.digest (honestPayment 0)))) s ∧
    ∃ p ∈ s.puts, ∃ response, p.state = .done response ∧
      (response = .success exampleContent ∨ response = .alreadyExists exampleContent) := by
  have hpaid := payForStorage_honestNet (show 0 < 2 by decide)
  have hquotes : getStoreQuotes honestEvm exampleClient (honestNet 0) .asStarted
      (quoteRequestOf clear (honestContent 0)) = .ok (honestQuotes 0) := by decide +kernel
  obtain ⟨payment, hpriced, s, hs, hputs⟩ : ∃ payment ∈ ((priceQuotes honestEvm exampleClient
      exampleChain (honestQuotes 0)).toOption.map Prod.snd), ∃ s ∈ (paidActions 0 0 (exampleVault
        (payment.quotes.map AntNode.QuotePaymentInfo.payment)
          (honestEvm.digest (honestPayment 0)))).foldlM
          (NodeState.step clear honestEvm.toEvm (exampleAddress 0)) (.open roomyStorage exampleTracker),
      s.puts = [⟨honestPut 0, .done (.success exampleContent)⟩] := by decide +kernel
  obtain ⟨⟨peerQuotes, payment⟩, hfound, rfl⟩ := Option.map_eq_some_iff.1 hpriced
  have hpriced := eq_ok_of_toOption hfound
  obtain rfl : peerQuotes = (honestPayment 0).peerQuotes :=
    (priceQuotes_eq_ok rfl asksPrice_exampleChain hpriced).1
  have hnode : exampleName 0 ∈ exampleNames := List.mem_map_of_mem (by decide)
  have hstores := (payForStorage_stored lawful_honestEvm (honestGroup_example (by decide))
    asksPrice_exampleChain (by decide) hpaid hquotes hpriced (by decide)).2 _ hnode
  rw [exampleNodes_exampleName (by decide)] at hstores
  have hmem : (⟨honestPut 0, .done (.success exampleContent)⟩ : PutCall) ∈ s.puts := by
    rw [hputs]
    exact List.mem_singleton_self _
  exact ⟨payment, s, hpaid, hpriced, runs_iff.2 hs, _, hmem, _, rfl, hstores _ _ _ _
    (trace_paidActions (recorded_exampleVault _ _) (runs_iff.2 hs)) _ hmem rfl _ rfl⟩

/-- A wave of two chunks, with a proof for each. -/
theorem batchPay_stored_two : ∃ chunk chunk' paidChunks,
    prepareChunkPayment clear honestEvm exampleClient (honestNet 0) exampleChain .asStarted
        (honestContent 0) = .ok (some chunk) ∧
    prepareChunkPayment clear honestEvm exampleClient (honestNet 1) exampleChain .asStarted
        (honestContent 1) = .ok (some chunk') ∧
    batchPay honestEvm exampleClient exampleChain [chunk, chunk'] = .ok paidChunks ∧
    paidChunks.map PaidChunk.proofBytes = [honestProof 0, honestProof 1] ∧
    List.Forall₂ (fun c paid => paid.content = c.content ∧
      paid.quotedPeers.length = closeGroupSize ∧ ∀ node ∈ paid.quotedPeers,
        StoresPaid clear honestEvm (exampleNodes node) 0 (seconds 4) (batchPayments [chunk, chunk'])
          ⟨c.peerQuotes⟩ paid.content paid.proofBytes) [chunk, chunk'] paidChunks := by
  obtain ⟨chunk, hprepared, chunk', hprepared', paidChunks, hpaid, hproofs⟩ :
      ∃ chunk ∈ (prepareChunkPayment clear honestEvm exampleClient (honestNet 0) exampleChain .asStarted
        (honestContent 0)).toOption.join,
      ∃ chunk' ∈ (prepareChunkPayment clear honestEvm exampleClient (honestNet 1) exampleChain
        .asStarted (honestContent 1)).toOption.join,
      ∃ paidChunks ∈ (batchPay honestEvm exampleClient exampleChain [chunk, chunk']).toOption,
        paidChunks.map PaidChunk.proofBytes = [honestProof 0, honestProof 1] := by decide +kernel
  have hprepared := eq_ok_of_toOption (Option.join_eq_some_iff.1 hprepared)
  have hprepared' := eq_ok_of_toOption (Option.join_eq_some_iff.1 hprepared')
  have hpaid := eq_ok_of_toOption hpaid
  have hhonest : ∀ c ∈ [chunk, chunk'],
      PreparedHonestly clear honestEvm exampleNodes 0 (seconds 4) exampleClient c := by
    intro c hc
    rcases List.mem_pair.1 hc with rfl | rfl
    · exact ⟨honestNet 0, exampleChain, .asStarted, honestContent 0, honestGroup_example (by decide),
        asksPrice_exampleChain, by decide, hprepared⟩
    · exact ⟨honestNet 1, exampleChain, .asStarted, honestContent 1, honestGroup_example (by decide),
        asksPrice_exampleChain, by decide, hprepared'⟩
  refine ⟨chunk, chunk', paidChunks, hprepared, hprepared', hpaid, hproofs,
    batchPay_stored lawful_honestEvm hhonest hpaid fun paid hmem => ?_⟩
  have hproof : paid.proofBytes ∈ [honestProof 0, honestProof 1] :=
    hproofs ▸ List.mem_map_of_mem hmem
  rcases List.mem_pair.1 hproof with h | h
  · rw [h]
    decide
  · rw [h]
    decide

end Example

end Autonomi.AntClient
