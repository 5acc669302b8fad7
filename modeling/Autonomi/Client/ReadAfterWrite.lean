/-
  A chunk that one client has put and another gets, in a network of nodes that
  answer as their handlers do (`ant-core/src/data/client/chunk.rs`, `quote.rs`).
-/
import Autonomi.Client.Accepted
import Autonomi.Client.Get
import Autonomi.Lib.Product
import Autonomi.Node.Durable

namespace Autonomi.AntClient

open Lib AntNode

/-- The nodes of the network, by their names. -/
abbrev Swarm := PeerId → NodeState

variable (P : Primitives) (C : ClientEvm) (rewards : PeerId → AntNode.RewardsAddress)

/-- One of the nodes takes a step. -/
def Swarm.step : Swarm → PeerId × NodeAction → Option Swarm :=
  stepAt fun peer => NodeState.step P C.toEvm (rewards peer)

/-- A run of the network, in which nothing is deleted. -/
abbrev Swarm.Runs (s : Swarm) (as : List (PeerId × NodeAction)) (s' : Swarm) : Prop :=
  Trace (Swarm.step P C rewards) (fun _ a => NodeState.Kept a.2) s as s'

/-- The network from its start: what the stores hold stands at its address. -/
def Swarm.Started (s : Swarm) : Prop :=
  ∃ (storage : PeerId → LmdbStorage) (metrics : PeerId → QuotingMetricsTracker) (as : _),
    (∀ peer, ∀ e ∈ (storage peer).db.entries, computeAddress P e.2 = e.1) ∧
      Swarm.Runs P C rewards (fun peer => .open (storage peer) (metrics peer)) as s

/-! ## What a client hears -/

/-- What comes from the peer for the quote, its handler has made on the way to `s`. -/
def HearsQuote (s : Swarm) (net : Network) (request : ChunkQuoteRequest) (peer : PeerId × ℕ) : Prop :=
  ∀ response,
    .quoteResponse response ∈ responses peer.1 (net.requestIds peer.2) (net.p2p.events peer.2) →
    ∃ before as t, Swarm.Runs P C rewards before as s ∧ t.storage = (before peer.1).storage ∧
      response = (Moment.protocol P C.toEvm t).handleQuote request

/-- What comes from the peer for the PUT, it has answered on the way to `s`. -/
def HearsPut (s : Swarm) (net : Network) (content proof : Bytes) (peer : PeerId × ℕ) : Prop :=
  ∀ response,
    .putResponse response ∈ responses peer.1 (net.requestIds peer.2) (net.p2p.events peer.2) →
    ∃ p ∈ (s peer.1).puts, p.request = ⟨computeAddress P content, content, some proof⟩ ∧
      p.state = .done response

/-- A call of `chunk_put` hears what the nodes have answered. -/
structure HearsAnswers (s : Swarm) (client : Client) (a : Attempt) (content : Bytes) : Prop where
  distinct : ∀ peers, a.quoteNet.p2p.findClosestNodes (computeAddress P content)
    (client.closeGroupSize + 1) = .ok peers → peers.Nodup
  quotes : ∀ group, a.quoteNet.closeGroupPeers client (computeAddress P content) = .ok group →
    ∀ peer ∈ (group.take closeGroupSize).zipIdx,
      HearsQuote P C rewards s a.quoteNet (quoteRequestOf P content) peer
  puts : ∀ proof quoted, payForStorage C client a.quoteNet a.chain a.quoteOrder
    (quoteRequestOf P content) = .ok (proof, quoted) →
    ∀ peer ∈ quoted.zipIdx, HearsPut P s a.putNet content proof peer

/-- The chunk is on a majority of the first five peers of the group, and stays there. -/
def OnMajority (s : Swarm) (group : List PeerId) (address : XorName) : Prop :=
  ∃ holders ⊆ group.take closeGroupSize, holders.Nodup ∧ closeGroupMajority ≤ holders.length ∧
    ∀ as s', Swarm.Runs P C rewards s as s' → ∀ peer ∈ holders, ∃ content,
      (s' peer).storage.db.lookup address = some content ∧ computeAddress P content = address

variable {P C rewards} {s s' : Swarm} {as : List (PeerId × NodeAction)} {peer : PeerId}
  {net : Network} {client : Client} {content proof : Bytes} {address : XorName}

/-! ## The nodes -/

theorem Swarm.node (h : Swarm.Runs P C rewards s as s') (peer : PeerId) : ∃ as,
    Trace (NodeState.step P C.toEvm (rewards peer)) (fun _ a => NodeState.Kept a) (s peer) as
      (s' peer) :=
  Trace.component h peer

theorem Swarm.Started.node (h : Swarm.Started P C rewards s) (peer : PeerId) :
    NodeState.Started P C.toEvm (rewards peer) (s peer) := by
  obtain ⟨storage, metrics, as, hstart, h⟩ := h
  obtain ⟨as, h⟩ := Swarm.node h peer
  exact ⟨storage peer, metrics peer, as, hstart peer, h⟩

theorem Swarm.Started.runs (h : Swarm.Started P C rewards s) (hrun : Swarm.Runs P C rewards s as s') :
    Swarm.Started P C rewards s' := by
  obtain ⟨storage, metrics, before, hstart, h⟩ := h
  exact ⟨storage, metrics, before ++ as, hstart, h.append hrun⟩

/-- What a node holds it keeps. -/
theorem Swarm.mem (h : Swarm.Runs P C rewards s as s') (hmem : address ∈ (s peer).storage.db) :
    address ∈ (s' peer).storage.db := by
  obtain ⟨as, h⟩ := Swarm.node h peer
  exact (NodeState.grows_trace h).mem hmem

theorem onMajority_of_holders {group holders : List PeerId} (hstarted : Swarm.Started P C rewards s)
    (hgroup : holders ⊆ group.take closeGroupSize) (hnodup : holders.Nodup)
    (hmany : closeGroupMajority ≤ holders.length)
    (hholds : ∀ peer ∈ holders, address ∈ (s peer).storage.db) :
    OnMajority P C rewards s group address := by
  refine ⟨holders, hgroup, hnodup, hmany, fun as s' hrun peer hpeer => ?_⟩
  obtain ⟨c, hc⟩ := Option.isSome_iff_exists.1
    (AList.lookup_isSome.2 (Swarm.mem hrun (hholds peer hpeer)))
  exact ⟨c, hc, ((hstarted.runs hrun).node peer).lookup hc⟩

/-! ## The PUTs -/

theorem majority_of_putLoop {put : PeerId × ℕ → Except Error XorName}
    {order : ℕ → Unordered (PeerId × ℕ)} {turns : ℕ} {progress progress' : PutProgress} {a : XorName}
    (h : putLoop C address put order turns progress = (progress', some (.ok a))) :
    closeGroupMajority ≤
      progress.successCount + (progress.inFlight ++ progress.fallback).countP (accepts put) := by
  induction turns generalizing progress with
  | zero => cases h
  | succ turns ih =>
    have hperm := (order turns).perm progress.inFlight
    rw [putLoop] at h
    rcases hnext : order turns progress.inFlight with _ | ⟨peer, inFlight⟩
    · rw [hnext] at h
      cases h
    · rw [hnext] at h hperm
      have hcount := (hperm.countP_eq (accepts put)).symm
      rw [List.countP_cons] at hcount
      rw [List.countP_append, hcount]
      rcases hput : put peer with e | addr
      · have haccepts : accepts put peer = false := by simp [accepts, hput, Except.toOption]
        simp only [hput] at h
        have hrest := ih h
        simp only [List.append_assoc, List.take_append_drop, List.countP_append] at hrest
        simp only [haccepts]
        simpa using hrest
      · have haccepts : accepts put peer = true := by simp [accepts, hput, Except.toOption]
        simp only [hput] at h
        split_ifs at h with hmajority
        · simp only [haccepts, if_true]
          omega
        · have hrest := ih h
          simp only [List.countP_append] at hrest
          simp only [haccepts, if_true]
          omega

/-- Who has accepted a PUT holds the chunk. -/
theorem mem_of_accepts {peer : PeerId × ℕ} (hstarted : Swarm.Started P C rewards s)
    (hears : HearsPut P s net content proof peer)
    (h : accepts (chunkPutWithProof P client net content proof) peer = true) :
    computeAddress P content ∈ (s peer.1).storage.db := by
  obtain ⟨addr, haddr⟩ := Option.isSome_iff_exists.1 h
  have hok := eq_ok_of_toOption haddr
  rcases sendAndAwait_cases _ _ _ _ _ _ _ _ hok with ⟨e, he⟩ | he | ⟨body, hmem, hbody⟩
  · cases he
  · cases he
  · have hheld : ∀ p ∈ (s peer.1).puts, p.request = ⟨computeAddress P content, content, some proof⟩ →
        p.state = .done (.success addr) ∨ p.state = .done (.alreadyExists addr) →
        computeAddress P content ∈ (s peer.1).storage.db := by
      intro p hp hrequest hdone
      have hdb := (hstarted.node peer.1).mem_of_answered hp hdone
      rwa [hrequest] at hdb
    unfold putHandler at hbody
    split at hbody <;> cases hbody
    · obtain ⟨p, hp, hrequest, hdone⟩ := hears _ hmem
      exact hheld p hp hrequest (.inl hdone)
    · obtain ⟨p, hp, hrequest, hdone⟩ := hears _ hmem
      exact hheld p hp hrequest (.inr hdone)

/-- Enough of the peers that were asked hold the chunk. -/
theorem onMajority_of_chunkPutToCloseGroup {order : ℕ → Unordered (PeerId × ℕ)} {turns : ℕ}
    {peers group : List PeerId} {progress : PutProgress} {a : XorName}
    (hstarted : Swarm.Started P C rewards s)
    (hears : ∀ peer ∈ peers.zipIdx, HearsPut P s net content proof peer)
    (hnodup : peers.Nodup) (hgroup : peers ⊆ group.take closeGroupSize)
    (h : chunkPutToCloseGroup P C client net order turns content proof peers =
      (progress, some (.ok a))) :
    OnMajority P C rewards s group (computeAddress P content) := by
  set accepted := peers.zipIdx.filter (accepts (chunkPutWithProof P client net content proof))
  have hsublist : (accepted.map Prod.fst).Sublist peers := by
    rw [← List.zipIdx_map_fst 0 peers]
    exact (List.filter_sublist (l := peers.zipIdx)).map _
  refine onMajority_of_holders hstarted (fun peer hpeer => hgroup (hsublist.subset hpeer))
    (hnodup.sublist hsublist) ?_ fun peer hpeer => ?_
  · have hmany := majority_of_putLoop h
    rw [PutProgress.start, List.take_append_drop, Nat.zero_add, List.countP_eq_length_filter] at hmany
    rwa [List.length_map]
  · obtain ⟨peer, hmem, rfl⟩ := List.mem_map.1 hpeer
    obtain ⟨hpeer, haccepts⟩ := List.mem_filter.1 hmem
    exact mem_of_accepts hstarted (hears peer hpeer) haccepts

/-! ## The quotes -/

theorem majority_of_collectQuotes {results : List QuoteResult} :
    ∀ {quotes : List Quoted} {n : ℕ} {failures : List String},
      collectQuotes C quotes n failures results = .error .alreadyStored →
      closeGroupMajority ≤ n + (results.filter fun r => r.2 = .error .alreadyStored).length := by
  induction results with
  | nil =>
    intro quotes n failures h
    simp only [collectQuotes] at h
    split_ifs at h
    cases h
  | cons r results ih =>
    intro quotes n failures h
    obtain ⟨peer, e | ⟨quote, price⟩⟩ := r
    · cases e
      case alreadyStored =>
        rw [List.filter_cons_of_pos (by simp), List.length_cons]
        simp only [collectQuotes] at h
        split_ifs at h with hmajority
        · omega
        · have hrest := ih h
          omega
      all_goals
        rw [List.filter_cons_of_neg (by simp)]
        exact ih h
    · rw [List.filter_cons_of_neg (by simp)]
      exact ih h

/-- Who says that it has stored the chunk holds it. -/
theorem mem_of_alreadyStored {peer : PeerId × ℕ} {request : ChunkQuoteRequest}
    (hears : HearsQuote P C rewards s net request peer)
    (h : (requestQuote C net request peer).2 = .error .alreadyStored) :
    request.address ∈ (s peer.1).storage.db := by
  rcases sendAndAwait_cases _ _ _ _ _ _ _ _ h with ⟨e, he⟩ | he | ⟨body, hmem, hbody⟩
  · cases he
  · cases he
  · unfold quoteHandler at hbody
    split at hbody
    · rename_i quoteBytes alreadyStored
      split_ifs at hbody with hstored
      · obtain ⟨before, as, t, hrun, hstorage, hresponse⟩ := hears _ hmem
        refine Swarm.mem hrun ?_
        rw [← hstorage]
        have hhandled := hresponse.symm
        simp only [Moment.protocol, handleQuote] at hhandled
        split_ifs at hhandled
        split at hhandled
        · split at hhandled <;> cases hhandled
          split at hstored
          · rename_i hfound
            rw [hstored] at hfound
            exact AList.lookup_isSome.1 (LmdbStorage.existsAt_eq_ok.1 hfound).2.2
          · cases hstored
        · cases hhandled
      · split at hbody <;> cases hbody
    · cases hbody
    · cases hbody

theorem failsWith_ok {α : Type} (a : α) : FailsWith (· ≠ Error.alreadyStored) (Except.ok a) := by
  rintro e ⟨⟩

theorem failsWith_payQuotes (chain : Chain) (quotes : List Quoted) :
    FailsWith (· ≠ .alreadyStored) (payQuotes C client chain quotes) := by
  have hprice : FailsWith (· ≠ .alreadyStored) (priceQuotes C client chain quotes) := by
    refine FailsWith.bind ?_ fun _ =>
      FailsWith.bind (failsWith_mapError (fun _ => by rintro ⟨⟩) _) fun prices => ?_
    · rw [Client.requireEvmNetwork]
      split_ifs
      · exact failsWith_ok _
      · exact failsWith_error (by rintro ⟨⟩)
    · split_ifs
      · exact failsWith_error (by rintro ⟨⟩)
      · exact FailsWith.bind (failsWith_mapError (fun _ => by rintro ⟨⟩) _) fun _ => failsWith_ok _
  exact hprice.bind fun _ => FailsWith.bind (failsWith_mapError (fun _ => by rintro ⟨⟩) _)
    fun _ => FailsWith.bind (failsWith_mapError (fun _ => by rintro ⟨⟩) _) fun _ => failsWith_ok _

theorem failsWith_closeGroupPeers (target : XorName) :
    FailsWith (· ≠ .alreadyStored) (net.closeGroupPeers client target) := by
  refine FailsWith.bind ?_ fun peers => ?_
  · exact FailsWith.bind (failsWith_mapError (fun _ => by rintro ⟨⟩) _) fun _ => failsWith_ok _
  · split_ifs
    · exact failsWith_error (by rintro ⟨⟩)
    · exact failsWith_ok _

/-- Only the quotes can say so. -/
theorem alreadyStored_of_payForStorage {chain : Chain} {order : Unordered QuoteResult}
    {request : ChunkQuoteRequest}
    (h : payForStorage C client net chain order request = .error .alreadyStored) :
    getStoreQuotes C client net order request = .error .alreadyStored := by
  have hwallet : FailsWith (· ≠ .alreadyStored) client.requireWallet := by
    rw [Client.requireWallet]
    split_ifs
    · exact failsWith_ok _
    · exact failsWith_error (by rintro ⟨⟩)
  unfold payForStorage at h
  rcases hw : client.requireWallet with e | u
  · rw [hw] at h
    exact absurd (Except.error.inj h) (hwallet e hw)
  · rw [hw] at h
    rcases hquotes : getStoreQuotes C client net order request with e | quotes
    · rw [hquotes] at h
      exact congrArg _ (Except.error.inj h)
    · rw [hquotes] at h
      exact absurd rfl (failsWith_payQuotes chain quotes _ h)

/-- The quotes say that enough peers hold the chunk. -/
theorem onMajority_of_getStoreQuotes {order : Unordered QuoteResult} {request : ChunkQuoteRequest}
    (hstarted : Swarm.Started P C rewards s)
    (hdistinct : ∀ peers, net.p2p.findClosestNodes request.address (client.closeGroupSize + 1) =
      .ok peers → peers.Nodup)
    (hears : ∀ group, net.closeGroupPeers client request.address = .ok group →
      ∀ peer ∈ (group.take closeGroupSize).zipIdx, HearsQuote P C rewards s net request peer)
    (h : getStoreQuotes C client net order request = .error .alreadyStored) :
    ∃ group, net.closeGroupPeers client request.address = .ok group ∧
      OnMajority P C rewards s group request.address := by
  unfold getStoreQuotes at h
  rcases hgroup : net.closeGroupPeers client request.address with e | group
  · rw [hgroup] at h
    exact absurd (Except.error.inj h) (failsWith_closeGroupPeers _ e hgroup)
  rw [hgroup] at h
  change (if _ then _ else _) = _ at h
  split_ifs at h
  · cases h
  have hmany := majority_of_collectQuotes h
  set results := (group.take closeGroupSize).zipIdx.map (requestQuote C net request)
  set stored := (order results).filter fun r => r.2 = .error .alreadyStored
  have hnames : ((order results).map Prod.fst).Perm (group.take closeGroupSize) := by
    refine ((order.perm results).map Prod.fst).trans ?_
    rw [List.map_map]
    exact List.Perm.of_eq (List.zipIdx_map_fst _ _)
  have hsublist : (stored.map Prod.fst).Sublist ((order results).map Prod.fst) :=
    List.filter_sublist.map _
  refine ⟨group, rfl, onMajority_of_holders hstarted
    (fun peer hpeer => hnames.subset (hsublist.subset hpeer)) ?_ ?_ fun peer hpeer => ?_⟩
  · exact (hnames.nodup_iff.2 ((nodup_closeGroupPeers hdistinct hgroup).sublist
      (List.take_sublist _ _))).sublist hsublist
  · rw [List.length_map]
    omega
  · obtain ⟨r, hr, rfl⟩ := List.mem_map.1 hpeer
    obtain ⟨hmem, hresult⟩ := List.mem_filter.1 hr
    rw [Unordered.mem_order] at hmem
    obtain ⟨peer, hasked, rfl⟩ := List.mem_map.1 hmem
    exact mem_of_alreadyStored (hears group hgroup peer hasked) (of_decide_eq_true hresult)

/-! ## The write -/

/-- **What is acknowledged stays**: when `chunk_put` returns, the chunk is on a majority of the peers
    that it has asked, for good. -/
theorem chunkPut_durable {a : Attempt} {addr : XorName} (hstarted : Swarm.Started P C rewards s)
    (hears : HearsAnswers P C rewards s client a content)
    (hput : (chunkPut P C client a content).1 = some (.ok addr)) :
    addr = computeAddress P content ∧ ∃ group,
      a.quoteNet.closeGroupPeers client (computeAddress P content) = .ok group ∧
      OnMajority P C rewards s group (computeAddress P content) := by
  unfold chunkPut at hput
  rcases hpaid : payForStorage C client a.quoteNet a.chain a.quoteOrder (quoteRequestOf P content)
    with e | ⟨proof, peers⟩
  · rw [hpaid] at hput
    cases e
    case alreadyStored =>
      obtain rfl := Except.ok.inj (Option.some.inj hput)
      exact ⟨rfl, onMajority_of_getStoreQuotes hstarted hears.distinct hears.quotes
        (alreadyStored_of_payForStorage hpaid)⟩
    all_goals cases hput
  · rw [hpaid] at hput
    obtain ⟨progress, hstored⟩ : ∃ progress, chunkPutToCloseGroup P C client a.putNet a.putOrder
        a.turns content proof peers = (progress, some (.ok addr)) := ⟨_, Prod.ext rfl hput⟩
    obtain ⟨_, -, quotes, hquotes, hpay⟩ : ∃ u, client.requireWallet = .ok u ∧ ∃ quotes,
      getStoreQuotes C client a.quoteNet a.quoteOrder (quoteRequestOf P content) = .ok quotes ∧
      payQuotes C client a.chain quotes = .ok (proof, peers) := by
        simpa only [payForStorage, bind_eq_ok] using hpaid
    obtain ⟨group, hgroup, hnodup, hsubset⟩ := quoted_of_getStoreQuotes hears.distinct hquotes
    obtain rfl : peers = quotes.map Prod.fst := payQuotes_eq_ok hpay
    exact ⟨putLoop_eq_ok hstored, group, hgroup, onMajority_of_chunkPutToCloseGroup hstarted
      (hears.puts proof _ hpaid) hnodup hsubset hstored⟩

/-! ## The read -/

variable (P C rewards) in
/-- What the peer answers to the GET, its handler has made after `s`, when its database did not
    fail. -/
def HearsGet (s : Swarm) (net : Network) (address : XorName) (peer : PeerId × ℕ) : Prop :=
  ∀ response, getAnswer net address peer = some response → ∃ as s', Swarm.Runs P C rewards s as s' ∧
    response = handleGet P (s' peer.1).storage .none ⟨address⟩

/-- Of the first five peers of the group, a majority is among those that are asked, and answers. -/
def MajorityAnswers (net : Network) (address : XorName) (group peers : List PeerId) : Prop :=
  ∃ answering ⊆ group.take closeGroupSize, answering.Nodup ∧ closeGroupMajority ≤ answering.length ∧
    ∀ peer ∈ answering, ∃ turn, (peer, turn) ∈ peers.zipIdx ∧
      (getAnswer net address (peer, turn)).isSome

variable {group peers : List PeerId} {cache : ChunkCache}

/-- Two majorities of five have a peer in common. -/
theorem exists_mem_of_majorities {holders answering : List PeerId}
    (hholders : holders ⊆ group.take closeGroupSize) (hnodup : holders.Nodup)
    (hmany : closeGroupMajority ≤ holders.length)
    (hanswering : answering ⊆ group.take closeGroupSize) (hnodup' : answering.Nodup)
    (hmany' : closeGroupMajority ≤ answering.length) : ∃ peer ∈ holders, peer ∈ answering := by
  have hcard : (group.take closeGroupSize).toFinset.card <
      holders.toFinset.card + answering.toFinset.card := by
    rw [List.toFinset_card_of_nodup hnodup, List.toFinset_card_of_nodup hnodup']
    have hfive : (group.take closeGroupSize).toFinset.card ≤ closeGroupSize :=
      (List.toFinset_card_le _).trans (List.length_take_le _ _)
    have hmajority : closeGroupSize < closeGroupMajority + closeGroupMajority := by decide
    omega
  obtain ⟨peer, hpeer⟩ := Finset.inter_nonempty_of_card_lt_card_add_card
    (fun p hp => List.mem_toFinset.2 (hholders (List.mem_toFinset.1 hp)))
    (fun p hp => List.mem_toFinset.2 (hanswering (List.mem_toFinset.1 hp))) hcard
  obtain ⟨hh, ha⟩ := Finset.mem_inter.1 hpeer
  exact ⟨peer, List.mem_toFinset.1 hh, List.mem_toFinset.1 ha⟩

/-- An answer is the chunk, or nothing. -/
theorem HearsGet.answer {peer : PeerId × ℕ} (hstarted : Swarm.Started P C rewards s)
    (h : HearsGet P C rewards s net address peer) :
    (chunkOf P address (getAnswer net address peer)).isSome ∨
      passedOver (getAnswer net address peer) = true ∧
        (address ∈ (s peer.1).storage.db → getAnswer net address peer = none) := by
  rcases hanswer : getAnswer net address peer with _ | response
  · exact .inr ⟨rfl, fun _ => rfl⟩
  · obtain ⟨as, s', hrun, rfl⟩ := h response hanswer
    rcases ((hstarted.runs hrun).node peer.1).handleGet with ⟨c, -, hhash, hget⟩ | ⟨hmiss, hget⟩
    · rw [hget]
      exact .inl (by rw [chunkOf, if_pos ⟨rfl, hhash⟩]; rfl)
    · rw [hget]
      exact .inr ⟨rfl, fun hmem => absurd (Swarm.mem hrun hmem) hmiss⟩

theorem chunkFetch_of_onMajority (hstarted : Swarm.Started P C rewards s)
    (hmajority : OnMajority P C rewards s group address)
    (hpeers : net.closeGroupPeers client address = .ok peers)
    (hears : ∀ peer ∈ peers.zipIdx, HearsGet P C rewards s net address peer)
    (hanswers : MajorityAnswers net address group peers) :
    ∃ chunk, (chunkFetch P C client net address cache).1 = .ok (some chunk) ∧
      chunk.address = address ∧ computeAddress P chunk.content = address := by
  obtain ⟨holders, hsubset, hnodup, hmany, hholds⟩ := hmajority
  obtain ⟨answering, hsubset', hnodup', hmany', hanswering⟩ := hanswers
  obtain ⟨peer, hholder, hanswer⟩ :=
    exists_mem_of_majorities hsubset hnodup hmany hsubset' hnodup' hmany'
  obtain ⟨turn, hasked, hsome⟩ := hanswering peer hanswer
  have heq : getAnswers client net address = peers.zipIdx.map (getAnswer net address) := by
    rw [getAnswers, hpeers]
  have hmem : address ∈ (s peer).storage.db := by
    obtain ⟨c, hc, -⟩ := hholds [] s (.nil s) peer hholder
    exact AList.lookup_isSome.1 (by rw [hc]; rfl)
  have hgood : (chunkOf P address (getAnswer net address (peer, turn))).isSome := by
    rcases (hears _ hasked).answer hstarted with hgood | ⟨-, hnone⟩
    · exact hgood
    · rw [hnone hmem] at hsome
      cases hsome
  have hunhidden : Unhidden P address (getAnswers client net address) := by
    intro answer hin hanswer
    rw [heq] at hin ⊢
    have hfind : ((peers.zipIdx.map (getAnswer net address)).find?
        fun answer => !passedOver answer).isSome := by
      refine List.find?_isSome.2 ⟨answer, hin, ?_⟩
      obtain ⟨chunk, hchunk⟩ := Option.isSome_iff_exists.1 hanswer
      rw [(eq_success_of_chunkOf hchunk).1]
      rfl
    obtain ⟨first, hfirst⟩ := Option.isSome_iff_exists.1 hfind
    refine ⟨first, hfirst, ?_⟩
    obtain ⟨q, hq, rfl⟩ := List.mem_map.1 (List.mem_of_find?_eq_some hfirst)
    rcases (hears q hq).answer hstarted with hchunk | ⟨hpass, -⟩
    · exact hchunk
    · have hnot := List.find?_some hfirst
      rw [hpass] at hnot
      cases hnot
  have hin : getAnswer net address (peer, turn) ∈ getAnswers client net address := by
    rw [heq]
    exact List.mem_map_of_mem hasked
  rcases chunkFetch_spec (P := P) C client net address cache with ⟨hnil, -⟩ | hresult
  · rw [hnil] at hin
    cases hin
  · obtain ⟨chunk, hchunk⟩ := hresult.available_iff.2 hunhidden _ hin hgood
    refine ⟨chunk, hchunk, ?_, hresult.authentic hchunk⟩
    generalize chunkFetch P C client net address cache = result at hresult hchunk
    cases hresult with
    | missing => cases hchunk
    | found _ hc =>
      cases hchunk
      exact (eq_success_of_chunkOf hc).2.1
    | refused => cases hchunk

/-- **What one client has put, another gets**: while a majority of the peers that the one has asked
    are asked by the other and answer, it finds the chunk, from whatever state of its cache. -/
theorem chunkGet_after_chunkPut {writer : Client} {a : Attempt} {addr : XorName}
    (hstarted : Swarm.Started P C rewards s) (hears : HearsAnswers P C rewards s writer a content)
    (hput : (chunkPut P C writer a content).1 = some (.ok addr))
    (hgroup : a.quoteNet.closeGroupPeers writer (computeAddress P content) = .ok group)
    (hpeers : net.closeGroupPeers client addr = .ok peers)
    (hreads : ∀ peer ∈ peers.zipIdx, HearsGet P C rewards s net addr peer)
    (hanswers : MajorityAnswers net addr group peers) :
    ∃ chunk, (chunkGet P C client net addr cache).1 = .ok (some chunk) ∧
      chunk.address = computeAddress P content ∧
      computeAddress P chunk.content = computeAddress P content := by
  obtain ⟨rfl, group', hgroup', hmajority⟩ := chunkPut_durable hstarted hears hput
  obtain rfl := Except.ok.inj (hgroup.symm.trans hgroup')
  rw [chunkGet]
  rcases hfind : cache.find? (computeAddress P content) with _ | cached
  · rw [cache.get_of_find?_eq_none hfind]
    exact chunkFetch_of_onMajority hstarted hmajority hpeers hreads hanswers
  · rw [cache.get_of_find?_eq_some hfind]
    dsimp only
    split_ifs with hhash
    · exact ⟨_, rfl, rfl, hhash⟩
    · exact chunkFetch_of_onMajority hstarted hmajority hpeers hreads hanswers

/-! ## Three of five nodes written, three others read -/

section Example

def exampleIndex (peer : PeerId) : ℕ :=
  ((List.range 5).find? fun n => exampleName n = peer).getD 0

def exampleRewards (peer : PeerId) : AntNode.RewardsAddress := exampleAddress (exampleIndex peer)

/-- The `n`-th node once it has taken these steps. -/
def nodeAfter (E : AntNode.Evm) (actions : List NodeAction) (n : ℕ) : NodeState :=
  (actions.foldlM (NodeState.step clear E (exampleAddress n))
    (.open roomyStorage exampleTracker)).getD (.open roomyStorage exampleTracker)

/-- The first three nodes have taken these steps. -/
def swarmAfter (E : AntNode.Evm) (actions : List NodeAction) : Swarm := fun peer =>
  if peer ∈ exampleNames.take 3 then nodeAfter E actions (exampleIndex peer)
  else .open roomyStorage exampleTracker

/-- The first three peers answer that they have stored the chunk. -/
def storingNet (address : XorName) : Network :=
  { honestNet 0 with
    p2p.events := fun n => if 3 ≤ n then [.elapsed] else
      [.event (.message chunkProtocolId (some (exampleName n))
        (ChunkMessage.encode ⟨9, .putResponse (.success address)⟩))] }

theorem storing_runs :
    (∀ n < 3, exampleName n ∈ exampleNames.take 3 ∧ exampleIndex (exampleName n) = n) ∧
    ∀ k < 2, ∀ n < 5, responses (exampleName n) 9
        ((storingNet (computeAddress clear (honestContent k))).p2p.events n) =
      if 3 ≤ n then [] else [.putResponse (.success (computeAddress clear (honestContent k)))] := by
  decide +kernel

theorem exampleIndex_exampleName : ∀ n < 3, exampleName n ∈ exampleNames.take 3 ∧
    exampleIndex (exampleName n) = n := storing_runs.1

theorem swarmAfter_exampleName (E : AntNode.Evm) (actions : List NodeAction) {n : ℕ} (hn : n < 3) :
    swarmAfter E actions (exampleName n) = nodeAfter E actions n := by
  obtain ⟨hmem, hindex⟩ := exampleIndex_exampleName n hn
  rw [swarmAfter, if_pos hmem, hindex]

theorem runs_swarmAfter {C : ClientEvm} {actions : List NodeAction}
    (hkept : ∀ a ∈ actions, NodeState.Kept a)
    (hruns : ∀ n < 3, (actions.foldlM (NodeState.step clear C.toEvm (exampleAddress n))
      (.open roomyStorage exampleTracker)).isSome) :
    ∃ as, Swarm.Runs clear C exampleRewards (fun _ => .open roomyStorage exampleTracker) as
      (swarmAfter C.toEvm actions) := by
  have hnodes : ∀ peer ∈ exampleNames.take 3, ∃ as,
      Trace (NodeState.step clear C.toEvm (exampleRewards peer))
        (fun _ a => NodeState.Kept a) (.open roomyStorage exampleTracker) as
        (nodeAfter C.toEvm actions (exampleIndex peer)) := by
    intro peer hpeer
    obtain ⟨n, hn, rfl⟩ : ∃ n < 3, exampleName n = peer := by
      have htake : exampleNames.take 3 = [exampleName 0, exampleName 1, exampleName 2] := rfl
      simp only [htake, List.mem_cons, List.not_mem_nil, or_false] at hpeer
      rcases hpeer with rfl | rfl | rfl
      exacts [⟨0, by decide, rfl⟩, ⟨1, by decide, rfl⟩, ⟨2, by decide, rfl⟩]
    rw [exampleRewards, (exampleIndex_exampleName n hn).2]
    obtain ⟨s, hs⟩ := Option.isSome_iff_exists.1 (hruns n hn)
    have hrun : nodeAfter C.toEvm actions n = s := by rw [nodeAfter, hs, Option.getD_some]
    exact ⟨actions, hrun ▸ Trace.of_runs (runs_iff.2 hs) hkept⟩
  exact Trace.exists_of_components _ hnodes

theorem started_swarmAfter {C : ClientEvm} {actions : List NodeAction}
    (hkept : ∀ a ∈ actions, NodeState.Kept a)
    (hruns : ∀ n < 3, (actions.foldlM (NodeState.step clear C.toEvm (exampleAddress n))
      (.open roomyStorage exampleTracker)).isSome) :
    Swarm.Started clear C exampleRewards (swarmAfter C.toEvm actions) := by
  obtain ⟨as, h⟩ := runs_swarmAfter hkept hruns
  exact ⟨fun _ => roomyStorage, fun _ => exampleTracker, as, fun _ => by simp [roomyStorage], h⟩

/-- The answers to a PUT that the first three nodes have had. -/
theorem hearsPut_storingNet {E : AntNode.Evm} {actions : List NodeAction} {proof : Bytes} {k : ℕ}
    (hk : k < 2) (hputs : ∀ n < 3,
      ⟨⟨computeAddress clear (honestContent k), honestContent k, some proof⟩,
        .done (.success (computeAddress clear (honestContent k)))⟩ ∈ (nodeAfter E actions n).puts) :
    ∀ peer ∈ exampleNames.zipIdx, HearsPut clear (swarmAfter E actions)
      (storingNet (computeAddress clear (honestContent k))) (honestContent k) proof peer := by
  intro peer hpeer response hresponse
  obtain ⟨n, hn, rfl⟩ := mem_zipIdx_exampleNames hpeer
  have hmem : ChunkMessageBody.putResponse response ∈ responses (exampleName n) 9
    ((storingNet (computeAddress clear (honestContent k))).p2p.events n) := hresponse
  rw [storing_runs.2 k hk n hn] at hmem
  split_ifs at hmem with hthree
  · cases hmem
  · obtain rfl := ChunkMessageBody.putResponse.inj (List.mem_singleton.1 hmem)
    rw [swarmAfter_exampleName E actions (not_le.1 hthree)]
    exact ⟨_, hputs n (not_le.1 hthree), rfl, rfl⟩

/-- What the vault answers about the payment for the `k`-th chunk. -/
def writtenResults (k : ℕ) : List PaymentVerificationResult :=
  exampleVault (((priceQuotes honestEvm exampleClient exampleChain (honestQuotes k)).toOption.map
    fun r => r.2.quotes.map AntNode.QuotePaymentInfo.payment).getD []) (honestEvm.digest (honestPayment k))

/-- Both chunks are put, one after the other. -/
def writtenActions : List NodeAction :=
  paidActions 0 0 (writtenResults 0) ++ paidActions 1 1 (writtenResults 1)

def writtenSwarm : Swarm := swarmAfter honestEvm.toEvm writtenActions

/-- All of them quote, and the first three answer the PUT. -/
def writingAttempt : Attempt where
  quoteNet := honestNet 0
  quoteOrder := .asStarted
  chain := exampleChain
  putNet := storingNet (computeAddress clear (honestContent 0))
  putOrder _ := .asStarted
  turns := 6

def exampleGetResponse (n : ℕ) : ChunkGetResponse :=
  if n = 2 then .success exampleContent [5] else .notFound exampleContent

/-- The first two do not answer, the last two have nothing. -/
def readingNet : Network :=
  { honestNet 0 with
    p2p.events := fun n => if n < 2 then [.elapsed] else
      [.event (.message chunkProtocolId (some (exampleName n))
        (ChunkMessage.encode ⟨9, .getResponse (exampleGetResponse n)⟩))] }

/-- What the nodes and the two clients come to. -/
theorem written_runs :
    ((∀ n < 3, (writtenActions.foldlM (NodeState.step clear honestEvm.toEvm (exampleAddress n))
        (.open roomyStorage exampleTracker)).isSome) ∧
      ∀ k < 2, ∀ n < 3,
        ⟨honestPut k, .done (.success (computeAddress clear (honestContent k)))⟩ ∈
          (nodeAfter honestEvm.toEvm writtenActions n).puts) ∧
    (chunkPut clear honestEvm exampleClient writingAttempt (honestContent 0)).1 =
      some (.ok exampleContent) ∧
    readingNet.closeGroupPeers exampleClient exampleContent = .ok exampleNames ∧
    (∀ n < 5, (exampleName n, n) ∈ exampleNames.zipIdx ∧
      getAnswer readingNet exampleContent (exampleName n, n) =
        if n < 2 then none else some (exampleGetResponse n)) ∧
    ∀ n < 5, 2 ≤ n → handleGet clear (writtenSwarm (exampleName n)).storage .none ⟨exampleContent⟩ =
      exampleGetResponse n := by decide +kernel

theorem kept_writtenActions : ∀ a ∈ writtenActions, NodeState.Kept a := by
  simp [writtenActions, paidActions, NodeState.Kept]

theorem runs_writtenSwarm : ∃ as, Swarm.Runs clear honestEvm exampleRewards
    (fun _ => .open roomyStorage exampleTracker) as writtenSwarm :=
  runs_swarmAfter kept_writtenActions written_runs.1.1

theorem started_writtenSwarm : Swarm.Started clear honestEvm exampleRewards writtenSwarm :=
  started_swarmAfter kept_writtenActions written_runs.1.1

theorem hearsQuote_honestNet {k : ℕ} (hk : k < 2) : ∀ peer ∈ exampleNames.zipIdx,
    HearsQuote clear honestEvm exampleRewards writtenSwarm (honestNet k)
      (quoteRequestOf clear (honestContent k)) peer := by
  intro peer hpeer response hresponse
  obtain ⟨n, hn, rfl⟩ := mem_zipIdx_exampleNames hpeer
  have hmem : ChunkMessageBody.quoteResponse response ∈
      responses (exampleName n) 9 ((honestNet k).p2p.events n) := hresponse
  rw [responses_honestNet hk n hn, List.mem_singleton] at hmem
  obtain rfl := ChunkMessageBody.quoteResponse.inj hmem
  obtain ⟨as, hruns⟩ := runs_writtenSwarm
  refine ⟨_, as, ⟨roomyStorage, .none, .ok .paymentRequired, .ok true, exampleGenerator n,
    exampleTracker, seconds n, 0, honestEvm.writeQuote, fun _ => .error ""⟩, hruns, rfl, ?_⟩
  exact (handleQuote_honest hk n hn).symm

theorem hearsPut_writtenSwarm {k : ℕ} (hk : k < 2) : ∀ peer ∈ exampleNames.zipIdx,
    HearsPut clear writtenSwarm (storingNet (computeAddress clear (honestContent k)))
      (honestContent k) (honestProof k) peer :=
  hearsPut_storingNet hk (written_runs.1.2 k hk)

theorem hears_writingAttempt : HearsAnswers clear honestEvm exampleRewards writtenSwarm exampleClient
    writingAttempt (honestContent 0) := by
  have hzero : 0 < 2 := by decide
  refine ⟨?_, fun group hgroup => ?_, fun proof quoted hpaid => ?_⟩
  · rintro peers ⟨⟩
    exact nodup_exampleNames
  · obtain rfl := Except.ok.inj ((closeGroupPeers_honestNet hzero).symm.trans hgroup)
    exact hearsQuote_honestNet hzero
  · obtain ⟨rfl, rfl⟩ := Prod.mk.inj
      (Except.ok.inj ((payForStorage_honestNet hzero).symm.trans hpaid))
    exact hearsPut_writtenSwarm hzero

theorem getAnswer_readingNet {n : ℕ} (hn : n < 5) :
    getAnswer readingNet exampleContent (exampleName n, n) =
      if n < 2 then none else some (exampleGetResponse n) := (written_runs.2.2.2.1 n hn).2

theorem hears_readingNet : ∀ peer ∈ exampleNames.zipIdx,
    HearsGet clear honestEvm exampleRewards writtenSwarm readingNet exampleContent peer := by
  intro peer hpeer response hanswer
  obtain ⟨n, hn, rfl⟩ := mem_zipIdx_exampleNames hpeer
  refine ⟨[], writtenSwarm, .nil _, ?_⟩
  have hhandled := written_runs.2.2.2.2
  rw [getAnswer_readingNet hn] at hanswer
  split_ifs at hanswer with htwo
  obtain rfl := Option.some.inj hanswer
  exact (hhandled n hn (not_lt.1 htwo)).symm

theorem majorityAnswers_example :
    MajorityAnswers readingNet exampleContent exampleNames exampleNames := by
  have hanswers : ∀ n, 2 ≤ n → n < 5 → ∃ turn, (exampleName n, turn) ∈ exampleNames.zipIdx ∧
      (getAnswer readingNet exampleContent (exampleName n, turn)).isSome := by
    intro n htwo hn
    refine ⟨n, (written_runs.2.2.2.1 n hn).1, ?_⟩
    rw [getAnswer_readingNet hn, if_neg (not_lt.2 htwo)]
    rfl
  refine ⟨exampleNames.drop 2, List.drop_subset _ _, nodup_exampleNames.sublist
    (List.drop_sublist _ _), by decide, fun peer hpeer => ?_⟩
  have hdrop : exampleNames.drop 2 = [exampleName 2, exampleName 3, exampleName 4] := rfl
  simp only [hdrop, List.mem_cons, List.not_mem_nil, or_false] at hpeer
  rcases hpeer with rfl | rfl | rfl
  · exact hanswers 2 (by decide) (by decide)
  · exact hanswers 3 (by decide) (by decide)
  · exact hanswers 4 (by decide) (by decide)

theorem chunkPut_writingAttempt :
    (chunkPut clear honestEvm exampleClient writingAttempt (honestContent 0)).1 =
      some (.ok exampleContent) := written_runs.2.1

theorem chunkPut_durable_three : ∃ addr, addr = exampleContent ∧
    (chunkPut clear honestEvm exampleClient writingAttempt (honestContent 0)).1 = some (.ok addr) ∧
    ∃ group, OnMajority clear honestEvm exampleRewards writtenSwarm group exampleContent := by
  obtain ⟨haddr, group, -, hmajority⟩ :=
    chunkPut_durable started_writtenSwarm hears_writingAttempt chunkPut_writingAttempt
  exact ⟨exampleContent, haddr, chunkPut_writingAttempt, group, hmajority⟩

theorem chunkGet_after_chunkPut_three : ∃ chunk,
    (chunkGet clear honestEvm exampleClient readingNet exampleContent .default).1 =
      .ok (some chunk) ∧ chunk.address = exampleContent ∧
    computeAddress clear chunk.content = exampleContent :=
  chunkGet_after_chunkPut started_writtenSwarm hears_writingAttempt chunkPut_writingAttempt
    (closeGroupPeers_honestNet (show 0 < 2 by decide)) written_runs.2.2.1 hears_readingNet
    majorityAnswers_example

end Example

end Autonomi.AntClient
